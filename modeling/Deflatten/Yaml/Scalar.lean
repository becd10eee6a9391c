import Deflatten.Binary64.Decimal

/-!
# Yaml/Scalar — what a plain scalar stands for

A scalar without quotes is a null, a truth value, a number or, failing these, a text.
-/

namespace Deflatten.Yaml

/-- The value of a scalar. -/
inductive Scalar where
  /-- Nothing. -/
  | null
  /-- A truth value. -/
  | bool (b : Bool)
  /-- An integer. -/
  | int (i : Int)
  /-- A number with a fraction or an exponent. -/
  | float (x : Binary64)
  /-- A text. -/
  | text (s : String)
deriving DecidableEq, Repr

namespace Scalar

/-- The scalars that are words. -/
def words : List (String × Scalar) :=
  [("", null), ("~", null), ("null", null), ("Null", null), ("NULL", null),
   ("true", bool true), ("True", bool true), ("TRUE", bool true),
   ("false", bool false), ("False", bool false), ("FALSE", bool false),
   (".nan", float .nan), (".NaN", float .nan), (".NAN", float .nan),
   (".inf", float (.signed false Binary64.infinity)),
   (".Inf", float (.signed false Binary64.infinity)),
   (".INF", float (.signed false Binary64.infinity)),
   ("+.inf", float (.signed false Binary64.infinity)),
   ("+.Inf", float (.signed false Binary64.infinity)),
   ("+.INF", float (.signed false Binary64.infinity)),
   ("-.inf", float (.signed true Binary64.infinity)),
   ("-.Inf", float (.signed true Binary64.infinity)),
   ("-.INF", float (.signed true Binary64.infinity))]

/-- The value of a digit in a base. -/
def digit? (base : Nat) (c : Char) : Option Nat := (Text.hexValue? c).filter (· < base)

/-- A nonempty run of digits in a base. -/
def readBase? (base : Nat) (cs : List Char) : Option Nat :=
  if cs.isEmpty then none else Text.readDigits base (digit? base) 0 cs

/-- A natural number: decimal, or in the base that its first characters name.  A leading zero means
base eight. -/
def readNat? (cs : List Char) : Option Nat :=
  match cs with
  | ['0'] => some 0
  | '0' :: 'x' :: ds | '0' :: 'X' :: ds => readBase? 16 ds
  | '0' :: 'b' :: ds | '0' :: 'B' :: ds => readBase? 2 ds
  | '0' :: 'o' :: ds | '0' :: 'O' :: ds => readBase? 8 ds
  | '0' :: ds => readBase? 8 ds
  | _ => readBase? 10 cs

/-- An integer of at most 64 bits, with or without a sign. -/
def readInt? (cs : List Char) : Option Int :=
  match cs with
  | '-' :: ds => (readNat? ds).bind fun n => if Text.isInt64 (-(n : Int)) then some (-(n : Int)) else none
  | '+' :: ds => (readNat? ds).bind fun n => if Text.isInt64 n then some (n : Int) else none
  | _ => (readNat? cs).bind fun n => if n < UInt64.size then some (n : Int) else none

/-- A finite decimal number. -/
def readFloat? (cs : List Char) : Option Binary64 :=
  (Binary64.read? cs).filter fun x => !x.isInfinite

/-- **The value of a plain scalar.**  Underscores between digits do not count. -/
def ofPlain (s : String) : Scalar :=
  match words.find? fun w => w.1 == s with
  | some w => w.2
  | none =>
    match s.toList with
    | '.' :: _ => ((readFloat? s.toList).map float).getD (text s)
    | c :: _ =>
      if c.isDigit || c == '-' || c == '+' then
        let ds := s.toList.filter (· ≠ '_')
        ((readInt? ds).map int).getD (((readFloat? ds).map float).getD (text s))
      else text s
    | [] => null

end Scalar

/-- **A document**, or a part of one. -/
inductive Node where
  /-- A scalar, plain or between quotes. -/
  | scalar (text : String) (isPlain : Bool)
  /-- A list. -/
  | list (items : List Node)
  /-- A mapping. -/
  | mapping (entries : List (String × Node))

namespace Node

/-- Nothing. -/
def null : Node := scalar "" true

/-- The value of a scalar; none for a list or a mapping. -/
def scalar? : Node → Option Scalar
  | scalar s true => some (.ofPlain s)
  | scalar s false => some (.text s)
  | _ => none

end Node

end Deflatten.Yaml

import Deflatten.Json.Basic
import Deflatten.Text.Bytes

/-!
# Json/Reader — one value from the front of a text

`readValue` takes the first value of a text and returns what follows it, so a stream of values is
read by repetition.  A number ends where its grammar ends, and what follows is not looked at.
Containers nest at most `maxDepth` deep.
-/

namespace Deflatten.Json

/-- The blanks between tokens. -/
def isBlank (c : Char) : Bool := c == ' ' || c == '\t' || c == '\n' || c == '\r'

/-- What is left after leading blanks. -/
def skipBlanks (cs : List Char) : List Char := cs.dropWhile isBlank

/-- How deep containers may nest. -/
def maxDepth : Nat := 10000

/-! ## Texts

An escape names a code unit, and two units may spell one character; so a text is read as units first
and joined afterwards. -/

/-- The character a backslash and a letter stand for. -/
def escapeLetter? : Char → Option Char
  | '"' => some '"'
  | '\\' => some '\\'
  | '/' => some '/'
  | 'b' => some '\x08'
  | 'f' => some '\x0c'
  | 'n' => some '\n'
  | 'r' => some '\r'
  | 't' => some '\t'
  | _ => none

/-- The units up to the closing quote, and what follows it. -/
def readUnits : List Char → Option (List Nat × List Char)
  | [] => none
  | '"' :: rest => some ([], rest)
  | '\\' :: 'u' :: a :: b :: c :: d :: rest => do
    let unit ← Text.readHex? [a, b, c, d]
    let (units, after) ← readUnits rest
    pure (unit :: units, after)
  | '\\' :: l :: rest => do
    let c ← escapeLetter? l
    let (units, after) ← readUnits rest
    pure (c.toNat :: units, after)
  | c :: rest =>
    if c.toNat < 0x20 then none
    else do
      let (units, after) ← readUnits rest
      pure (c.toNat :: units, after)

/-- The first half of a pair. -/
def isHighUnit (n : Nat) : Bool := 0xd800 ≤ n && n < 0xdc00

/-- The second half of a pair. -/
def isLowUnit (n : Nat) : Bool := 0xdc00 ≤ n && n < 0xe000

/-- The character of a unit that stands alone. -/
def loneUnit (n : Nat) : Char :=
  if isHighUnit n || isLowUnit n then Text.replacement else Char.ofNat n

/-- **Units as characters**: a pair is one character, half a pair is the replacement. -/
def joinUnits : List Nat → List Char
  | [] => []
  | [n] => [loneUnit n]
  | hi :: lo :: rest =>
    if isHighUnit hi && isLowUnit lo then
      Char.ofNat (0x10000 + (hi - 0xd800) * 0x400 + (lo - 0xdc00)) :: joinUnits rest
    else loneUnit hi :: joinUnits (lo :: rest)

/-- A text whose opening quote has been read. -/
def readText (cs : List Char) : Option (String × List Char) :=
  (readUnits cs).map fun (units, rest) => (String.ofList (joinUnits units), rest)

/-! ## Numbers -/

/-- A nonempty run of digits. -/
def readDigitRun (cs : List Char) : Option (List Char × List Char) :=
  match cs.span Char.isDigit with
  | ([], _) => none
  | (ds, rest) => some (ds, rest)

/-- The whole part: a zero, or digits that do not start with one. -/
def readWhole : List Char → Option (List Char × List Char)
  | '0' :: rest => some (['0'], rest)
  | cs => readDigitRun cs

/-- A point and digits, if a point comes next. -/
def readFraction : List Char → Option (List Char × List Char)
  | '.' :: rest => (readDigitRun rest).map fun (ds, after) => ('.' :: ds, after)
  | cs => some ([], cs)

/-- The optional sign of an exponent. -/
def readSign : List Char → List Char × List Char
  | '+' :: rest => (['+'], rest)
  | '-' :: rest => (['-'], rest)
  | cs => ([], cs)

/-- An exponent, if one comes next. -/
def readExponent : List Char → Option (List Char × List Char)
  | [] => some ([], [])
  | c :: rest =>
    if c = 'e' ∨ c = 'E' then
      let (sign, digits) := readSign rest
      (readDigitRun digits).map fun (ds, after) => (c :: sign ++ ds, after)
    else some ([], c :: rest)

/-- A number without its sign. -/
def readMagnitude (cs : List Char) : Option (List Char × List Char) := do
  let (whole, rest) ← readWhole cs
  let (fraction, rest) ← readFraction rest
  let (exponent, rest) ← readExponent rest
  pure (whole ++ fraction ++ exponent, rest)

/-- A number, by its spelling. -/
def readNumber : List Char → Option (List Char × List Char)
  | '-' :: rest => (readMagnitude rest).map fun (m, after) => ('-' :: m, after)
  | cs => readMagnitude cs

/-! ## Values -/

/-- Drops a literal from the front. -/
def expect : List Char → List Char → Option (List Char)
  | [], cs => some cs
  | _ :: _, [] => none
  | w :: ws, c :: cs => if w = c then expect ws cs else none

/-- A value that holds no other. -/
def readScalar : List Char → Option (Json × List Char)
  | '"' :: rest => (readText rest).map fun (s, after) => (str s, after)
  | 't' :: rest => (expect ['r', 'u', 'e'] rest).map fun after => (bool true, after)
  | 'f' :: rest => (expect ['a', 'l', 's', 'e'] rest).map fun after => (bool false, after)
  | 'n' :: rest => (expect ['u', 'l', 'l'] rest).map fun after => (null, after)
  | cs => (readNumber cs).map fun (literal, after) => (num literal, after)

mutual

/-- A value, blanks before it allowed.  `room` is how much deeper containers may go, and `fuel`
bounds the number of calls: every second call at least takes a character. -/
def readValueAt : (fuel room : Nat) → List Char → Option (Json × List Char)
  | 0, _, _ => none
  | fuel + 1, room, cs =>
    match skipBlanks cs with
    | '[' :: rest =>
      if room = 0 then none
      else match skipBlanks rest with
        | ']' :: after => some (arr [], after)
        | inner => (readElements fuel (room - 1) inner).map fun (es, after) => (arr es, after)
    | '\x7b' :: rest =>
      if room = 0 then none
      else match skipBlanks rest with
        | '\x7d' :: after => some (obj [], after)
        | inner => (readMembers fuel (room - 1) inner).map fun (ms, after) => (obj ms, after)
    | scalar => readScalar scalar

/-- One or more elements, and the bracket that closes them. -/
def readElements : (fuel room : Nat) → List Char → Option (List Json × List Char)
  | 0, _, _ => none
  | fuel + 1, room, cs => do
    let (e, rest) ← readValueAt fuel room cs
    match skipBlanks rest with
    | ',' :: more =>
      let (es, after) ← readElements fuel room more
      pure (e :: es, after)
    | ']' :: after => pure ([e], after)
    | _ => none

/-- One or more members, and the brace that closes them. -/
def readMembers : (fuel room : Nat) → List Char → Option (List (String × Json) × List Char)
  | 0, _, _ => none
  | fuel + 1, room, cs =>
    match skipBlanks cs with
    | '"' :: rest => do
      let (name, rest) ← readText rest
      match skipBlanks rest with
      | ':' :: rest =>
        let (v, rest) ← readValueAt fuel room rest
        match skipBlanks rest with
        | ',' :: more =>
          let (ms, after) ← readMembers fuel room more
          pure ((name, v) :: ms, after)
        | '\x7d' :: after => pure ([(name, v)], after)
        | _ => none
      | _ => none
    | _ => none

end

/-- **The value at the front of a text, and what follows it.** -/
def readValue (cs : List Char) : Option (Json × List Char) :=
  readValueAt (2 * cs.length + 2) maxDepth cs

/-- A text that holds one value and blanks. -/
def parse? (s : String) : Option Json := do
  let (j, rest) ← readValue s.toList
  if (skipBlanks rest).isEmpty then pure j else none

end Deflatten.Json

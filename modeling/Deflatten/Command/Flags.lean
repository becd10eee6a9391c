import Deflatten.Collections.Table
import Deflatten.Text.Digits
import Deflatten.Text.Escape

/-!
# Command/Flags — options of a command line

An option is a name after one dash or two, with its value after an equals sign or in the next
argument.  A switch needs no value.  Options end at the first argument that is none.
-/

namespace Deflatten

/-- What an option takes. -/
inductive FlagKind where
  /-- Nothing, or a truth value. -/
  | switch
  /-- A text. -/
  | text
  /-- An integer. -/
  | int
  /-- A natural number of 64 bits. -/
  | word
deriving DecidableEq, Repr

/-- **The options given**, by name. -/
abbrev Flags := Table String String

namespace Flags

/-- The words for a truth value. -/
def readSwitch? (s : String) : Option Bool :=
  if ["1", "t", "T", "true", "TRUE", "True"].contains s then some true
  else if ["0", "f", "F", "false", "FALSE", "False"].contains s then some false
  else none

/-- A natural number, in base ten or in the base that its first characters name. -/
def readNat? (cs : List Char) : Option Nat :=
  let digits (base : Nat) (ds : List Char) : Option Nat :=
    if ds.isEmpty then none
    else Text.readDigits base (fun c => (Text.hexValue? c).filter (· < base)) 0 ds
  match cs with
  | ['0'] => some 0
  | '0' :: 'x' :: ds | '0' :: 'X' :: ds => digits 16 ds
  | '0' :: 'b' :: ds | '0' :: 'B' :: ds => digits 2 ds
  | '0' :: 'o' :: ds | '0' :: 'O' :: ds => digits 8 ds
  | '0' :: ds => digits 8 ds
  | _ => digits 10 cs

/-- An integer of 64 bits. -/
def readInt? (s : String) : Option Int :=
  let i? := match s.toList with
    | '-' :: ds => (readNat? ds).map fun n => -(n : Int)
    | '+' :: ds => (readNat? ds).map Int.ofNat
    | ds => (readNat? ds).map Int.ofNat
  i?.filter Text.isInt64

/-- A natural number of 64 bits. -/
def readWord? (s : String) : Option UInt64 :=
  ((readNat? s.toList).filter (· < UInt64.size)).map UInt64.ofNat

/-- Whether a value is of a kind. -/
def fits (kind : FlagKind) (value : String) : Bool :=
  match kind with
  | .switch => (readSwitch? value).isSome
  | .text => true
  | .int => (readInt? value).isSome
  | .word => (readWord? value).isSome

/-- The name of an option and the value in the same argument; nothing if the argument is no option. -/
def option? (arg : String) : Option (String × Option String) :=
  let body? := match arg.toList with
    | '-' :: '-' :: c :: cs | '-' :: c :: cs => some (c :: cs)
    | _ => none
  body?.map fun cs =>
    let name := cs.takeWhile (· ≠ '=')
    (String.ofList name,
      if name.length = cs.length then none else some (String.ofList (cs.drop (name.length + 1))))

/-- An option with its value, if the option exists and the value fits. -/
def put (kinds : List (String × FlagKind)) (given : Flags) (name value : String) :
    Except String Flags :=
  match kinds.find? fun k => k.1 == name with
  | none => .error ("flag provided but not defined: -" ++ name)
  | some (_, kind) =>
    if fits kind value then .ok (given.insert name value)
    else .error ("invalid value " ++ Text.quoted value ++ " for flag -" ++ name)

/-- **Reads the options at the front of arguments.**  A later value of an option replaces an earlier
one. -/
def parse (kinds : List (String × FlagKind)) : Flags → List String → Except String Flags
  | given, [] => .ok given
  | given, arg :: args =>
    if arg = "--" then .ok given
    else
      match option? arg with
      | none => .ok given
      | some (name, some value) => do
        let given ← put kinds given name value
        parse kinds given args
      | some (name, none) =>
        if kinds.any fun k => k.1 == name && k.2 == .switch then
          parse kinds (given.insert name "true") args
        else
          match args with
          | [] => .error ("flag needs an argument: -" ++ name)
          | value :: args => do
            let given ← put kinds given name value
            parse kinds given args

/-- The value of a text option; empty if it is not given. -/
def text (f : Flags) (name : String) : String := (f.get? name).getD ""

/-- Whether a switch is on. -/
def switch (f : Flags) (name : String) : Bool := ((f.get? name).bind readSwitch?).getD false

/-- The value of an integer option. -/
def int (f : Flags) (name : String) (default : Int) : Int :=
  ((f.get? name).bind readInt?).getD default

/-- The value of a 64-bit option. -/
def word (f : Flags) (name : String) (default : UInt64) : UInt64 :=
  ((f.get? name).bind readWord?).getD default

end Flags

end Deflatten

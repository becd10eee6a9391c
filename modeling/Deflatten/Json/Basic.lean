import Deflatten.Text.Digits

/-!
# Json/Basic — values of the exchange format

An object keeps its members in document order, repetitions included, and a number keeps the spelling
it had: what a member means, and which numbers fit, is for the reader of a record to say.
-/

namespace Deflatten

/-- A JSON value as it was written. -/
inductive Json where
  | null
  | bool (b : Bool)
  | num (literal : List Char)
  | str (s : String)
  | arr (elements : List Json)
  | obj (members : List (String × Json))

namespace Json

instance : Inhabited Json := ⟨null⟩

/-- An integer. -/
def int (i : Int) : Json := num (Text.decimalChars i)

/-- A natural number. -/
def nat (n : Nat) : Json := num (Text.decimalDigits n)

/-- A list of integers. -/
def ints (is : List Int) : Json := arr (is.map int)

/-- A list of texts. -/
def strs (ss : List String) : Json := arr (ss.map str)

/-- Letters that a member name may be written in: case does not count, and neither do the long s
and the kelvin sign, which are the small s and the small k in another shape. -/
def foldCase (c : Char) : Char :=
  if 'a' ≤ c ∧ c ≤ 'z' then Char.ofNat (c.toNat - 32)
  else if c.toNat = 0x17f then 'S'
  else if c.toNat = 0x212a then 'K'
  else c

/-- **Member names match up to letter case.** -/
def sameName (a b : String) : Bool := a.toList.map foldCase == b.toList.map foldCase

/-- The last member of a name, as written. -/
def member? (name : String) : Json → Option Json
  | obj ms => (ms.reverse.find? fun m => m.1 == name).map (·.2)
  | _ => none

end Json

end Deflatten

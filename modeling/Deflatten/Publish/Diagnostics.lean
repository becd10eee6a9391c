import Deflatten.Text.Bytes

/-!
# Publish/Diagnostics — problems that do not stop a run

Problems are gathered in the order in which they come up and shown in an order that does not depend
on it: by function, then by kind, and only within these as they came.
-/

namespace Deflatten

/-- **A problem with one function.** -/
structure Diagnostic where
  /-- The function. -/
  func : String
  /-- The kind of problem. -/
  kind : String
  /-- What happened. -/
  message : String
deriving DecidableEq, Repr, Inhabited

namespace Diagnostic

/-- A function that cannot be read. -/
def input : String := "input"

/-- An instruction that cannot be lifted. -/
def lift : String := "lift"

/-- A function that could not be unflattened. -/
def unflatten : String := "unflatten"

/-- A removal that stopped at a limit. -/
def budget : String := "budget"

/-- The printed form. -/
def text (d : Diagnostic) : String := "[" ++ d.kind ++ "] " ++ d.func ++ ": " ++ d.message

/-- Whether a problem may be shown before another: by function, then by kind. -/
def le (a b : Diagnostic) : Bool :=
  if Text.byteLt a.func b.func then true
  else if Text.byteLt b.func a.func then false
  else !Text.byteLt b.kind a.kind

/-- **The order in which problems are shown.** -/
def sorted (ds : List Diagnostic) : List Diagnostic := ds.mergeSort le

end Diagnostic

/-- What to do about a problem with one function. -/
inductive Tolerance where
  /-- Stop the run. -/
  | strict
  /-- Take note and go on. -/
  | bestEffort
deriving DecidableEq, Repr

/-- The wording of a problem that stops a run. -/
def Tolerance.fatal (func message : String) : String := func ++ ": " ++ message

/-- **Deals with a problem**: takes note of it, or stops with its wording. -/
def Tolerance.check (t : Tolerance) (ds : List Diagnostic) (d : Diagnostic) :
    Except String (List Diagnostic) :=
  match t with
  | strict => .error (fatal d.func d.message)
  | bestEffort => .ok (ds ++ [d])

end Deflatten

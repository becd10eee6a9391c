import Deflatten.Binary64.Basic
import Deflatten.Microcode.Func

/-!
# Dispatch/Event — what the engine tells about its work

An event has a level, a wording and named details.  Events are values: the engine returns them in
order, and whoever wants to see them prints them.
-/

namespace Deflatten

/-- **One thing the engine has to tell.** -/
inductive Event where
  /-- A hub was guessed. -/
  | hubGuessed (fn : String) (blk last : Int)
  /-- A region was explored. -/
  | explored (fn : String) (blk : Int) (internal exits : List Int) (entropy : Binary64)
      (enteredFromOutside : List Int) (viaHub : Bool)
  /-- A region was rejected for its constants. -/
  | entropyRejected (fn : String) (blk : Int) (entropy : Binary64)
  /-- A region was rejected because it can be entered elsewhere. -/
  | outsideRejected (fn : String) (blk : Int) (blocks : List Int)
  /-- A region is too small. -/
  | belowThresholds (fn : String) (blk : Int) (internal exits values : Nat)
  /-- A region shares blocks with an earlier one. -/
  | overlapDropped (fn : String) (blk : Int)
  /-- A region does not switch on one variable. -/
  | noState (fn : String) (entry : Int)
  /-- A pass is over. -/
  | passDone (fn : String) (stage : Maturity) (pass regions duplicated blocks : Nat)
  /-- A budget is used up. -/
  | budgetExhausted (fn : String) (stage : Maturity) (reason : String)
  /-- A function was changed. -/
  | unflattened (fn : String) (stage : Maturity)
      (passes dispatchers redirected duplicated before after : Nat)
  /-- A stage is over. -/
  | stageDone (fn : String) (stage : Maturity) (blocks : Nat)
deriving DecidableEq, Repr

namespace Event

/-- How much an event matters. -/
inductive Level where
  /-- To someone looking for a fault. -/
  | debug
  /-- To everyone. -/
  | info
deriving DecidableEq, Repr

/-- A detail of an event. -/
inductive Detail where
  /-- A text. -/
  | text (s : String)
  /-- A number. -/
  | int (i : Int)
  /-- A list of numbers. -/
  | ints (is : List Int)
  /-- A share. -/
  | share (x : Binary64)
  /-- A yes or no. -/
  | flag (b : Bool)
deriving DecidableEq, Repr

/-- The level of an event. -/
def level : Event → Level
  | budgetExhausted .. | unflattened .. => .info
  | _ => .debug

/-- The wording of an event. -/
def message : Event → String
  | hubGuessed .. => "guessed outermost dispatcher"
  | explored .. => "explored"
  | entropyRejected .. => "rejected: entropy out of range"
  | outsideRejected .. => "rejected: internal blocks reachable from outside"
  | belowThresholds .. => "region below thresholds"
  | overlapDropped .. => "dropped overlapping region"
  | noState .. => "no single state variable"
  | passDone .. => "pass done"
  | budgetExhausted .. => "budget exhausted"
  | unflattened .. => "unflattened"
  | stageDone .. => "stage done"

/-- The details of an event, by name. -/
def details : Event → List (String × Detail)
  | hubGuessed fn blk last =>
    [("func", .text fn), ("blk", .int blk), ("last_before", .int last)]
  | explored fn blk internal exits entropy outside viaHub =>
    [("func", .text fn), ("blk", .int blk), ("internal", .ints internal), ("exits", .ints exits),
     ("entropy", .share entropy), ("external_fathers", .ints outside), ("via_hub", .flag viaHub)]
  | entropyRejected fn blk entropy =>
    [("func", .text fn), ("blk", .int blk), ("entropy", .share entropy)]
  | outsideRejected fn blk blocks =>
    [("func", .text fn), ("blk", .int blk), ("blocks", .ints blocks)]
  | belowThresholds fn blk internal exits values =>
    [("func", .text fn), ("blk", .int blk), ("internal", .int internal), ("exits", .int exits),
     ("values", .int values)]
  | overlapDropped fn blk => [("func", .text fn), ("blk", .int blk)]
  | noState fn entry => [("func", .text fn), ("entry", .int entry)]
  | passDone fn stage pass regions duplicated blocks =>
    [("func", .text fn), ("maturity", .text stage.name), ("pass", .int pass),
     ("regions", .int regions), ("duplicated", .int duplicated), ("blocks", .int blocks)]
  | budgetExhausted fn stage reason =>
    [("func", .text fn), ("maturity", .text stage.name), ("reason", .text reason)]
  | unflattened fn stage passes dispatchers redirected duplicated before after =>
    [("func", .text fn), ("maturity", .text stage.name), ("passes", .int passes),
     ("dispatchers", .int dispatchers), ("redirected", .int redirected),
     ("duplicated", .int duplicated), ("blocks_before", .int before),
     ("blocks_after", .int after)]
  | stageDone fn stage blocks =>
    [("func", .text fn), ("maturity", .text stage.name), ("blocks", .int blocks)]

end Event

end Deflatten

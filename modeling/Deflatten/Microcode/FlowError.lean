import Deflatten.Microcode.Func

/-!
# Microcode/FlowError — what can be wrong with a control-flow graph

Each cause carries the function's name and the serials it is about.  The causes fall into three
families: a serial names no block, the edges and the instructions disagree, or an edge is not there.
-/

namespace Deflatten

/-- **Why a control-flow graph or a change to it is refused.** -/
inductive FlowError where
  /-- The function has no blocks. -/
  | noBlocks (fn : String)
  /-- A serial outside the function, which has `count` blocks. -/
  | noSerial (fn : String) (serial : Int) (count : Nat)
  /-- An edge that leaves the function. -/
  | noTarget (fn : String) (blk target : Int)
  /-- A block that stands at another position than its serial says. -/
  | misplaced (fn : String) (index : Nat) (serial : Int)
  /-- A jump whose destination is no block. -/
  | noBlockTarget (fn : String) (blk : Int) (op : Opcode)
  /-- A conditional jump in a block that never falls through. -/
  | noFallThrough (fn : String) (blk : Int)
  /-- A jump or return that is not last. -/
  | earlyEnd (fn : String) (blk : Int) (op : Opcode)
  /-- Successors that the instructions do not give. -/
  | wrongSuccs (fn : String) (blk : Int) (found wanted : List Int)
  /-- A successor that does not know its predecessor. -/
  | noPred (fn : String) (blk target : Int)
  /-- A predecessor that does not know its successor. -/
  | noSucc (fn : String) (pred blk : Int)
  /-- A block that already ends in a jump or return. -/
  | endsAlready (fn : String) (blk : Int) (op : Opcode)
  /-- An edge from a kept block to a dropped one. -/
  | dropped (fn : String) (serial : Int)
  /-- Control runs past the last instruction of a block that never falls through. -/
  | fallsOff (fn : String) (blk : Int)
  /-- The edge to move is not there. -/
  | noEdge (fn : String) (src target : Int)
  /-- Two errors, the second met while undoing the first. -/
  | both (first second : FlowError)
deriving DecidableEq, Repr

namespace FlowError

/-- The three families of causes. -/
inductive Family where
  /-- A serial names no block. -/
  | notFound
  /-- Edges and instructions disagree. -/
  | inconsistent
  /-- An edge is not there. -/
  | noEdge
deriving DecidableEq, Repr

/-- The families an error belongs to. -/
def families : FlowError → List Family
  | noBlocks _ | noSerial .. | noTarget .. => [.notFound]
  | misplaced .. | noBlockTarget .. | noFallThrough .. | earlyEnd .. | wrongSuccs .. | noPred ..
  | noSucc .. | endsAlready .. | dropped .. | fallsOff .. => [.inconsistent]
  | noEdge .. => [.noEdge]
  | both a b => a.families ++ b.families

/-- A list of serials between brackets. -/
def serialsText (ss : List Int) : String := "[" ++ " ".intercalate (ss.map Text.decimal) ++ "]"

/-- The wording of an error. -/
def message : FlowError → String
  | noBlocks fn => notFound ++ fn ++ " has no blocks"
  | noSerial fn serial count =>
    notFound ++ fn ++ " serial " ++ Text.decimal serial ++ " (have " ++ Text.decimal count ++ ")"
  | noTarget fn blk target =>
    notFound ++ at_ fn blk ++ " -> " ++ Text.decimal target
  | misplaced fn index serial =>
    inconsistent ++ fn ++ " block at index " ++ Text.decimal index ++ " has serial " ++
      Text.decimal serial
  | noBlockTarget fn blk op => inconsistent ++ at_ fn blk ++ ": " ++ op.name ++
      " without block target"
  | noFallThrough fn blk => inconsistent ++ at_ fn blk ++ ": conditional jump without fallthrough"
  | earlyEnd fn blk op => inconsistent ++ at_ fn blk ++ ": " ++ op.name ++ " before end of block"
  | wrongSuccs fn blk found wanted =>
    inconsistent ++ at_ fn blk ++ ": succs " ++ serialsText found ++ ", want " ++ serialsText wanted
  | noPred fn blk target =>
    inconsistent ++ fn ++ " edge " ++ Text.decimal blk ++ " -> " ++ Text.decimal target ++
      " missing from preds"
  | noSucc fn pred blk =>
    inconsistent ++ fn ++ " pred " ++ Text.decimal pred ++ " of blk " ++ Text.decimal blk ++
      " has no matching succ"
  | endsAlready fn blk op => inconsistent ++ at_ fn blk ++ " already ends in " ++ op.name
  | dropped fn serial =>
    inconsistent ++ fn ++ " reachable edge to dropped block " ++ Text.decimal serial
  | fallsOff fn blk => inconsistent ++ at_ fn blk ++ " falls off the function"
  | noEdge fn src target =>
    "mcode: no such edge: " ++ fn ++ " " ++ Text.decimal src ++ " -> " ++ Text.decimal target
  | both a b => a.message ++ "\n" ++ b.message
where
  notFound : String := "mcode: block not found: "
  inconsistent : String := "mcode: inconsistent CFG: "
  at_ (fn : String) (blk : Int) : String := fn ++ " blk " ++ Text.decimal blk

end FlowError

/-- The block at a serial, or the error that there is none. -/
def Func.getBlock (f : Func) (serial : Int) : Except FlowError Block :=
  match f.block? serial with
  | some b => .ok b
  | none => .error (.noSerial f.name serial f.blocks.length)

end Deflatten

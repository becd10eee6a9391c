import Deflatten.Dispatch.Comparison
import Deflatten.Dispatch.EngineError

/-!
# Dispatch/Hub — guessing the outermost dispatcher

The hub of a flattened function is the block that nearly all others return to.  It is guessed by its
shape and the number of its predecessors; the block before it is where the state is first set.
-/

namespace Deflatten

/-- **The shape of a hub**: the last instruction compares a register, or a masked value, with a
literal on the right. -/
def Block.isHubShaped (b : Block) : Bool :=
  b.tail?.any fun t =>
    t.op.isFlatteningJump && t.r.isImm && (t.l.kind == .reg || t.l.isExprOf .and)

/-- Whether a block has a last instruction, and it is no conditional jump. -/
def Block.endsPlainly (b : Block) : Bool :=
  b.tail?.any fun t => !t.op.isConditional

namespace Func

/-- The best hub among blocks, `best` with `most` predecessors being the one to beat. -/
def bestHub (best most : Int) : List Block → Int
  | [] => best
  | b :: bs =>
    if most < b.preds.length ∧ b.isHubShaped then bestHub b.serial b.preds.length bs
    else bestHub best most bs

/-- **The hub-shaped block with the most predecessors**, more than `minPreds` of them and the first
of equals; `noBlock` if there is none. -/
def guessHub (f : Func) (minPreds : Int) : Int := bestHub noBlock minPreds f.blocks

/-- The least of `last` and the predecessors before it that end plainly. -/
def leastPlainPred (f : Func) (hub : Int) : (last : Int) → List Int → Except EngineError Int
  | last, [] => .ok last
  | last, p :: ps =>
    match f.getBlock p with
    | .error e => .error (.predOfHub hub e)
    | .ok b => f.leastPlainPred hub (if p < last ∧ b.endsPlainly then p else last) ps

/-- **The last block before control enters the hub**: its first predecessor if that comes earlier
and ends plainly, else the least earlier one that does; `noBlock` if none does. -/
def lastBeforeHub (f : Func) (hub : Int) : Except EngineError Int :=
  if hub = noBlock then .ok noBlock
  else match f.getBlock hub with
    | .error e => .error (.flow e)
    | .ok d =>
      match d.preds with
      | [] => .ok noBlock
      | first :: _ =>
        match f.getBlock first with
        | .error e => .error (.predOfHub hub e)
        | .ok b =>
          if first < hub ∧ b.endsPlainly then .ok first
          else (f.leastPlainPred hub hub d.preds).map fun last =>
            if last = hub then noBlock else last

/-- Whether a predecessor compares the same operand. -/
def comparedBefore (f : Func) (blk : Int) (compared : Operand) : List Int → Except EngineError Bool
  | [] => .ok false
  | p :: ps =>
    match f.getBlock p with
    | .error e => .error (.predOf blk e)
    | .ok b =>
      if b.comparison?.any fun c => c.compared.same true compared then .ok true
      else f.comparedBefore blk compared ps

/-- **Whether a block compares something that none of its predecessors compares.**  Several tests of
one variable in a row are the program's own. -/
def isCandidateEntry (f : Func) (b : Block) : Except EngineError Bool :=
  match b.comparison? with
  | none => .ok false
  | some c => (f.comparedBefore b.serial c.compared b.preds).map (!·)

end Func

end Deflatten

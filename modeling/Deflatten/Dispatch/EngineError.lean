import Deflatten.Microcode.FlowError

/-!
# Dispatch/EngineError — where the engine met a broken graph

The cause is always a serial or an edge; the engine adds what it was looking at and in which pass.
-/

namespace Deflatten

/-- **Why the engine stops.** -/
inductive EngineError where
  /-- The graph is broken. -/
  | flow (e : FlowError)
  /-- …met at a predecessor of a block. -/
  | predOf (blk : Int) (e : FlowError)
  /-- …met at a predecessor of the guessed hub. -/
  | predOfHub (blk : Int) (e : FlowError)
  /-- …met at a successor of a block. -/
  | succOf (blk : Int) (e : FlowError)
  /-- In a pass over a function. -/
  | inPass (fn : String) (pass : Nat) (e : EngineError)
  /-- At a stage of the pipeline. -/
  | atStage (fn : String) (stage : Maturity) (e : FlowError)
  /-- Canceled from outside. -/
  | canceled
deriving DecidableEq, Repr

namespace EngineError

/-- The fault in the graph, if one is the cause. -/
def cause? : EngineError → Option FlowError
  | flow e | predOf _ e | predOfHub _ e | succOf _ e | atStage _ _ e => some e
  | inPass _ _ e => e.cause?
  | canceled => none

/-- The wording of an error. -/
def message : EngineError → String
  | flow e => e.message
  | predOf blk e => "unflat: pred of blk " ++ Text.decimal blk ++ ": " ++ e.message
  | predOfHub blk e => "unflat: pred of dispatcher " ++ Text.decimal blk ++ ": " ++ e.message
  | succOf blk e => "unflat: succ of blk " ++ Text.decimal blk ++ ": " ++ e.message
  | inPass fn pass e => "unflat: " ++ fn ++ " pass " ++ Text.decimal pass ++ ": " ++ e.message
  | atStage fn stage e => "pipeline: " ++ fn ++ " at " ++ stage.name ++ ": " ++ e.message
  | canceled => "context canceled"

end EngineError

end Deflatten

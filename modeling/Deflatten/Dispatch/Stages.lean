import Deflatten.Dispatch.Unflatten
import Deflatten.Microcode.Liveness

/-!
# Dispatch/Stages — a function on its way through the stages

At each stage the clean-ups of that stage run first, then dispatchers are removed if the
configuration asks for it.  A clean-up may lay an inner dispatcher bare once an outer one is gone.
-/

namespace Deflatten

/-- The record of one stage. -/
structure Stage where
  /-- The stage. -/
  maturity : String := ""
  /-- Dead stores dropped. -/
  deadStores : Int := 0
  /-- Edges threaded. -/
  threaded : Int := 0
  /-- Unreachable blocks dropped. -/
  dropped : Int := 0
  /-- The removal, if one was made. -/
  unflatten? : Option Report := none
deriving DecidableEq, Repr, Inhabited

/-- **The record of a function's way.** -/
structure Result where
  /-- The function. -/
  func : String := ""
  /-- The number of blocks before. -/
  blocksBefore : Int := 0
  /-- The number of blocks after. -/
  blocksAfter : Int := 0
  /-- The stages passed. -/
  stages : List Stage := []
deriving DecidableEq, Repr, Inhabited

namespace Result

/-- The reports of the stages. -/
def reports (r : Result) : List Report := r.stages.filterMap Stage.unflatten?

/-- The number of regions met. -/
def dispatchers (r : Result) : Nat := (r.reports.flatMap Report.dispatchers).length

/-- The first budget that ran out, or nothing. -/
def exhausted (r : Result) : String :=
  ((r.reports.map Report.exhausted).find? fun s => s != "").getD ""

end Result

/-- **The clean-ups of a stage**: dead stores and jump threading from the first global optimization
on, compaction from the resolution of calls on. -/
def Func.cleanUp (m : Maturity) : Edit Stage := do
  let mut stage : Stage := { maturity := m.name }
  if Maturity.glbopt1.code ≤ m.code then
    let (f, dropped) ← Edit.ofExcept (← get).eliminateDeadStores
    set f
    let threaded ← Func.threadJumps
    stage := { stage with deadStores := dropped, threaded := threaded }
  if Maturity.calls.code ≤ m.code then
    let before := (← get).blocks.length
    let _ ← Func.compact
    stage := { stage with dropped := (before : Int) - (← get).blocks.length }
  pure stage

/-- What came of a function's way through the stages. -/
structure Advanced where
  /-- The function afterwards. -/
  func : Func
  /-- The stages passed. -/
  stages : List Stage := []
  /-- Why it stopped early, if it did. -/
  error? : Option EngineError := none
  /-- What there is to tell. -/
  events : List Event := []

/-- The given stages in turn. -/
def Func.advanceThrough (cfg : Config) (canceled : Bool) : List Maturity → Func → Advanced
  | [], f => { func := f }
  | m :: ms, f =>
    match Func.cleanUp m { f with maturity := m } with
    | .error e f => { func := f, error? := some (.atStage f.name m e) }
    | .ok stage f =>
      let u : Option Unflattened :=
        if cfg.unflattensAt m then some (f.unflatten cfg canceled) else none
      let stage := { stage with unflatten? := u.map (·.report) }
      let f := u.elim f (·.func)
      let told := u.elim [] (·.events)
      match u.bind (·.error?) with
      | some e => { func := f, stages := [stage], error? := some e, events := told }
      | none =>
        let rest := Func.advanceThrough cfg canceled ms f
        { rest with
          stages := stage :: rest.stages
          events := told ++ .stageDone f.name m f.blocks.length :: rest.events }

/-- **Takes a function from its stage to the last one.** -/
def Func.advance (cfg : Config) (canceled : Bool) (f : Func) : Advanced × Result :=
  let a := Func.advanceThrough cfg canceled
    (Maturity.all.filter fun m => f.maturity.code ≤ m.code) f
  (a, { func := f.name, blocksBefore := f.blocks.length, blocksAfter := a.func.blocks.length,
        stages := a.stages })

end Deflatten

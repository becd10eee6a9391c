import Deflatten.Dispatch.Collect
import Deflatten.Dispatch.Report
import Deflatten.Microcode.Edit

/-!
# Dispatch/Unflatten — sending every edge past the dispatcher

An edge into a region comes from a block, its father, that has set the state before.  If the value
is known, the edge goes straight to the exit the value selects, and what the internal blocks on the
way would have computed is computed on the edge.  A father that joins several blocks, each of which
sets the state, is copied for each of them.

Passes repeat until no region is found, nothing changes, or a budget runs out.
-/

namespace Deflatten

/-! ## The state a path leaves -/

/-- The blocks at serials, all of which have to be blocks. -/
def Func.getBlocks (f : Func) (path : List Int) : Except FlowError (List Block) :=
  path.mapM f.getBlock

/-- The instructions of blocks, terminators apart. -/
def Func.carried (f : Func) (path : List Int) : Except FlowError (List Insn) :=
  (f.getBlocks path).map fun bs => bs.flatMap Block.body

/-- The value of a variable after blocks in turn, nothing being known before. -/
def Func.stateAfter? (f : Func) (path : List Int) (state : Var) :
    Except FlowError (Option UInt64) :=
  (f.getBlocks path).map fun bs =>
    (bs.foldl (fun e b => b.execBody e) Table.empty).get? state

/-- Extends a path backwards, `steps` lengths of it being allowed, until it decides the state: the
path that does, and the value.  It goes on only through a block with one predecessor, outside the
region and not yet on the path. -/
def Region.track? (d : Region) (f : Func) (state : Var) : (steps : Nat) → (path : List Int) →
    Except FlowError (Option (List Int × UInt64))
  | 0, _ => .ok none
  | _ + 1, [] => .ok none
  | steps + 1, top :: path => do
    match ← f.stateAfter? (top :: path) state with
    | some v => pure (some (top :: path, v))
    | none =>
      match (← f.getBlock top).preds with
      | [p] =>
        if d.isInternal p || p ∈ top :: path then pure none
        else d.track? f state steps (p :: top :: path)
      | _ => pure none

/-- The path that decides the state on a path into a region, at most `maxTrackDepth` long, and the
value it leaves. -/
def Region.trackOn? (cfg : Config) (d : Region) (f : Func) (state : Var) (path : List Int) :
    Except FlowError (Option (List Int × UInt64)) :=
  d.track? f state (cfg.maxTrackDepth + 1 - path.length).toNat path

/-- **The state that a path into a region leaves.** -/
def Region.stateOn? (cfg : Config) (d : Region) (f : Func) (state : Var) (path : List Int) :
    Except FlowError (Option UInt64) :=
  (d.trackOn? cfg f state path).map fun r => r.map (·.2)

/-! ## Moving one edge -/

/-- The block with instructions put in front of its terminator. -/
def Block.insertBeforeEnd (b : Block) (is : List Insn) : Block :=
  b.withInsns (b.body ++ is ++ b.insns.drop b.body.length)

/-- **Moves the edge from `src` to `entry` over to `target`**, running `is` on it: at the end of
`src` if all control from there takes the edge, in a block of their own if not. -/
def Func.bypass (src entry target : Int) (is : List Insn) : Edit Unit := do
  let f ← get
  let b ← Edit.ofExcept (f.getBlock src)
  let target ←
    if is.isEmpty then pure target
    else if b.terminator?.all fun t => t.op == .goto then do
      set (f.modifyBlock src fun b => b.insertBeforeEnd is)
      pure target
    else Func.appendBlock (is ++ [.goto target])
  let b ← Edit.ofExcept ((← get).getBlock src)
  if b.terminator?.isNone && b.next == entry then Func.appendGoto src target
  else Func.redirect src entry target

/-! ## Bypassing a region -/

/-- A removal under way. -/
structure Work where
  /-- The function as it stands. -/
  func : Func
  /-- The record so far. -/
  report : Report
  /-- What there is to tell. -/
  events : List Event := []
  /-- The copies made in this pass. -/
  copies : Nat := 0
  /-- Whether this pass has changed anything. -/
  changed : Bool := false
  /-- Whether this pass has run out of copies. -/
  exhausted : Bool := false

/-- **Steps of a removal that may fail**, leaving the work as far as it came. -/
abbrev Removal (α : Type) := EStateM EngineError Work α

namespace Removal

/-- A change to the function. -/
def edit {α : Type} (e : Edit α) : Removal α := fun w =>
  match e w.func with
  | .ok a f => .ok a { w with func := f }
  | .error e f => .error (.flow e) { w with func := f }

/-- A lookup in the function, whose failure ends the removal. -/
def ofExcept {α : Type} : Except FlowError α → Removal α
  | .ok a => pure a
  | .error e => throw (.flow e)

/-- Something to tell. -/
def tell (e : Event) : Removal Unit := modify fun w => { w with events := w.events ++ [e] }

/-- A change to the record. -/
def record (g : Report → Report) : Removal Unit := modify fun w => { w with report := g w.report }

/-- Counts an edge that stays. -/
def countUnresolved : Removal Unit := record fun r => { r with unresolved := r.unresolved + 1 }

/-- Moves an edge and counts it. -/
def bypass (src entry target : Int) (path : List Int) : Removal Unit := do
  let is ← ofExcept ((← get).func.carried path)
  edit (Func.bypass src entry target is)
  modify fun w =>
    { w with report := { w.report with redirected := w.report.redirected + 1 }, changed := true }

/-- A predecessor of a father, the exit its state selects and the way there. -/
structure Route where
  /-- The predecessor. -/
  pred : Int
  /-- The exit. -/
  target : Int
  /-- The internal blocks on the way. -/
  path : List Int
deriving DecidableEq, Repr

/-- The route through a father from one of its predecessors, if the state there is known. -/
def routeFrom? (cfg : Config) (d : Region) (f : Func) (state : Var) (father pred : Int) :
    Except FlowError (Option Route) :=
  if pred = father || d.isInternal pred then .ok none
  else do
    match ← d.stateOn? cfg f state [pred, father] with
    | none => pure none
    | some v => (d.resolvePath? f v).map fun r => r.map fun way => ⟨pred, way.1, way.2⟩

/-- The routes through a father from those predecessors whose state is known. -/
def routesThrough (cfg : Config) (d : Region) (f : Func) (state : Var) (father : Int)
    (preds : List Int) : Except FlowError (List Route) :=
  (preds.mapM (routeFrom? cfg d f state father)).map fun routes => routes.filterMap id

/-- Gives each route a copy of the father; the last may have the father itself if `keep`.  Stops
when no copy is left. -/
def takeRoutes (cfg : Config) (entry father : Int) (keep : Bool) : List Route → Removal Unit
  | [] => pure ()
  | r :: rs =>
    if keep && rs.isEmpty then bypass father entry r.target r.path
    else do
      if cfg.maxDuplications ≤ (← get).copies then
        modify fun w => { w with exhausted := true }
      else
        let copy ← edit (Func.duplicate father)
        modify fun w =>
          { w with
            copies := w.copies + 1
            report := { w.report with duplicated := w.report.duplicated + 1 } }
        edit (Func.redirect r.pred father copy)
        bypass copy entry r.target r.path
        takeRoutes cfg entry father keep rs

/-- A father that does not set the state itself: its predecessors may. -/
def splitFather (cfg : Config) (d : Region) (state : Var) (father : Int) : Removal Unit := do
  let f := (← get).func
  let preds := (← ofExcept (f.getBlock father)).preds
  if preds.length < 2 then countUnresolved
  else
    let routes ← ofExcept (routesThrough cfg d f state father preds)
    if routes.isEmpty then countUnresolved
    else
      let keep := routes.length == preds.length
      if !keep then countUnresolved
      takeRoutes cfg d.entrySerial father keep routes

/-- The fathers of a region in turn. -/
def redirectFathers (cfg : Config) (d : Region) (state : Var) : List Int → Removal Unit
  | [] => pure ()
  | father :: rest => do
    let f := (← get).func
    let b ← ofExcept (f.getBlock father)
    if d.entrySerial ∉ b.succs then redirectFathers cfg d state rest
    else
      match ← ofExcept (d.stateOn? cfg f state [father]) with
      | some v =>
        match ← ofExcept (d.resolvePath? f v) with
        | none => countUnresolved
        | some (target, path) => bypass father d.entrySerial target path
        redirectFathers cfg d state rest
      | none =>
        splitFather cfg d state father
        if (← get).exhausted then pure () else redirectFathers cfg d state rest

/-- **Leads the edges into a region past it.** -/
def bypassRegion (cfg : Config) (d : Region) : Removal Unit := do
  let f := (← get).func
  match d.state? with
  | none => tell (.noState f.name d.entrySerial)
  | some state => redirectFathers cfg d state (d.externalFathers f)

/-- The regions of a pass in turn, until the copies run out. -/
def bypassRegions (cfg : Config) (pass : Nat) : List Region → Removal Unit
  | [] => pure ()
  | d :: ds => do
    record fun r => { r with dispatchers := r.dispatchers ++ [d.summarize pass] }
    bypassRegion cfg d
    if (← get).exhausted then pure () else bypassRegions cfg pass ds

/-! ## Passes -/

/-- Runs something whose errors belong to a pass. -/
def inPass {α : Type} (pass : Nat) (x : Removal α) : Removal α := fun w =>
  match x w with
  | .ok a w' => .ok a w'
  | .error e w' => .error (.inPass w'.func.name pass e) w'

/-- Notes that a budget stopped the removal. -/
def stopFor (reason : String) : Removal Unit := do
  let f := (← get).func
  record fun r => { r with exhausted := reason }
  tell (.budgetExhausted f.name f.maturity reason)

/-- Collects the regions of the function as it stands. -/
def collect (cfg : Config) : Removal (List Region) := fun w =>
  let c := w.func.collect cfg
  let w := { w with events := w.events ++ c.events }
  match c.error? with
  | some e => .error e w
  | none => .ok c.regions w

/-- Passes from the given one on, at most `left` of them. -/
def runPasses (cfg : Config) (canceled : Bool) : (left pass : Nat) → Removal Unit
  | 0, _ => pure ()
  | left + 1, pass => do
    if canceled then throw .canceled
    let regions ← inPass pass (collect cfg)
    if regions.isEmpty then pure ()
    else if cfg.maxPasses < pass then
      stopFor ("pass budget (" ++ Text.decimal cfg.maxPasses ++ ") exhausted with " ++
        Text.decimal regions.length ++ " dispatcher(s) left")
    else
      record fun r => { r with passes := pass }
      modify fun w => { w with copies := 0, changed := false, exhausted := false }
      inPass pass (bypassRegions cfg pass regions)
      if (← get).changed then
        let _ ← inPass pass (edit Func.compact)
      let w ← get
      tell (.passDone w.func.name w.func.maturity pass regions.length w.copies
        w.func.blocks.length)
      if w.exhausted then
        stopFor ("duplication budget (" ++ Text.decimal cfg.maxDuplications ++
          ") exhausted in pass " ++ Text.decimal pass)
      else if w.changed then runPasses cfg canceled left (pass + 1)
      else pure ()

/-- All passes, and the news that they changed something. -/
def runAll (cfg : Config) (canceled : Bool) : Removal Unit := do
  runPasses cfg canceled (cfg.maxPasses.toNat + 1) 1
  let w ← get
  let r := w.report
  if r.changed then
    tell (.unflattened w.func.name w.func.maturity r.passes.toNat r.dispatchers.length
      r.redirected.toNat r.duplicated.toNat r.blocksBefore.toNat w.func.blocks.length)

end Removal

/-- What came of a removal. -/
structure Unflattened where
  /-- The function afterwards. -/
  func : Func
  /-- The record. -/
  report : Report
  /-- Why it stopped, if the graph was broken or it was canceled. -/
  error? : Option EngineError
  /-- What there is to tell. -/
  events : List Event

/-- **Removes the dispatchers of a function at its stage.**  A used-up budget is noted in the record
and is no error. -/
def Func.unflatten (cfg : Config) (canceled : Bool) (f : Func) : Unflattened :=
  let report : Report :=
    { func := f.name, maturity := f.maturity.name, blocksBefore := f.blocks.length }
  let finish (w : Work) (error? : Option EngineError) : Unflattened :=
    { func := w.func, report := { w.report with blocksAfter := w.func.blocks.length },
      error? := error?, events := w.events }
  let start : Work := { func := f, report := report }
  if cfg.unflattensAt f.maturity then
    match Removal.runAll cfg canceled start with
    | .ok _ w => finish w none
    | .error e w => finish w (some e)
  else finish start none

end Deflatten

import Deflatten.Dispatch.Event
import Deflatten.Dispatch.Region

/-!
# Dispatch/Explore — growing a region from a block

Starting at a block that compares, a successor is internal if it ends in a conditional jump, or has
no instruction, and inherits nothing but what is set on the way to it; any other is an exit and is
not entered.  The region is believed when its constants look made up and nothing but the entry can
be reached from outside.
-/

namespace Deflatten

namespace Region

/-- Whether a block found from `father` only chooses: it inherits what is set on the way, and its
last instruction, if it has one, is a conditional jump. -/
def belongs (father child : BlockInfo) : Bool :=
  child.needsOnly father.assumed && child.block.tail?.all fun t => t.op.isFlatteningJump

/-- The region with an internal block more. -/
def addInternal (d : Region) (i : BlockInfo) : Region := { d with internal := d.internal ++ [i] }

/-- The region with an exit more. -/
def addExit (d : Region) (i : BlockInfo) : Region := { d with exits := d.exits ++ [⟨i, []⟩] }

/-- **Depth-first growth.**  The stack holds internal blocks with the successors still to be looked
at; a serial that was classified is passed over.  Every block that is pushed is internal and pushed
once, so the blocks and edges of the function bound the steps. -/
def grow (f : Func) : (fuel : Nat) → List (BlockInfo × List Int) → Region →
    Region × Option EngineError
  | 0, _, d => (d, none)
  | _ + 1, [], d => (d, none)
  | fuel + 1, (_, []) :: stack, d => grow f fuel stack d
  | fuel + 1, (father, s :: ss) :: stack, d =>
    if d.isInternal s || d.isExit s then grow f fuel ((father, ss) :: stack) d
    else match f.getBlock s with
      | .error e => (d, some (.succOf father.serial e))
      | .ok b =>
        let child := father.child b s
        if belongs father child then
          grow f fuel ((child, b.succs) :: (father, ss) :: stack) (d.addInternal child)
        else grow f fuel ((father, ss) :: stack) (d.addExit child)

/-- A bound on the steps of a growth. -/
def growthBound (f : Func) : Nat := (f.blocks.flatMap (·.succs)).length + f.blocks.length + 1

/-- The constants of a region with the serials they lead to. -/
def resolveAll (d : Region) (f : Func) : Except FlowError (List (UInt64 × Option Int)) :=
  d.values.mapM fun v => (d.resolve? f v).map fun s => (v, s)

/-- The constants that lead to a serial, in the order of discovery. -/
def selectorsOf (resolved : List (UInt64 × Option Int)) (serial : Int) : List UInt64 :=
  distinct ((resolved.filter fun r => r.2 == some serial).map (·.1))

/-- Exits with the constants that lead to them.  Of two exits with one serial the later is the one
that is found. -/
def pairAll (resolved : List (UInt64 × Option Int)) : List Exit → List Exit
  | [] => []
  | x :: xs =>
    let shadowed := xs.any fun y => y.info.serial == x.info.serial
    (if shadowed then x else { x with selectors := selectorsOf resolved x.info.serial }) ::
      pairAll resolved xs

/-- **The region with every exit paired with the constants that lead to it.** -/
def pairExits (d : Region) (f : Func) : Except FlowError Region :=
  (d.resolveAll f).map fun resolved => { d with exits := pairAll resolved d.exits }

end Region

/-- What came of an exploration. -/
structure Exploration where
  /-- The region as far as it was explored. -/
  region : Region
  /-- Whether it is believed, or why it could not be explored. -/
  verdict : Except EngineError Bool
  /-- What there is to tell. -/
  events : List Event := []

namespace Region

/-- Whether a block may start a region: `some viaHub` if so. -/
def admits (cfg : Config) (f : Func) (hub : Int) (b : Block) : Except EngineError (Option Bool) :=
  (f.isCandidateEntry b).map fun candidate =>
    if candidate then some false
    else if cfg.entryPolicy = .candidateOrHub ∧ b.serial = hub ∧ b.comparison?.isSome then some true
    else none

/-- The entry of a region.  It may read whatever it reads, and if it is the hub also what the last
block before it sets. -/
def entryInfo (f : Func) (hub last place : Int) (b : Block) : Except EngineError BlockInfo :=
  let plain := BlockInfo.ofBlock b place none []
  if b.serial = hub ∧ last ≠ noBlock then
    match f.getBlock last with
    | .error e => .error (.flow e)
    | .ok first => .ok { plain with assumed := adjoinAll (adjoinAll plain.assumed first.defs) b.uses }
  else .ok { plain with assumed := adjoinAll plain.assumed b.uses }

/-- The region that holds nothing but its entry. -/
def seed (hub last : Int) (viaHub : Bool) (entry : BlockInfo) (c : Comparison) : Region :=
  { hub := hub, lastBefore := last, viaHub := viaHub, internal := [entry], compared := c.compared,
    cmpSize := c.const.size,
    state? := match distinct c.compared.reads with
      | [v] => some v
      | _ => none }

/-- Judges a fully grown region. -/
def judge (cfg : Config) (f : Func) (blk : Int) (d : Region) : Exploration :=
  let d := { d with entropy := Deflatten.entropy d.values d.cmpSize }
  let outside := d.enteredFromOutside
  let told := Event.explored f.name blk d.internalSerials d.exitSerials d.entropy outside d.viaHub
  if d.entropy.lt cfg.entropyMin || cfg.entropyMax.lt d.entropy then
    ⟨d, .ok false, [told, .entropyRejected f.name blk d.entropy]⟩
  else if cfg.strictExternalFathers && !outside.isEmpty then
    ⟨d, .ok false, [told, .outsideRejected f.name blk outside]⟩
  else match d.pairExits f with
    | .error e => ⟨d, .error (.flow e), [told]⟩
    | .ok d => ⟨d, .ok true, [told]⟩

/-- **Explores the region that a block enters**, the hub and the last block before it being
guessed. -/
def explore (cfg : Config) (f : Func) (hub last place : Int) (b : Block) : Exploration :=
  let blank : Region := { hub := hub, lastBefore := last }
  match admits cfg f hub b, b.comparison? with
  | .error e, _ => ⟨blank, .error e, []⟩
  | .ok none, _ => ⟨blank, .ok false, []⟩
  | .ok (some _), none => ⟨blank, .ok false, []⟩
  | .ok (some viaHub), some c =>
    match entryInfo f hub last place b with
    | .error e => ⟨{ blank with viaHub := viaHub }, .error e, []⟩
    | .ok entry =>
      match grow f (growthBound f) [(entry, b.succs)] (seed hub last viaHub entry c) with
      | (d, some e) => ⟨d, .error e, []⟩
      | (d, none) => judge cfg f b.serial d

end Region

end Deflatten

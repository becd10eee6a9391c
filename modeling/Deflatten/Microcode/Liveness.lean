import Deflatten.Microcode.Edges

/-!
# Microcode/Liveness — which variables are read later

A variable is live into a block that reads it before writing it, and through a block that does not
write it and has it live out; it is live out of a block if it is live into a successor.  The sets
grow round by round, last block first, until a round adds nothing.

A dead store is an instruction that only computes a register or slot that is not live after it.
-/

namespace Deflatten

namespace Func

/-- The variables live into and out of one block. -/
structure LiveSets where
  /-- Live on entry. -/
  onEntry : List Var := []
  /-- Live on exit. -/
  onExit : List Var := []
deriving DecidableEq, Repr, Inhabited

/-- The sets of one block, grown by what its successors and its own code ask for. -/
def growBlock (b : Block) (sets : List LiveSets) (own : LiveSets) : LiveSets :=
  let succIn := b.succs.flatMap fun s => if 0 ≤ s then (sets[s.toNat]?.elim [] (·.onEntry)) else []
  let out := adjoinAll own.onExit succIn
  { onEntry := adjoinAll own.onEntry (b.free ++ out.filter fun v => v ∉ b.defs), onExit := out }

/-- Grows the sets of the blocks at the given positions in turn. -/
def growAt (f : Func) : List Nat → List LiveSets → List LiveSets
  | [], sets => sets
  | i :: is, sets =>
    match f.blocks[i]?, sets[i]? with
    | some b, some own => f.growAt is (sets.set i (growBlock b sets own))
    | _, _ => f.growAt is sets

/-- One round over all blocks, last first. -/
def growRound (f : Func) (sets : List LiveSets) : List LiveSets :=
  f.growAt (List.range f.blocks.length).reverse sets

/-- Repeats rounds until one adds nothing. -/
def growUntilStable (f : Func) : Nat → List LiveSets → List LiveSets
  | 0, sets => sets
  | rounds + 1, sets =>
    let sets' := f.growRound sets
    if sets' = sets then sets else f.growUntilStable rounds sets'

/-- A bound on the rounds: each but the last adds a variable to one of the sets. -/
def maxRounds (f : Func) : Nat :=
  2 * f.blocks.length * (distinct (f.blocks.flatMap Block.free)).length + 1

/-- The live sets of every block, nothing being live into a successor that is no block. -/
def liveSets (f : Func) : List LiveSets :=
  f.growUntilStable f.maxRounds (f.blocks.map fun _ => {})

/-- Looks up the successors of all blocks. -/
def checkSuccs (f : Func) : Except FlowError Unit :=
  ((f.blocks.flatMap (·.succs)).mapM f.getBlock).map fun _ => ()

/-- **The live sets of every block.**  A round asks every successor for its sets, so all of them have
to be blocks. -/
def liveness (f : Func) : Except FlowError (List LiveSets) := f.checkSuccs.map fun _ => f.liveSets

/-! ## Dead stores -/

/-- Whether an instruction only computes a register or slot that is not live after it. -/
def isDeadStore (live : List Var) (i : Insn) : Bool :=
  i.op.isRemovable && i.def?.any fun v => !v.isGlobal && v ∉ live

/-- The variables live before an instruction, from those live after it. -/
def liveBefore (live : List Var) (i : Insn) : List Var :=
  adjoinAll (live.filter fun v => v ∉ i.defs) i.uses

/-- The instructions that are left when the dead stores go, and what is live before them; a dropped
instruction reads nothing. -/
def dropDead (out : List Var) : List Insn → List Insn × List Var
  | [] => ([], out)
  | i :: is =>
    let (kept, live) := dropDead out is
    if isDeadStore live i then (kept, live) else (i :: kept, liveBefore live i)

/-- Every block without the dead stores that live sets show. -/
def dropDeadBy (sets : List LiveSets) (f : Func) : Func :=
  f.mapBlocks fun i b => b.withInsns (dropDead ((sets[i]?).elim [] (·.onExit)) b.insns).1

/-- Every block without its dead stores. -/
def dropDeadStores (f : Func) : Except FlowError Func :=
  f.liveness.map fun sets => f.dropDeadBy sets

/-- Repeats while instructions go, at most a given number of times. -/
def eliminateRounds : Nat → Func → Except FlowError Func
  | 0, f => .ok f
  | rounds + 1, f => do
    let f' ← f.dropDeadStores
    if f'.numInsns < f.numInsns then eliminateRounds rounds f' else pure f'

/-- **Drops dead stores until none is left**; the number of instructions dropped.  Each round but
the last drops one at least. -/
def eliminateDeadStores (f : Func) : Except FlowError (Func × Nat) :=
  (eliminateRounds (f.numInsns + 1) f).map fun f' => (f', f.numInsns - f'.numInsns)

end Func

end Deflatten

import Deflatten.Microcode.FlowError

/-!
# Microcode/Edges — successors and predecessors from the instructions

The successors of a block follow from its terminator and its fall-through.  `Func.rebuildEdges`
writes them into every block, and the predecessors that follow from them, in ascending order;
`Func.verify` checks that what is written is what follows.
-/

namespace Deflatten

/-- **Changes to a function that may fail.**  A change that fails leaves the function as far as it
came. -/
abbrev Edit (α : Type) := EStateM FlowError Func α

/-- A result that needs no change. -/
def Edit.ofExcept {α : Type} : Except FlowError α → Edit α
  | .ok a => pure a
  | .error e => throw e

namespace Block

/-- The serials control may go to from a block, before any check that they name blocks.  The
fall-through comes first, and a jump to it adds nothing. -/
def targets (fn : String) (b : Block) : Except FlowError (List Int) :=
  match b.terminator? with
  | none => .ok (if b.next = noBlock then [] else [b.next])
  | some t =>
    if t.op = .ret then .ok []
    else if t.d.kind ≠ .block then .error (.noBlockTarget fn b.serial t.op)
    else if t.op = .goto then .ok [t.d.block]
    else if b.next = noBlock then .error (.noFallThrough fn b.serial)
    else .ok (if t.d.block = b.next then [b.next] else [b.next, t.d.block])

end Block

namespace Func

/-- **The successors of a block**, each of them a block of the function. -/
def succsOf (f : Func) (b : Block) : Except FlowError (List Int) := do
  let ss ← b.targets f.name
  match ss.find? fun s => !f.hasSerial s with
  | some s => .error (.noTarget f.name b.serial s)
  | none => .ok ss

/-! ## Rebuilding -/

/-- The position and serial of the first block that stands in the wrong place. -/
def firstMisplaced? : Nat → List Block → Option (Nat × Int)
  | _, [] => none
  | i, b :: bs => if b.serial = i then firstMisplaced? (i + 1) bs else some (i, b.serial)

/-- The successor lists of the blocks up to the first that has none, and the error there. -/
def succLists (f : Func) : List Block → List (List Int) × Option FlowError
  | [] => ([], none)
  | b :: bs =>
    match f.succsOf b with
    | .error e => ([], some e)
    | .ok ss =>
      let (rest, e) := f.succLists bs
      (ss :: rest, e)

/-- The positions of the lists that hold a serial, ascending. -/
def holders (lists : List (List Int)) (serial : Int) : List Int :=
  (lists.zipIdx.filter fun l => serial ∈ l.1).map fun l => (l.2 : Int)

/-- The function with the given successor lists, and the predecessors they imply.  A block past the
end of the lists keeps the successors it has. -/
def withEdges (f : Func) (lists : List (List Int)) : Func :=
  f.mapBlocks fun i b => { b with preds := holders lists i, succs := lists[i]?.getD b.succs }

/-- The function without the predecessors of its first `n` blocks. -/
def clearPreds (f : Func) (n : Nat) : Func :=
  f.mapBlocks fun i b => if i < n then { b with preds := [] } else b

/-- **Writes the edges that the instructions give.**  A misplaced block is found before anything is
written but the predecessors of the blocks in front of it; a block without successors ends the work
after the blocks in front of it. -/
def rebuildEdges : Edit Unit := fun f =>
  match firstMisplaced? 0 f.blocks with
  | some (i, serial) => .error (.misplaced f.name i serial) (f.clearPreds i)
  | none =>
    match f.succLists f.blocks with
    | (lists, none) => .ok () (f.withEdges lists)
    | (lists, some e) => .error e (f.withEdges lists)

/-- A function from its blocks, with its edges. -/
def ofBlocks (name : String) (bs : List Block) : Except FlowError Func :=
  match rebuildEdges { name := name, body := some bs } with
  | .ok _ f => .ok f
  | .error e _ => .error e

/-! ## Checking -/

/-- The first instruction that ends a block and is not last. -/
def firstEarlyEnd? : List Insn → Option Insn
  | [] => none
  | [_] => none
  | i :: j :: is => if i.op.endsBlock then some i else firstEarlyEnd? (j :: is)

/-- Checks the block at a position. -/
def verifyBlock (f : Func) (i : Nat) (b : Block) : Except FlowError Unit := do
  if b.serial ≠ i then throw (.misplaced f.name i b.serial)
  match firstEarlyEnd? b.insns with
  | some ins => throw (.earlyEnd f.name b.serial ins.op)
  | none => pure ()
  let ss ← f.succsOf b
  if ss ≠ b.succs then throw (.wrongSuccs f.name b.serial b.succs ss)
  match b.succs.find? fun s => !(f.block? s).any fun t => b.serial ∈ t.preds with
  | some s => throw (.noPred f.name b.serial s)
  | none => pure ()
  match b.preds.find? fun p => !(f.block? p).any fun t => b.serial ∈ t.succs with
  | some p => throw (.noSucc f.name p b.serial)
  | none => pure ()

/-- Checks the blocks from a position on. -/
def verifyFrom (f : Func) : Nat → List Block → Except FlowError Unit
  | _, [] => .ok ()
  | i, b :: bs => do
    f.verifyBlock i b
    f.verifyFrom (i + 1) bs

/-- **Checks that the edges agree with the instructions and with each other.** -/
def verify (f : Func) : Except FlowError Unit := f.verifyFrom 0 f.blocks

end Func

end Deflatten

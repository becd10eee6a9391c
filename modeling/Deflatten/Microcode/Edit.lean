import Deflatten.Collections.Table
import Deflatten.Microcode.Edges

/-!
# Microcode/Edit — changes that keep edges and instructions together

Every change edits instructions or fall-throughs and then rebuilds the edges.  One that is refused
before it starts leaves the function alone; one that fails on the way leaves it half changed, and
`Func.appendBlock` alone takes its change back.
-/

namespace Deflatten

namespace Block

/-- The block with its edge to `old` moved to `new`: the fall-through of a block that only falls
through, the target of a jump, both of a conditional jump.  Nothing if there is no such edge. -/
def redirect? (b : Block) (old new : Int) : Option Block :=
  match b.terminator? with
  | none => if b.next = old then some { b with next := new } else none
  | some t =>
    if t.op = .goto then
      if t.d.block = old then some (b.mapTail fun i => i.withTarget new) else none
    else if t.op.isConditional then
      if t.d.block = old ∨ b.next = old then
        let b := if t.d.block = old then b.mapTail fun i => i.withTarget new else b
        some { b with next := if b.next = old then new else b.next }
      else none
    else none

end Block

namespace Func

/-- **Moves the edge from `src` to `old` over to `new`.** -/
def redirect (src old new : Int) : Edit Unit := do
  let f ← get
  let b ← Edit.ofExcept (f.getBlock src)
  let _ ← Edit.ofExcept (f.getBlock new)
  match b.redirect? old new with
  | none => throw (.noEdge f.name src old)
  | some b' =>
    set (f.modifyBlock src fun _ => b')
    rebuildEdges

/-- **Ends a block that only falls through in a jump.** -/
def appendGoto (serial target : Int) : Edit Unit := do
  let f ← get
  let b ← Edit.ofExcept (f.getBlock serial)
  let _ ← Edit.ofExcept (f.getBlock target)
  match b.terminator? with
  | some t => throw (.endsAlready f.name serial t.op)
  | none =>
    set (f.modifyBlock serial fun b =>
      { b.withInsns (b.insns ++ [.goto target]) with next := noBlock })
    rebuildEdges

/-- **Adds a copy of a block**, with the same edges out of it and none into it; its serial. -/
def duplicate (serial : Int) : Edit Int := do
  let f ← get
  let b ← Edit.ofExcept (f.getBlock serial)
  let fresh : Int := f.blocks.length
  set (f.withBlocks (f.blocks ++ [{ b.copy with serial := fresh }]))
  rebuildEdges
  pure fresh

/-- **Adds a block** without predecessors and without fall-through; its serial.  If the edges cannot
be rebuilt the block goes again. -/
def appendBlock (is : List Insn) : Edit Int := fun f =>
  let fresh : Int := f.blocks.length
  match rebuildEdges (f.withBlocks (f.blocks ++ [Block.ofInsns fresh is])) with
  | .ok _ f' => .ok fresh f'
  | .error e f' =>
    match rebuildEdges (f'.withBlocks f'.blocks.dropLast) with
    | .ok _ f'' => .error e f''
    | .error e' f'' => .error (.both e e') f''

/-! ## Reachable blocks -/

/-- Visits the serials on the stack, the last pushed first, and pushes their unseen successors, of
which a serial that is no block has none.  Every serial is pushed once, so the number of serials that
occur bounds the visits. -/
def visit (f : Func) : (fuel : Nat) → (stack seen : List Int) → List Int
  | 0, _, seen => seen
  | _ + 1, [], seen => seen
  | fuel + 1, s :: stack, seen =>
    let fresh := (distinct ((f.block? s).elim [] (·.succs))).filter fun t => t ∉ seen
    f.visit fuel (fresh.reverse ++ stack) (seen ++ fresh)

/-- The serials that are come to from the entry. -/
def visited (f : Func) : List Int :=
  if f.blocks.isEmpty then []
  else f.visit (1 + (f.blocks.flatMap (·.succs)).length) [0] [0]

/-- **The serials reachable from the entry.**  Each is looked up when it is visited, so all of them
have to be blocks. -/
def reachable (f : Func) : Except FlowError (List Int) :=
  (f.visited.mapM f.getBlock).map fun _ => f.visited

/-! ## Compaction -/

/-- The new serials of old ones. -/
abbrev Renumbering := Table Int Int

/-- The new serial, or the error that the block is dropped.  No block stays no block. -/
def newSerial (fn : String) (remap : Renumbering) (serial : Int) : Except FlowError Int :=
  if serial = noBlock then .ok noBlock
  else match remap.get? serial with
    | some n => .ok n
    | none => .error (.dropped fn serial)

/-- A kept block with its targets, its fall-through and its serial renumbered.  A target or
fall-through without a new serial becomes 0, and the error says so. -/
def renumberBlock (fn : String) (remap : Renumbering) (b : Block) : Block × Option FlowError :=
  let retargeted : Block × Option FlowError :=
    match b.terminator? with
    | some t =>
      if t.op.isJump then
        match newSerial fn remap t.d.block with
        | .ok n => (b.mapTail fun i => i.withTarget n, none)
        | .error e => (b.mapTail fun i => i.withTarget 0, some e)
      else (b, none)
    | none => (b, none)
  match retargeted with
  | (b, some e) => (b, some e)
  | (b, none) =>
    let leaves := b.terminator?.any fun t => t.op == .goto || t.op == .ret
    match if leaves then .ok noBlock else newSerial fn remap b.next with
    | .ok n => ({ b with next := n, serial := (remap.get? b.serial).getD 0 }, none)
    | .error e => ({ b with next := 0 }, some e)

/-- Renumbers blocks up to the first that fails, that one included. -/
def renumberBlocks (fn : String) (remap : Renumbering) : List Block → List Block × Option FlowError
  | [] => ([], none)
  | b :: bs =>
    match renumberBlock fn remap b with
    | (b', some e) => ([b'], some e)
    | (b', none) =>
      let (rest, e) := renumberBlocks fn remap bs
      (b' :: rest, e)

/-- Puts new blocks in the places of the selected ones, as far as they go. -/
def overlay (select : Block → Bool) : List Block → List Block → List Block
  | [], _ => []
  | bs, [] => bs
  | b :: bs, n :: ns =>
    if select b then n :: overlay select bs ns else b :: overlay select bs (n :: ns)

/-- **Drops the unreachable blocks and numbers the others densely, in order**; the new serials of
the old ones. -/
def compact : Edit Renumbering := fun f =>
  match f.reachable with
  | .error e => .error e f
  | .ok reach =>
    let isKept : Block → Bool := fun b => b.serial ∈ reach
    let kept := f.blocks.filter isKept
    let remap := Table.ofList (kept.zipIdx.map fun (b, i) => (b.serial, (i : Int)))
    match renumberBlocks f.name remap kept with
    | (done, some e) => .error e { f with body := f.body.map fun bs => overlay isKept bs done }
    | (done, none) =>
      match rebuildEdges (f.withBlocks done) with
      | .ok _ f' => .ok remap f'
      | .error e f' => .error e f'

/-! ## Jump threading -/

/-- Follows blocks that hold a jump and nothing else, until one does not, has been passed or is no
block. -/
def threadEnd (f : Func) : (fuel : Nat) → (seen : List Int) → Int → Int
  | 0, _, s => s
  | fuel + 1, seen, s =>
    if s ∈ seen then s
    else match (f.block? s).elim [] Block.insns with
      | [i] => if i.op = .goto then f.threadEnd fuel (s :: seen) i.d.block else s
      | _ => s

/-- **Where control that arrives at a serial first does something.** -/
def finalTarget (f : Func) (s : Int) : Int := f.threadEnd (f.blocks.length + 1) [] s

/-- A serial moved to its final target, counting the change.  Every serial on the way is looked up,
and the first that is no block would be the last. -/
def threadSerial (f : Func) (s : Int) : Except FlowError (Int × Nat) :=
  let n := f.finalTarget s
  (f.getBlock n).map fun _ => (n, if n = s then 0 else 1)

/-- The block with its edges threaded, and how many changed. -/
def threadBlock (f : Func) (b : Block) : Except FlowError (Block × Nat) :=
  match b.terminator? with
  | none =>
    if b.next = noBlock then .ok (b, 0)
    else do
      let (n, changes) ← f.threadSerial b.next
      pure ({ b with next := n }, changes)
  | some t =>
    if t.op.isJump then do
      let (target, jumps) ← f.threadSerial t.d.block
      let b' := if jumps = 0 then b else b.mapTail fun i => i.withTarget target
      if t.op.isConditional then
        let (n, falls) ← f.threadSerial b.next
        pure ({ b' with next := n }, jumps + falls)
      else pure (b', jumps)
    else .ok (b, 0)

/-- Threads the blocks at the given positions in turn, each in the function its forerunners left. -/
def threadBlocks : List Nat → Func → Except FlowError (Func × Nat)
  | [], f => .ok (f, 0)
  | i :: is, f =>
    match f.block? i with
    | none => threadBlocks is f
    | some b => do
      let (b', changes) ← f.threadBlock b
      let (f', more) ← threadBlocks is (f.modifyBlock i fun _ => b')
      pure (f', changes + more)

/-- **Moves every edge past the blocks that only jump on**; the number of edges moved. -/
def threadJumps : Edit Nat := fun f =>
  match threadBlocks (List.range f.blocks.length) f with
  | .error e => .error e f
  | .ok (f', 0) => .ok 0 f'
  | .ok (f', changes) =>
    match rebuildEdges f' with
    | .ok _ f'' => .ok changes f''
    | .error e f'' => .error e f''

end Func

end Deflatten

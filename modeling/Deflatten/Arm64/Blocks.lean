import Deflatten.Arm64.Branch
import Deflatten.Microcode.Block

/-!
# Arm64/Blocks — the basic blocks of a function

A block begins at the entry, at every branch target inside the function and after every branch.  The
blocks tile the instructions in order, and the last instruction of a block decides where control goes
from there.
-/

namespace Deflatten

/-- An instruction of a function. -/
structure Inst where
  /-- Its address. -/
  addr : UInt64
  /-- Its word. -/
  raw : Encoding
  /-- The name of its operation. -/
  mnemonic : String
  /-- What is printed for it. -/
  text : String
deriving DecidableEq, Repr, Inhabited

namespace Inst

/-- The branch an instruction is, if it is one. -/
def branch? (i : Inst) : Option Branch := Branch.decode? i.raw i.addr

end Inst

/-- **A basic block.** -/
structure BasicBlock where
  /-- Its number, counting blocks. -/
  id : Nat
  /-- The number of its first instruction. -/
  start : Nat
  /-- Its instructions. -/
  code : List Inst
  /-- The block its branch goes to, if that is inside the function. -/
  taken? : Option Nat := none
  /-- The block it falls through to. -/
  next? : Option Nat := none
deriving DecidableEq, Repr, Inhabited

namespace BasicBlock

/-- The number of the first instruction after the block. -/
def stop (b : BasicBlock) : Nat := b.start + b.code.length

/-- **The branch that ends a block.** -/
def branch? (b : BasicBlock) : Option Branch := b.code.getLast?.bind Inst.branch?

/-- The instructions before that branch. -/
def body (b : BasicBlock) : List Inst := if b.branch?.isSome then b.code.dropLast else b.code

/-- The entry of the function. -/
def isEntry (b : BasicBlock) : Bool := b.start == 0

/-- Whether the block returns, or branches out of the function for good. -/
def isTerminal (b : BasicBlock) : Bool :=
  match b.branch? with
  | some .ret => true
  | some (.always _) => b.taken?.isNone
  | _ => false

/-- **The edges out of a block**, the branch first. -/
def edges (b : BasicBlock) : List (Nat × EdgeLabel) :=
  let conditional := (b.branch?.map Branch.isConditional).getD false
  b.taken?.toList.map (·, if conditional then .taken else .always) ++
    b.next?.toList.map (·, if conditional then .fallThrough else .always)

end BasicBlock

/-- **A function**: its name and its blocks. -/
structure MachineFunc where
  /-- Its name. -/
  name : String
  /-- Its blocks in order. -/
  blocks : List BasicBlock
deriving DecidableEq, Repr, Inhabited

namespace MachineFunc

/-- The instructions of a function. -/
def insts (f : MachineFunc) : List Inst := f.blocks.flatMap BasicBlock.code

/-- The number of the last instruction at an address. -/
def indexOf? (is : List Inst) (a : UInt64) : Option Nat :=
  (is.zipIdx.findRev? fun i => i.1.addr == a).map (·.2)

/-- **The number of the instruction at an address inside the function**: between its first
instruction and the end of its last. -/
def localIndex? (is : List Inst) (a : UInt64) : Option Nat :=
  match is.head?, is.getLast? with
  | some first, some last =>
    if a < first.addr || a ≥ last.addr + 4 then none else indexOf? is a
  | _, _ => none

/-- The numbers of the instructions that branches inside the function go to. -/
def branchTargets (is : List Inst) : List Nat :=
  is.filterMap fun i => i.branch?.bind fun b => b.target?.bind (localIndex? is)

/-- The numbers of the instructions that follow a branch. -/
def afterBranches (is : List Inst) : List Nat :=
  (is.zipIdx.filter fun i => i.1.branch?.isSome).map fun i => i.2 + 1

/-- **The numbers at which blocks begin**, ascending. -/
def leaders (is : List Inst) : List Nat :=
  let marks := branchTargets is ++ afterBranches is
  (List.range is.length).filter fun i => i == 0 || marks.contains i

/-- The instructions between each leader and the next, with the numbers of the blocks. -/
def cut (is : List Inst) : (id : Nat) → List Nat → List BasicBlock
  | _, [] => []
  | id, s :: rest =>
    { id := id, start := s, code := (is.drop s).take (rest.headD is.length - s) } ::
      cut is (id + 1) rest

/-- The block that begins at an instruction. -/
def blockAt? (bs : List BasicBlock) (start : Nat) : Option Nat :=
  (bs.find? fun b => b.start == start).map BasicBlock.id

/-- A block with its targets: the branch's, if it is inside the function, and the next block, unless
control never goes on. -/
def link (is : List Inst) (bs : List BasicBlock) (b : BasicBlock) : BasicBlock :=
  let target := b.branch?.bind fun t => t.target?.bind (localIndex? is)
  { b with
    taken? := target.bind (blockAt? bs)
    next? := if (b.branch?.map Branch.isConditional).getD true then blockAt? bs b.stop else none }

/-- **Splits instructions into basic blocks.** -/
def ofInsts (name : String) (is : List Inst) : MachineFunc :=
  let bs := cut is 0 (leaders is)
  ⟨name, bs.map (link is bs)⟩

end MachineFunc

end Deflatten

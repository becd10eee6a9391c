import Deflatten.Microcode.Insn

/-!
# Microcode/Block — basic blocks

A block lists its instructions and says where control goes when no jump is taken.  Its edges,
predecessors and successors, are kept beside the instructions they follow from; `Func.rebuildEdges`
is what makes the two agree.
-/

namespace Deflatten

/-- The serial that means no block. -/
def noBlock : Int := -1

/-- **A basic block.** -/
structure Block where
  /-- Its number in the function. -/
  serial : Int := 0
  /-- Its instructions, or nothing if the list was never set. -/
  code : Option (List Insn) := none
  /-- Where control falls through to; `noBlock` if it never does. -/
  next : Int := 0
  /-- The serials of the blocks with an edge to this one. -/
  preds : List Int := []
  /-- The serials of the blocks this one has an edge to. -/
  succs : List Int := []
deriving DecidableEq, Repr, Inhabited

namespace Block

/-- **The instructions of a block.** -/
def insns (b : Block) : List Insn := b.code.getD []

/-- The block with other instructions. -/
def withInsns (b : Block) (is : List Insn) : Block := { b with code := some is }

@[simp] theorem insns_withInsns (b : Block) (is : List Insn) : (b.withInsns is).insns = is := rfl

/-- A block without fall-through or edges. -/
def ofInsns (serial : Int) (is : List Insn) : Block :=
  { serial := serial, code := if is.isEmpty then none else some is, next := noBlock }

/-- The last instruction. -/
def tail? (b : Block) : Option Insn := b.insns.getLast?

/-- **The last instruction, if it is a jump or a return.** -/
def terminator? (b : Block) : Option Insn := b.tail?.filter fun i => i.op.endsBlock

/-- The instructions before the terminator. -/
def body (b : Block) : List Insn := if b.terminator?.isSome then b.insns.dropLast else b.insns

/-- The block with its last instruction changed. -/
def mapTail (b : Block) (f : Insn → Insn) : Block :=
  match b.insns.getLast? with
  | some i => b.withInsns (b.insns.dropLast ++ [f i])
  | none => b

/-- The variables read anywhere in the block, each once. -/
def uses (b : Block) : List Var := distinct (b.insns.flatMap Insn.reads)

/-- The variables written anywhere in the block, each once. -/
def defs (b : Block) : List Var := distinct (b.insns.flatMap Insn.defs)

/-- The reads of a list of instructions that no earlier one of them wrote, `defined` being written
already. -/
def freeReads : (defined : List Var) → List Insn → List Var
  | _, [] => []
  | defined, i :: is =>
    (i.uses.filter fun v => v ∉ defined) ++ freeReads (defined ++ i.defs) is

/-- **The variables a block inherits**: read before the block writes them. -/
def free (b : Block) : List Var := distinct (freeReads [] b.insns)

/-- Whether the block writes a variable. -/
def definesVar (b : Block) (v : Var) : Bool := b.insns.any fun i => i.def? == some v

/-- The block again, without edges and with its instruction list set. -/
def copy (b : Block) : Block := { serial := b.serial, code := some b.insns, next := b.next }

@[simp] theorem insns_copy (b : Block) : b.copy.insns = b.insns := rfl

end Block

/-! ## Edges -/

/-- Under what circumstances control goes along an edge. -/
inductive EdgeLabel where
  /-- Always. -/
  | always
  /-- When a conditional jump is taken. -/
  | taken
  /-- When it is not. -/
  | fallThrough
deriving DecidableEq, Repr, Inhabited

/-- The mark of an edge. -/
def EdgeLabel.mark : EdgeLabel → String
  | always => ""
  | taken => "T"
  | fallThrough => "F"

end Deflatten

import Deflatten.Binary64.Basic
import Deflatten.Microcode.Edges

/-!
# Dispatch/Comparison — blocks that compare a variable with a constant

A dispatch chain is made of blocks that end in a conditional jump on a constant.  The share of set
bits in those constants tells made-up ones, which sit near a half, from small numbers of the program
itself.
-/

namespace Deflatten

/-- The jumps a dispatch chain is made of. -/
def Opcode.isFlatteningJump (op : Opcode) : Bool := op.isConditional

/-- **A constant and what it is compared with.** -/
structure Comparison where
  /-- The constant. -/
  const : Operand
  /-- The other side. -/
  compared : Operand
deriving DecidableEq, Repr

/-- The constant cut to its size. -/
def Comparison.value (c : Comparison) : UInt64 := truncate c.const.fields.value c.const.size

/-- Whether an operand may be compared: it names a variable or is computed. -/
def Operand.isComparable (o : Operand) : Bool := o.isVar || (o.kind == .expr && o.expr?.isSome)

/-- **The comparison a block ends in**, one side being a literal. -/
def Block.comparison? (b : Block) : Option Comparison := do
  let t ← b.tail?
  if !t.op.isFlatteningJump then none
  else if t.l.isImm && t.r.isComparable then some ⟨t.l, t.r⟩
  else if t.r.isImm && t.l.isComparable then some ⟨t.r, t.l⟩
  else none

/-! ## Entropy -/

/-- The bits set in a word. -/
def popCount (w : UInt64) : Nat := ((List.range 64).filter fun i => w.toNat.testBit i).length

/-- The signed 64-bit number that an integer wraps to. -/
def wrapInt (i : Int) : Int := i.bmod UInt64.size

/-- **The share of set bits among values of a byte size**; zero if there are no bits.  The number of
bits wraps as a 64-bit integer. -/
def entropy (values : List UInt64) (size : Int) : Binary64 :=
  let total := wrapInt (values.length * size * 8)
  if total = 0 then .zero
  else
    let ones := values.foldl (fun n v => n + popCount (truncate v size)) 0
    (Binary64.ofInt ones).divFinite (.ofInt total)

end Deflatten

import Deflatten.Arm64.Encoding
import Deflatten.Microcode.Opcode

/-!
# Arm64/Branch — instructions that leave the straight line

A branch ends a basic block.  A call comes back to the next instruction, so it does not.
-/

namespace Deflatten

/-- A condition on the flags. -/
inductive Condition where
  | eq | ne | hs | lo | mi | pl | vs | vc | hi | ls | ge | lt | gt | le
deriving DecidableEq, Repr, Inhabited

namespace Condition

/-- The conditions in the order of their numbers. -/
def all : List Condition := [eq, ne, hs, lo, mi, pl, vs, vc, hi, ls, ge, lt, gt, le]

/-- The number of a condition. -/
def code (c : Condition) : Nat := all.idxOf c

/-- The condition of a number; the last two numbers mean "always". -/
def ofCode? (n : Nat) : Option Condition := all[n]?

/-- **The jump that takes a branch when the condition holds of a comparison.**  Sign and overflow
alone have none. -/
def jump? : Condition → Option Opcode
  | eq => some .jz
  | ne => some .jnz
  | hs => some .jae
  | lo => some .jb
  | hi => some .ja
  | ls => some .jbe
  | ge => some .jge
  | lt => some .jl
  | gt => some .jg
  | le => some .jle
  | mi | pl | vs | vc => none

end Condition

/-- **An instruction that ends a basic block.** -/
inductive Branch where
  /-- Return, whatever the register. -/
  | ret
  /-- Always to a target. -/
  | always (target : UInt64)
  /-- To a target if the flags meet a condition. -/
  | onFlags (cond : Condition) (target : UInt64)
  /-- To a target if a register is zero, or if it is not. -/
  | onZero (zero : Bool) (reg : Nat) (wide : Bool) (target : UInt64)
  /-- To a target if a bit of a register is clear, or if it is set. -/
  | onBit (clear : Bool) (reg : Nat) (wide : Bool) (bit : Nat) (target : UInt64)
deriving DecidableEq, Repr

namespace Branch

/-- The branch that a word at an address encodes. -/
def decode? (w : Encoding) (pc : UInt64) : Option Branch :=
  if w.fits 0xFFFFFC1F 0xD65F0000 then some ret
  else if w.fits 0xFC000000 0x14000000 then some (always (Encoding.jumpFrom pc (w.signed 0 26)))
  else if w.fits 0xFF000010 0x54000000 then
    let target := Encoding.jumpFrom pc (w.signed 5 19)
    some (match Condition.ofCode? (w.slice 0 4) with
      | some c => onFlags c target
      | none => always target)
  else if w.fits 0x7E000000 0x34000000 then
    some (onZero (!w.bit 24) w.rd w.wide (Encoding.jumpFrom pc (w.signed 5 19)))
  else if w.fits 0x7E000000 0x36000000 then
    let bit := (if w.wide then 32 else 0) + w.slice 19 5
    some (onBit (!w.bit 24) w.rd w.wide bit (Encoding.jumpFrom pc (w.signed 5 14)))
  else none

/-- Where the branch goes when it is taken, unless it returns. -/
def target? : Branch → Option UInt64
  | ret => none
  | always t | onFlags _ t | onZero _ _ _ t | onBit _ _ _ _ t => some t

/-- Whether control may also go on with the next instruction. -/
def isConditional : Branch → Bool
  | ret | always _ => false
  | onFlags .. | onZero .. | onBit .. => true

end Branch

/-- Whether a word ends a basic block. -/
def Encoding.endsBlock (w : Encoding) : Bool := (Branch.decode? w 0).isSome

/-- **A call**: to an address, or to the one in a register. -/
inductive Call where
  /-- To an address. -/
  | direct (target : UInt64)
  /-- To the address in a register. -/
  | indirect (reg : Nat)
deriving DecidableEq, Repr

/-- The call that a word at an address encodes. -/
def Call.decode? (w : Encoding) (pc : UInt64) : Option Call :=
  if w.fits 0xFC000000 0x94000000 then some (direct (Encoding.jumpFrom pc (w.signed 0 26)))
  else if w.fits 0xFFFFFC1F 0xD63F0000 then some (indirect w.rn)
  else none

end Deflatten

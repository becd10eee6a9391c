import Deflatten.Proofs.Arm64.ConditionCodes

/-!
# Proofs/Microcode/Evaluation — evaluation is arithmetic on words

Operations and comparisons are worked out in 64 bits and cut to a size.  What comes out is what the
operation of the same name gives on words of that size (`Opcode.onWords?`, `Opcode.test`), whatever
stands in the higher bytes of the operands (`Opcode.evaluates_words`); a shift to the right alone
needs a left operand that is cut already.
-/

namespace Deflatten

variable (l r : UInt64) (size : Int)

theorem bitWidth_natCast {n : Nat} (h₁ : 1 ≤ n) (h₈ : n ≤ 8) : bitWidth n = 8 * n := by
  unfold bitWidth
  split <;> omega

/-- The word of a value is the value reduced to the width. -/
theorem ofNat_eq_word : BitVec.ofNat (bitWidth size) l.toNat = word l size := by
  apply BitVec.eq_of_toNat_eq
  rw [BitVec.toNat_ofNat, ← toNat_truncate_eq_word, toNat_truncate]

theorem truncate_eq_iff_word_eq :
    truncate l size = truncate r size ↔ word l size = word r size := by
  rw [← UInt64.toNat_inj, BitVec.toNat_eq, toNat_truncate_eq_word, toNat_truncate_eq_word]

theorem word_one : word 1 size = 1 := by
  apply BitVec.eq_of_toNat_eq
  rw [word, BitVec.toNat_setWidth]
  rfl

theorem word_flag (c : Bool) : word (Opcode.flag c) size = if c then 1 else 0 := by
  cases c with
  | true => exact word_one size
  | false => exact word_zero size

namespace Opcode

/-- **The operations on words of any width**, shifts going by so many places; nothing for an
operation that computes none from its operands. -/
def onWords? {w : Nat} (x y : BitVec w) (places : Nat) : Opcode → Option (BitVec w)
  | mov | ldx => some x
  | add => some (x + y)
  | sub => some (x - y)
  | mul => some (x * y)
  | and => some (x &&& y)
  | or => some (x ||| y)
  | xor => some (x ^^^ y)
  | shl => some (x <<< places)
  | shr => some (x >>> places)
  | bnot => some (~~~x)
  | neg => some (-x)
  | setz => some (if x = y then 1 else 0)
  | setnz => some (if x = y then 0 else 1)
  | _ => none

/-- **An operation on values is the operation on their words.** -/
theorem map_toNat_compute? (op : Opcode) (hshr : op = .shr → truncate l size = l) :
    (op.compute? l r size).map UInt64.toNat =
      (op.onWords? (word l size) (word r size) (r.toNat % 64)).map BitVec.toNat := by
  have hbeq : (truncate l size == truncate r size) = decide (word l size = word r size) := by
    rw [Bool.eq_iff_iff, beq_iff_eq, decide_eq_true_iff, truncate_eq_iff_word_eq]
  cases op with
  | shr => simp [compute?, onWords?, toNat_truncate_eq_word, word_shiftRight l r size (hshr rfl)]
  | setz => simp [compute?, onWords?, toNat_truncate_eq_word, hbeq, word_flag]
  | setnz => simp [compute?, onWords?, toNat_truncate_eq_word, bne, hbeq, word_flag]
  | _ => simp [compute?, onWords?, toNat_truncate_eq_word]

/-- **A jump is taken as the words of its values compare**, and no other operation is a test. -/
theorem test?_eq_ite (op : Opcode) : op.test? l r size =
    if op.isConditional then some (op.test (word l size) (word r size)) else none := by
  cases hop : op.isConditional with
  | true => exact test?_eq_test l r size hop
  | false => cases op <;> first | rfl | exact absurd hop (by decide)

/-- The pairs of jumps of which exactly one is taken. -/
def opposites : List (Opcode × Opcode) := [(jz, jnz), (jae, jb), (ja, jbe), (jge, jl), (jg, jle)]

theorem test_opposite {w : Nat} (x y : BitVec w) :
    ∀ p ∈ opposites, p.2.test x y = !p.1.test x y := by
  simp [opposites, test, bne, ← decide_not]

/-- **Evaluation is arithmetic on words.**  For a size of one to eight bytes and all values, an
operation gives what it gives on the words of its operands, a shift to the right if its left operand
is one already.  A jump compares these words: unsigned as naturals, signed as two's-complement
numbers.  So it sees nothing else of its operands, and of two opposite jumps exactly one is
taken. -/
theorem evaluates_words {n : Nat} (h₁ : 1 ≤ n) (h₈ : n ≤ 8) (l r : UInt64) :
    (∀ op : Opcode, (op = .shr → l.toNat < 2 ^ (8 * n)) →
      (op.compute? l r n).map UInt64.toNat =
        (op.onWords? (BitVec.ofNat (8 * n) l.toNat) (BitVec.ofNat (8 * n) r.toNat)
          (r.toNat % 64)).map BitVec.toNat) ∧
    (∀ op : Opcode, op.test? l r n =
      if op.isConditional then
        some (op.test (BitVec.ofNat (8 * n) l.toNat) (BitVec.ofNat (8 * n) r.toNat))
      else none) ∧
    (∀ (op : Opcode) (l' r' : UInt64), l'.toNat % 2 ^ (8 * n) = l.toNat % 2 ^ (8 * n) →
      r'.toNat % 2 ^ (8 * n) = r.toNat % 2 ^ (8 * n) → op.test? l' r' n = op.test? l r n) ∧
    ∀ p ∈ opposites, p.2.test? l r n = (p.1.test? l r n).map not := by
  rw [← bitWidth_natCast h₁ h₈]
  simp only [ofNat_eq_word]
  refine ⟨fun op hshr => ?_, test?_eq_ite l r n, fun op l' r' hl hr => ?_, fun p hp => ?_⟩
  · refine map_toNat_compute? l r n op fun hop => UInt64.toNat_inj.mp ?_
    rw [toNat_truncate, Nat.mod_eq_of_lt (hshr hop)]
  · have hword : ∀ {a b : UInt64}, a.toNat % 2 ^ bitWidth n = b.toNat % 2 ^ bitWidth n →
        word a n = word b n := by
      intro a b h
      rw [← truncate_eq_iff_word_eq, ← UInt64.toNat_inj, toNat_truncate, toNat_truncate, h]
    rw [test?_eq_ite, test?_eq_ite, hword hl, hword hr]
  · have hcond : p.1.isConditional = true ∧ p.2.isConditional = true := by
      revert p
      decide
    rw [test?_eq_ite, test?_eq_ite, if_pos hcond.1, if_pos hcond.2, test_opposite _ _ p hp]
    rfl

theorem evaluates_words_byte :
    (sub.compute? 0x80 0x143 1).map UInt64.toNat = some 0x3d ∧
      (shl.compute? 0x80 0x143 1).map UInt64.toNat = some 0 ∧
      (shr.compute? 0x80 0x143 1).map UInt64.toNat = some 0x10 ∧
      jb.test? 0x80 0x143 1 = some false ∧ jl.test? 0x80 0x143 1 = some true ∧
      jl.test? 0xf80 0x43 1 = some true ∧
      jl.test? 0x80 0x143 1 = (jge.test? 0x80 0x143 1).map not := by
  obtain ⟨hcompute, htest, hsees, hopposite⟩ :=
    evaluates_words (n := 1) (by decide) (by decide) 0x80 0x143
  have hless : jl.test? 0x80 0x143 1 = some true := (htest .jl).trans (by decide)
  exact ⟨(hcompute .sub (by decide)).trans (by decide),
    (hcompute .shl (by decide)).trans (by decide), (hcompute .shr (by decide)).trans (by decide),
    (htest .jb).trans (by decide), hless,
    (hsees .jl 0xf80 0x43 (by decide) (by decide)).trans hless, hopposite (.jge, .jl) (by decide)⟩

end Opcode

end Deflatten

import Deflatten.Microcode.Env
import Mathlib.Algebra.Group.Int.Defs
import Mathlib.Algebra.Group.Nat.Defs

/-!
# Proofs/Microcode/FixedWidth — values as words of their width

A value is worked on in 64 bits and then cut to its size.  The mask keeps the value modulo a power of
two (`toNat_truncate`), and shifting to the top and back reads the kept bits as a two's-complement
number (`signExtend_eq_toInt_word`).  So the low bytes are a word of their own (`word`), and cutting a
result is the same as working on the words: each operation on values is the operation of the same name
on words.  Only a shift to the right needs a value that is cut already, since it moves high bytes down.
-/

namespace Deflatten

/-! ## Masks -/

/-- The number of bits a byte size selects. -/
def bitWidth (size : Int) : Nat := if 1 ≤ size ∧ size ≤ 7 then 8 * size.toNat else 64

theorem bitWidth_pos (size : Int) : 0 < bitWidth size := by
  unfold bitWidth
  split <;> omega

theorem bitWidth_le (size : Int) : bitWidth size ≤ 64 := by
  unfold bitWidth
  split <;> omega

/-- A bit shifted up, less one, is a mask of the bits below it. -/
theorem toNat_one_shiftLeft_sub_one {n : Nat} (h : n < 64) :
    ((1 : UInt64) <<< UInt64.ofNat n - 1).toNat = 2 ^ n - 1 := by
  have hlt : 2 ^ n < 2 ^ 64 := Nat.pow_lt_pow_right (by decide) h
  have hbit : ((1 : UInt64) <<< UInt64.ofNat n).toNat = 2 ^ n := by
    rw [UInt64.toNat_shiftLeft, UInt64.toNat_ofNat', UInt64.toNat_one, Nat.one_shiftLeft,
      Nat.mod_eq_of_lt (show n < 2 ^ 64 by omega), Nat.mod_eq_of_lt h, Nat.mod_eq_of_lt hlt]
  have hle : (1 : UInt64) ≤ 1 <<< UInt64.ofNat n := by
    rw [UInt64.le_iff_toNat_le, hbit]
    exact Nat.two_pow_pos n
  rw [UInt64.toNat_sub_of_le _ _ hle, hbit, UInt64.toNat_one]

variable (x y : UInt64) (size : Int)

/-- **What is kept is the value modulo the width.** -/
theorem toNat_truncate : (truncate x size).toNat = x.toNat % 2 ^ bitWidth size := by
  unfold truncate bitWidth
  split
  · rw [if_neg (by omega), Nat.mod_eq_of_lt x.toNat_lt]
  · rw [if_pos (by omega), UInt64.toNat_and, toNat_one_shiftLeft_sub_one (by omega),
      Nat.and_two_pow_sub_one_eq_mod]

/-- Truncating twice to one width is truncating once. -/
@[simp] theorem truncate_truncate : truncate (truncate x size) size = truncate x size := by
  apply UInt64.toNat_inj.mp
  simp only [toNat_truncate, Nat.mod_mod]

/-! ## Signs -/

/-- **Shifting to the top and back carries the sign of the selected bits down.** -/
theorem toInt_sshiftRight_shiftLeft (v : BitVec 64) {s w : Nat} (h : s + w = 64) :
    ((v <<< s).sshiftRight s).toInt = (v.setWidth w).toInt := by
  have hpow : 2 ^ 64 = 2 ^ s * 2 ^ w := by rw [← Nat.pow_add, h]
  have htop : (v <<< s).toNat = 2 ^ s * (v.toNat % 2 ^ w) := by
    rw [BitVec.toNat_shiftLeft, Nat.shiftLeft_eq, hpow, Nat.mul_comm, Nat.mul_mod_mul_left]
  have hpos := Nat.two_pow_pos s
  have hcancel : ∀ i : Int, ((2 ^ s : Nat) : Int) * i / (2 ^ s : Nat) = i := fun i =>
    Int.mul_ediv_cancel_left i (by omega)
  rw [BitVec.toInt_sshiftRight, Int.shiftRight_eq_div_pow, BitVec.toInt_eq_toNat_cond, htop, hpow,
    BitVec.toInt_eq_toNat_cond, BitVec.toNat_setWidth, Nat.mul_left_comm]
  -- both sides ask for the top bit of the selected ones
  by_cases hlt : 2 * (v.toNat % 2 ^ w) < 2 ^ w
  · rw [if_pos hlt, if_pos (Nat.mul_lt_mul_of_pos_left hlt hpos), Int.natCast_mul, hcancel]
  · rw [if_neg hlt, if_neg (by rwa [Nat.mul_lt_mul_left hpos]), Int.natCast_mul, Int.natCast_mul,
      ← Int.mul_sub, hcancel]

/-- The places of a signed shift are its operand, while that is below the width of a word. -/
theorem toNat_signed_places {n : Nat} (h : n < 64) :
    ((Int64.ofNat n).toBitVec.smod 64).toNat = n :=
  (by decide +kernel : ∀ n : Fin 64, ((Int64.ofNat n).toBitVec.smod 64).toNat = n) ⟨n, h⟩

/-! ## Values and words -/

/-- The low bytes of a value as a word of their own. -/
def word (x : UInt64) (size : Int) : BitVec (bitWidth size) := x.toBitVec.setWidth _

theorem toNat_truncate_eq_word : (truncate x size).toNat = (word x size).toNat := by
  rw [toNat_truncate, word, BitVec.toNat_setWidth]
  rfl

/-- What is kept of a value is its word, with zeros in front. -/
theorem truncate_eq_ofBitVec : truncate x size = .ofBitVec ((word x size).setWidth 64) := by
  apply UInt64.toNat_inj.mp
  rw [toNat_truncate_eq_word, UInt64.toNat_ofBitVec, BitVec.toNat_setWidth_of_le (bitWidth_le size)]

/-- **The signed number of a value is that of its word.** -/
theorem signExtend_eq_toInt_word : signExtend x size = (word x size).toInt := by
  unfold word signExtend bitWidth
  split
  · rw [if_neg (by omega), BitVec.setWidth_eq]
    rfl
  · have hplaces : (64 - 8 * size.toNat) % 2 ^ 64 % (64 : BitVec 64).toNat = 64 - 8 * size.toNat := by
      rw [show (64 : BitVec 64).toNat = 64 from rfl]
      omega
    rw [if_pos (by omega), Int64.toInt, Int64.toBitVec_shiftRight, BitVec.sshiftRight_eq',
      toNat_signed_places (by omega), UInt64.toBitVec_toInt64, UInt64.toBitVec_shiftLeft,
      BitVec.shiftLeft_eq', BitVec.toNat_umod, UInt64.toNat_toBitVec, UInt64.toNat_ofNat', hplaces,
      toInt_sshiftRight_shiftLeft _ (Nat.sub_add_cancel (by omega))]

/-- Eight bytes are the whole value. -/
@[simp] theorem truncate_eight : truncate x 8 = x := rfl

@[simp] theorem word_truncate : word (truncate x size) size = word x size :=
  BitVec.eq_of_toNat_eq (by
    rw [← toNat_truncate_eq_word, truncate_truncate, toNat_truncate_eq_word])

/-! ## Operations -/

@[simp] theorem word_zero : word 0 size = 0 := BitVec.setWidth_zero ..

@[simp] theorem word_neg : word (-x) size = -word x size := by
  rw [word, UInt64.toBitVec_neg, BitVec.setWidth_neg_of_le (bitWidth_le size), word]

@[simp] theorem word_not : word (~~~x) size = ~~~word x size := by
  rw [word, UInt64.toBitVec_not, BitVec.setWidth_not (bitWidth_le size), word]

@[simp] theorem word_and : word (x &&& y) size = word x size &&& word y size := by
  rw [word, UInt64.toBitVec_and, BitVec.setWidth_and, word, word]

@[simp] theorem word_or : word (x ||| y) size = word x size ||| word y size := by
  rw [word, UInt64.toBitVec_or, BitVec.setWidth_or, word, word]

@[simp] theorem word_xor : word (x ^^^ y) size = word x size ^^^ word y size := by
  rw [word, UInt64.toBitVec_xor, BitVec.setWidth_xor, word, word]

@[simp] theorem word_add : word (x + y) size = word x size + word y size := by
  rw [word, UInt64.toBitVec_add, BitVec.setWidth_add _ _ (bitWidth_le size), word, word]

@[simp] theorem word_sub : word (x - y) size = word x size - word y size := by
  rw [UInt64.sub_eq_add_neg, word_add, word_neg, BitVec.sub_eq_add_neg]

@[simp] theorem word_mul : word (x * y) size = word x size * word y size := by
  rw [word, UInt64.toBitVec_mul, BitVec.setWidth_mul _ _ (bitWidth_le size), word, word]

/-! ## Shifts -/

/-- The places of a shift are counted modulo 64. -/
theorem toNat_places : (y &&& 63).toNat % 64 = y.toNat % 64 := by
  rw [UInt64.toNat_and, show (63 : UInt64).toNat = 2 ^ 6 - 1 from rfl, Nat.and_two_pow_sub_one_eq_mod,
    Nat.mod_mod]

@[simp] theorem word_shiftLeft :
    word (x <<< (y &&& 63)) size = word x size <<< (y.toNat % 64) := by
  have hdvd := Nat.pow_dvd_pow 2 (bitWidth_le size)
  apply BitVec.eq_of_toNat_eq
  rw [BitVec.toNat_shiftLeft, ← toNat_truncate_eq_word, ← toNat_truncate_eq_word, toNat_truncate,
    toNat_truncate, UInt64.toNat_shiftLeft, toNat_places, Nat.mod_mod_of_dvd _ hdvd, Nat.shiftLeft_eq,
    Nat.shiftLeft_eq, Nat.mod_mul_mod]

/-- A value that is cut to its size is shifted to the right as a word. -/
theorem word_shiftRight (h : truncate x size = x) :
    word (x >>> (y &&& 63)) size = word x size >>> (y.toNat % 64) := by
  have hlt : x.toNat < 2 ^ bitWidth size := by
    rw [← h, toNat_truncate]
    exact Nat.mod_lt _ (Nat.two_pow_pos _)
  apply BitVec.eq_of_toNat_eq
  rw [BitVec.toNat_ushiftRight, ← toNat_truncate_eq_word, ← toNat_truncate_eq_word, h, toNat_truncate,
    UInt64.toNat_shiftRight, toNat_places, Nat.shiftRight_eq_div_pow]
  exact Nat.mod_eq_of_lt (Nat.lt_of_le_of_lt (Nat.div_le_self _ _) hlt)

end Deflatten

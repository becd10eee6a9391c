import Mathlib.Tactic.Ring
import Deflatten.Arm64.Form

/-!
# Proofs/Arm64/Patterns — words by their fields

A class of instructions is drawn as a row of fields, some of them fixed.  `Encoding.assemble` makes the
word of such a row, and each field is found in its place again (`Encoding.shows_assemble`).

Whether a word fits a mask is told by the slices under it (`Encoding.fits_slice`), and once a word is
known to fit one mask, what it says about another is a matter of the two alone (`Encoding.fits_within`,
`Encoding.fits_apart`).
-/

namespace Deflatten.Encoding

variable {w : Encoding} {mask value m v m' v' : BitVec 32} {f : Nat × Nat} {fs hi lo : List (Nat × Nat)}

/-! ## Rows of fields -/

/-- The bits that fields take up.  A field is its number of bits and its value. -/
def fieldBits : List (Nat × Nat) → Nat
  | [] => 0
  | f :: fs => f.1 + fieldBits fs

/-- The number that fields make up, the highest first. -/
def fieldsNumber : List (Nat × Nat) → Nat
  | [] => 0
  | f :: fs => f.2 % 2 ^ f.1 * 2 ^ fieldBits fs + fieldsNumber fs

/-- **The word that fields make up**, the highest first. -/
def assemble (fs : List (Nat × Nat)) : Encoding := BitVec.ofNat 32 (fieldsNumber fs)

/-- **Each field is found in its place.** -/
def Shows (w : Encoding) : List (Nat × Nat) → Prop
  | [] => True
  | f :: fs => w.slice (fieldBits fs) f.1 = f.2 % 2 ^ f.1 ∧ w.Shows fs

theorem slice_eq (w : Encoding) (lo n : Nat) : w.slice lo n = w.toNat / 2 ^ lo % 2 ^ n := by
  rw [slice, BitVec.extractLsb'_toNat, Nat.shiftRight_eq_div_pow]

theorem fieldBits_append (hi lo : List (Nat × Nat)) :
    fieldBits (hi ++ lo) = fieldBits hi + fieldBits lo := by
  induction hi with
  | nil => exact (Nat.zero_add _).symm
  | cons f hi ih => rw [List.cons_append, fieldBits, fieldBits, ih, Nat.add_assoc]

theorem fieldsNumber_append (hi lo : List (Nat × Nat)) :
    fieldsNumber (hi ++ lo) = fieldsNumber hi * 2 ^ fieldBits lo + fieldsNumber lo := by
  induction hi with
  | nil => rw [List.nil_append, fieldsNumber, Nat.zero_mul, Nat.zero_add]
  | cons f hi ih =>
    rw [List.cons_append, fieldsNumber, fieldsNumber, ih, fieldBits_append, Nat.pow_add, Nat.add_mul,
      Nat.mul_assoc, Nat.add_assoc]

theorem fieldsNumber_lt (fs : List (Nat × Nat)) : fieldsNumber fs < 2 ^ fieldBits fs := by
  induction fs with
  | nil => decide
  | cons f fs ih =>
    have hf : f.2 % 2 ^ f.1 + 1 ≤ 2 ^ f.1 := Nat.mod_lt _ (Nat.two_pow_pos _)
    rw [fieldsNumber, fieldBits, Nat.pow_add]
    calc f.2 % 2 ^ f.1 * 2 ^ fieldBits fs + fieldsNumber fs
        < f.2 % 2 ^ f.1 * 2 ^ fieldBits fs + 2 ^ fieldBits fs := Nat.add_lt_add_left ih _
      _ = (f.2 % 2 ^ f.1 + 1) * 2 ^ fieldBits fs := (Nat.succ_mul _ _).symm
      _ ≤ 2 ^ f.1 * 2 ^ fieldBits fs := Nat.mul_le_mul_right _ hf

theorem slice_assemble (h : fieldBits (hi ++ f :: lo) ≤ 32) :
    (assemble (hi ++ f :: lo)).slice (fieldBits lo) f.1 = f.2 % 2 ^ f.1 := by
  have hlt : fieldsNumber (hi ++ f :: lo) < 2 ^ 32 :=
    Nat.lt_of_lt_of_le (fieldsNumber_lt _) (Nat.pow_le_pow_right (by decide) h)
  have hsplit : fieldsNumber (hi ++ f :: lo) =
      fieldsNumber lo + 2 ^ fieldBits lo * (f.2 % 2 ^ f.1 + 2 ^ f.1 * fieldsNumber hi) := by
    rw [fieldsNumber_append, fieldsNumber, fieldBits, Nat.pow_add]
    ring
  rw [slice_eq, assemble, BitVec.toNat_ofNat, Nat.mod_eq_of_lt hlt, hsplit,
    Nat.add_mul_div_left _ _ (Nat.two_pow_pos _), Nat.div_eq_of_lt (fieldsNumber_lt lo), Nat.zero_add,
    Nat.add_mul_mod_self_left, Nat.mod_mod]

/-- **The fields of an assembled word are found in their places.** -/
theorem shows_assemble (h : fieldBits fs ≤ 32) : (assemble fs).Shows fs := by
  have hrest : ∀ hi lo, fs = hi ++ lo → (assemble fs).Shows lo := by
    intro hi lo
    induction lo generalizing hi with
    | nil => exact fun _ => trivial
    | cons f lo ih =>
      intro heq
      refine ⟨?_, ih (hi ++ [f]) (by rw [heq, List.append_assoc]; rfl)⟩
      rw [heq] at h ⊢
      exact slice_assemble h
  exact hrest [] fs rfl

theorem slice_one (w : Encoding) (i : Nat) : w.slice i 1 = (w.bit i).toNat := by
  rw [slice_eq, bit, BitVec.getLsbD, Nat.testBit_eq_decide_div_mod_eq, Nat.pow_one]
  rcases Nat.mod_two_eq_zero_or_one (w.toNat / 2 ^ i) with h | h <;> rw [h] <;> rfl

/-- A field of one bit. -/
theorem bit_of_slice {i : Nat} {b : Bool} (h : w.slice i 1 = b.toNat % 2) : w.bit i = b := by
  rw [slice_one] at h
  cases b <;> cases hbit : w.bit i <;> rw [hbit] at h <;> first | rfl | cases h

/-- A field as a signed number. -/
theorem signed_of_slice {i n : Nat} {x : BitVec n} (h : w.slice i n = x.toNat % 2 ^ n) :
    w.signed i n = x.toInt := by
  rw [Nat.mod_eq_of_lt x.isLt] at h
  rw [signed, BitVec.eq_of_toNat_eq h]

/-! ## Masks -/

theorem fits_iff : w.fits mask value = true ↔ w &&& mask = value := by
  rw [fits, beq_iff_eq]

/-- A word fits the mask over a slice of it. -/
theorem fits_slice {lo n k : Nat} (h : w.slice lo n = k) :
    w.fits (BitVec.ofNat 32 ((2 ^ n - 1) * 2 ^ lo)) (BitVec.ofNat 32 (k * 2 ^ lo)) = true := by
  subst h
  rw [fits_iff]
  apply BitVec.eq_of_getLsbD_eq
  intro i hi
  rw [BitVec.getLsbD_and, BitVec.getLsbD_ofNat, BitVec.getLsbD_ofNat, slice_eq, Nat.testBit_mul_two_pow,
    Nat.testBit_mul_two_pow, Nat.testBit_mod_two_pow, Nat.testBit_div_two_pow,
    Nat.testBit_two_pow_sub_one]
  by_cases hlo : lo ≤ i
  · simp [hi, hlo, BitVec.getLsbD, Bool.and_comm]
  · simp [hlo]

/-- A word fits the mask over a bit of it. -/
theorem fits_bit {i : Nat} {b : Bool} (h : w.bit i = b) :
    w.fits (BitVec.ofNat 32 (2 ^ i)) (BitVec.ofNat 32 (b.toNat * 2 ^ i)) = true := by
  have hfits := fits_slice (w.slice_one i)
  rwa [h, Nat.pow_one, Nat.one_mul] at hfits

/-- A slice under a mask that is fitted. -/
theorem slice_of_fits {w mask value : Encoding} (h : w.fits mask value = true) {lo n : Nat}
    (hm : mask.extractLsb' lo n = BitVec.allOnes n) : w.slice lo n = value.slice lo n := by
  rw [fits_iff] at h
  rw [← h, slice, slice, BitVec.extractLsb'_and, hm, BitVec.and_allOnes]

/-- A word fits two masks at once. -/
theorem fits_or (h : w.fits m v = true) (h' : w.fits m' v' = true) :
    w.fits (m ||| m') (v ||| v') = true := by
  rw [fits_iff] at h h' ⊢
  rw [BitVec.and_or_distrib_left, h, h']

/-- A mask inside another that is fitted. -/
theorem fits_within (h : w.fits mask value = true) (hm : mask &&& m = m) (hv : value &&& m = v) :
    w.fits m v = true := by
  rw [fits_iff] at h ⊢
  rw [← hm, ← BitVec.and_assoc, h, hv]

/-- A mask that asks for other bits than one that is fitted. -/
theorem fits_apart (h : w.fits mask value = true) (hne : value &&& m ≠ v &&& mask) :
    w.fits m v = false := by
  rw [Bool.eq_false_iff, ne_eq, fits_iff]
  rw [fits_iff] at h
  rintro rfl
  apply hne
  rw [← h, BitVec.and_assoc, BitVec.and_assoc, BitVec.and_comm mask]

end Deflatten.Encoding

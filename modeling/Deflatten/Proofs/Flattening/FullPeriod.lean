import Deflatten.Flattening.Generator
import Mathlib.Data.Fintype.EquivFin
import Mathlib.NumberTheory.Multiplicity
import Mathlib.Tactic.LinearCombination

/-!
# Proofs/Flattening/FullPeriod — a generator draws every number

The multiplier of a step is one more than a multiple of four and the increment is odd.  So the
states come back to where they were after a multiple of `Generator.period` steps only
(`dvd_of_iterate_affine`), and a whole period meets all of them (`exists_iterate_step`).  What is
drawn permutes the high half of the state where the low half is zero (`exists_output_eq`): each
number is drawn within a period (`exists_draw_eq`).
-/

namespace Deflatten.Generator

/-! ## Affine maps -/

section Affine

/-- The map of a step, before it is reduced. -/
def affine (a c x : ℕ) : ℕ := x * a + c

variable {a c : ℕ}

/-- What iterating does is geometric around the fixed point. -/
theorem iterate_affine (a c x k : ℕ) :
    ((a : ℤ) - 1) * ((affine a c)^[k] x : ℕ) + c = (a : ℤ) ^ k * (((a : ℤ) - 1) * x + c) := by
  induction k with
  | zero => simp
  | succ k ih =>
    rw [Function.iterate_succ_apply', pow_succ, mul_right_comm, ← ih, affine]
    push_cast
    ring

/-- **An iterate meets its start modulo a power of two after multiples of that power only.** -/
theorem dvd_of_iterate_affine (ha : (4 : ℤ) ∣ a - 1) (hc : ¬ (2 : ℤ) ∣ c) (ha₁ : a ≠ 1) {m x k : ℕ}
    (h : (2 : ℤ) ^ m ∣ ((affine a c)^[k] x : ℕ) - x) : 2 ^ m ∣ k := by
  have ha₂ : (2 : ℤ) ∣ a - 1 := Dvd.dvd.trans (by decide) ha
  have hodd : ¬ (2 : ℤ) ∣ a := by omega
  have hfixed : ¬ (2 : ℤ) ∣ ((a : ℤ) - 1) * x + c := fun hd =>
    hc ((Int.dvd_add_right (ha₂.mul_right _)).mp hd)
  have hgeo : ((a : ℤ) - 1) * (((affine a c)^[k] x : ℕ) - x) =
      ((a : ℤ) ^ k - 1 ^ k) * (((a : ℤ) - 1) * x + c) := by
    rw [one_pow]
    linear_combination iterate_affine a c x k
  -- the exponents of two on both sides; that of the multiplier less one stands on both
  have hexp := congrArg (emultiplicity (2 : ℤ)) hgeo
  rw [emultiplicity_mul Int.prime_two, emultiplicity_mul Int.prime_two,
    Int.two_pow_sub_pow' k ha hodd, emultiplicity_eq_zero.mpr hfixed, add_zero] at hexp
  have hfin : FiniteMultiplicity (2 : ℤ) (a - 1) :=
    Int.finiteMultiplicity_iff.mpr ⟨by decide, by omega⟩
  have hk := ENat.add_right_injective_of_ne_top
    (finiteMultiplicity_iff_emultiplicity_ne_top.mp hfin) hexp
  have hdvd := pow_dvd_of_le_emultiplicity (hk ▸ le_emultiplicity_of_pow_dvd h)
  exact_mod_cast hdvd

end Affine

/-! ## States -/

theorem period_eq : period = 2 ^ 128 := rfl

theorem state_iterate_step (g : Generator) (k : ℕ) :
    (step^[k + 1] g).state = (affine multiplier increment)^[k + 1] g.state % 2 ^ 128 := by
  induction k with
  | zero => rfl
  | succ k ih =>
    rw [Function.iterate_succ_apply', Function.iterate_succ_apply' (affine _ _)]
    simp only [step, affine, ih]
    rw [period_eq, Nat.add_mod, Nat.mod_mul_mod, ← Nat.add_mod]

/-- The states of a period differ. -/
theorem eq_of_iterate_step {g : Generator} {i j : ℕ} (hle : i ≤ j) (hj : j < period)
    (h : (step^[i + 1] g).state = (step^[j + 1] g).state) : i = j := by
  rw [state_iterate_step, state_iterate_step] at h
  have hdvd : (2 : ℤ) ^ 128 ∣ ((affine multiplier increment)^[j - i]
      ((affine multiplier increment)^[i + 1] g.state) : ℕ) -
        ((affine multiplier increment)^[i + 1] g.state : ℕ) := by
    rw [← Function.iterate_add_apply, show j - i + (i + 1) = j + 1 by omega]
    exact_mod_cast Nat.modEq_iff_dvd.mp h
  have hmul := dvd_of_iterate_affine (by decide) (by decide) (by decide) hdvd
  have hlt : j - i < 2 ^ 128 := Nat.lt_of_le_of_lt (Nat.sub_le _ _) hj
  have := Nat.eq_zero_of_dvd_of_lt hmul hlt
  omega

/-- **A period meets every state.** -/
theorem exists_iterate_step (g : Generator) {s : ℕ} (hs : s < period) :
    ∃ k < period, (step^[k + 1] g).state = s := by
  have hlt : ∀ k, (step^[k + 1] g).state < period := fun k => by
    rw [state_iterate_step]
    exact Nat.mod_lt _ (Nat.two_pow_pos _)
  let visit : Fin period → Fin period := fun k => ⟨_, hlt k⟩
  have hinj : Function.Injective visit := by
    intro i j h
    have h : (step^[i + 1] g).state = (step^[j + 1] g).state := congrArg Fin.val h
    rcases Nat.le_total i j with hle | hle
    · exact Fin.ext (eq_of_iterate_step hle j.isLt h)
    · exact Fin.ext (eq_of_iterate_step hle i.isLt h.symm).symm
  obtain ⟨k, hk⟩ := Finite.surjective_of_injective hinj ⟨s, hs⟩
  exact ⟨k, k.isLt, congrArg Fin.val hk⟩

/-! ## Numbers -/

/-- Adding the bits of the upper part to the lower undoes itself. -/
theorem xor_shiftRight_self (x : BitVec 64) {k : ℕ} (hk : 32 ≤ k) :
    (x ^^^ x >>> k) ^^^ (x ^^^ x >>> k) >>> k = x := by
  rw [BitVec.ushiftRight_xor_distrib, ← BitVec.shiftRight_add,
    BitVec.ushiftRight_eq_zero (x := x) (n := k + k) (by omega), BitVec.xor_zero, BitVec.xor_assoc,
    BitVec.xor_self, BitVec.xor_zero]

theorem xor_shiftRight_shiftRight (x : UInt64) :
    (x ^^^ x >>> 32) ^^^ (x ^^^ x >>> 32) >>> 32 = x ∧
      (x ^^^ x >>> 48) ^^^ (x ^^^ x >>> 48) >>> 48 = x :=
  ⟨UInt64.toBitVec_inj.mp (xor_shiftRight_self x.toBitVec (k := 32) (by decide)),
    UInt64.toBitVec_inj.mp (xor_shiftRight_self x.toBitVec (k := 48) (by decide))⟩

/-- The number of a state whose low half is zero. -/
theorem output_high (hi : UInt64) : output ⟨hi.toNat * UInt64.size⟩ =
    (let x := (hi ^^^ hi >>> 32) * 0xda942042e4dd58b5; x ^^^ x >>> 48) := by
  have hdiv : hi.toNat * UInt64.size / UInt64.size = hi.toNat := Nat.mul_div_cancel _ (by decide)
  have hmod : hi.toNat * UInt64.size % UInt64.size = 0 := Nat.mul_mod_left _ _
  simp only [output, hdiv, hmod, UInt64.ofNat_toNat]
  exact UInt64.mul_one _

/-- **Every number stands for some state.** -/
theorem exists_output_eq (v : UInt64) : ∃ s < period, output ⟨s⟩ = v := by
  -- the three turns undone from the last to the first
  let z := v ^^^ v >>> 48
  let y := z * 0x8b838d0354ead59d
  let x := y ^^^ y >>> 32
  have hy : (x ^^^ x >>> 32) * 0xda942042e4dd58b5 = z := by
    rw [(xor_shiftRight_shiftRight y).1, UInt64.mul_assoc]
    exact UInt64.mul_one z
  refine ⟨x.toNat * UInt64.size, ?_, ?_⟩
  · exact Nat.mul_lt_mul_of_pos_right x.toNat_lt (by decide)
  · rw [output_high, hy]
    exact (xor_shiftRight_shiftRight v).2

/-- **Every number is drawn within a period.** -/
theorem exists_draw_eq (g : Generator) (v : UInt64) :
    ∃ k < period, (step^[k + 1] g).output = v := by
  obtain ⟨s, hs, hv⟩ := exists_output_eq v
  obtain ⟨k, hk, hstate⟩ := g.exists_iterate_step hs
  subst hstate
  exact ⟨k, hk, hv⟩

end Deflatten.Generator

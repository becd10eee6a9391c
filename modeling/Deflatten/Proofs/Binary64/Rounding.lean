import Deflatten.Binary64.Basic
import Mathlib.Data.Nat.Log
import Mathlib.Tactic.Linarith
import Mathlib.Tactic.Ring

/-!
# Proofs/Binary64/Rounding — rounding keeps order and moves a number little

Of two ratios the smaller is rounded to the smaller number (`nearestMagnitude_mono`), and an integer
is rounded to a number that differs from it by a part in `2 ^ 52` at most (`units_ofInt`).  So where the
ratio of two integers lies clear of a bound, the quotient of their roundings does not pass it
(`le_rank_divFinite`, `rank_divFinite_le`).
-/

namespace Deflatten

/-! ## Rounding a quotient -/

theorem roundHalfEven_bounds (num den : Nat) :
    num / den ≤ roundHalfEven num den ∧ roundHalfEven num den ≤ num / den + 1 := by
  unfold roundHalfEven
  dsimp only
  split
  · omega
  split
  · omega
  split <;> omega

/-- **The smaller quotient is rounded to the smaller number.** -/
theorem roundHalfEven_mono {num num' den den' : Nat} (hd : 0 < den) (hd' : 0 < den')
    (h : num * den' ≤ num' * den) : roundHalfEven num den ≤ roundHalfEven num' den' := by
  have hq : num / den ≤ num' / den' := by
    rw [Nat.le_div_iff_mul_le hd']
    have hfloor : num / den * den ≤ num := Nat.div_mul_le_self num den
    refine Nat.le_of_mul_le_mul_right ?_ hd
    calc num / den * den' * den = num / den * den * den' := Nat.mul_right_comm ..
      _ ≤ num * den' := Nat.mul_le_mul_right _ hfloor
      _ ≤ num' * den := h
  rcases Nat.lt_or_eq_of_le hq with hlt | heq
  · have := (roundHalfEven_bounds num den).2
    have := (roundHalfEven_bounds num' den').1
    omega
  · -- with one integer part the remainders decide
    have hr : num % den * den' ≤ num' % den' * den := by
      have hnum := Nat.div_add_mod num den
      have hnum' := Nat.div_add_mod num' den'
      rw [← heq] at hnum'
      rw [← hnum, ← hnum'] at h
      nlinarith
    unfold roundHalfEven
    dsimp only
    rw [← heq]
    have hgt : den < 2 * (num % den) → den' < 2 * (num' % den') := fun hlt => by nlinarith
    have hge : den ≤ 2 * (num % den) → den' ≤ 2 * (num' % den') := fun hle => by
      refine Nat.le_of_mul_le_mul_right ?_ hd
      nlinarith
    split_ifs <;> omega

namespace Binary64

/-! ## The magnitude of a ratio -/

/-- The power of two that one is, counted from the least number above zero. -/
def onePlace : Nat := 1074

/-- How many times the least number above zero one is. -/
def unitsOfOne : Nat := 2 ^ onePlace

theorem unitsOfOne_pos : 0 < unitsOfOne := Nat.two_pow_pos onePlace

theorem nearestMagnitude_eq (num den : Nat) : nearestMagnitude num den =
    min (((num * unitsOfOne / den).log2 - 52) * 2 ^ 52 +
      roundHalfEven (num * unitsOfOne) (den * 2 ^ ((num * unitsOfOne / den).log2 - 52)))
      infinity := by
  have hscale : num <<< 1074 = num * unitsOfOne := Nat.shiftLeft_eq num onePlace
  unfold nearestMagnitude
  rw [hscale]
  simp only [Nat.shiftLeft_eq]

theorem log2_mul_pow {n : Nat} (hn : 0 < n) (k : Nat) : (n * 2 ^ k).log2 = n.log2 + k := by
  have hpos := Nat.mul_pos hn (Nat.two_pow_pos k)
  rw [Nat.log2_eq_iff (by omega), Nat.pow_add, Nat.add_right_comm, Nat.pow_add _ _ k]
  exact ⟨Nat.mul_le_mul_right _ (Nat.log2_self_le (by omega)),
    Nat.mul_lt_mul_of_pos_right Nat.lt_log2_self (Nat.two_pow_pos k)⟩

/-- Fifty-three bits are kept at most… -/
theorem div_pow_lt (q : Nat) : q / 2 ^ (q.log2 - 52) < 2 ^ 53 := by
  rw [Nat.div_lt_iff_lt_mul (by positivity), ← Nat.pow_add]
  exact Nat.lt_of_lt_of_le Nat.lt_log2_self (Nat.pow_le_pow_right (by decide) (by omega))

/-- …and no fewer, if there are as many. -/
theorem le_div_pow {q : Nat} (h : 52 ≤ q.log2) : 2 ^ 52 ≤ q / 2 ^ (q.log2 - 52) := by
  have hq : q ≠ 0 := by
    rintro rfl
    simp at h
  rw [Nat.le_div_iff_mul_le (by positivity), ← Nat.pow_add, Nat.add_sub_cancel' h]
  exact Nat.log2_self_le hq

/-- **The smaller ratio has the smaller magnitude.** -/
theorem nearestMagnitude_mono {num num' den den' : Nat} (hd : 0 < den) (hd' : 0 < den')
    (h : num * den' ≤ num' * den) : nearestMagnitude num den ≤ nearestMagnitude num' den' := by
  rw [nearestMagnitude_eq, nearestMagnitude_eq]
  have hscaled : num * unitsOfOne * den' ≤ num' * unitsOfOne * den := by
    rw [Nat.mul_right_comm, Nat.mul_right_comm num']
    exact Nat.mul_le_mul_right _ h
  generalize num * unitsOfOne = a at hscaled ⊢
  generalize num' * unitsOfOne = a' at hscaled ⊢
  have hq : a / den ≤ a' / den' := by
    rw [Nat.le_div_iff_mul_le hd']
    refine Nat.le_of_mul_le_mul_right ?_ hd
    calc a / den * den' * den = a / den * den * den' := Nat.mul_right_comm ..
      _ ≤ a * den' := Nat.mul_le_mul_right _ (Nat.div_mul_le_self a den)
      _ ≤ a' * den := hscaled
  have hlog : (a / den).log2 ≤ (a' / den').log2 := by
    rw [Nat.log2_eq_log_two, Nat.log2_eq_log_two]
    exact Nat.log_mono_right hq
  refine min_le_min_right _ ?_
  have hbelow := roundHalfEven_bounds a (den * 2 ^ ((a / den).log2 - 52))
  have habove := roundHalfEven_bounds a' (den' * 2 ^ ((a' / den').log2 - 52))
  rw [← Nat.div_div_eq_div_mul] at hbelow habove
  have hlt := div_pow_lt (a / den)
  rcases Nat.lt_or_eq_of_le (Nat.sub_le_sub_right hlog 52) with hp | hp
  · -- the greater weight of the last place makes up for any digits
    have hle := le_div_pow (q := a' / den') (by omega)
    omega
  · rw [← hp]
    refine Nat.add_le_add_left (roundHalfEven_mono (by positivity) (by positivity) ?_) _
    rw [← Nat.mul_assoc, ← Nat.mul_assoc]
    exact Nat.mul_le_mul_right _ hscaled

theorem nearestMagnitude_le (num den : Nat) : nearestMagnitude num den ≤ infinity :=
  Nat.min_le_right ..

/-! ## Numbers of a magnitude -/

theorem infinity_eq : infinity = 2047 * 2 ^ 52 := rfl

theorem magnitude_signed {m : Nat} (h : m ≤ infinity) :
    (signed false m).negative = false ∧ (signed false m).magnitude = m := by
  have hm : m < 2 ^ 63 := Nat.lt_of_le_of_lt h (by decide)
  have hword : (signed false m).word = m := by
    simp only [signed, word, Bool.false_eq_true, if_false, UInt64.toNat_ofNat']
    omega
  simp only [negative, magnitude, hword, decide_eq_false_iff_not, Nat.one_shiftLeft]
  omega

/-- The multiple of the least number above zero that a number is. -/
def units (x : Binary64) : Nat := x.significand * 2 ^ x.scale

/-- A magnitude is that of so many units, whether the digits carry or not. -/
theorem units_signed {p q : Nat} (hp : p < 2045) (hq : 2 ^ 52 ≤ q) (hq' : q ≤ 2 ^ 53) :
    (signed false (p * 2 ^ 52 + q)).units = q * 2 ^ p := by
  have hm := (magnitude_signed (m := p * 2 ^ 52 + q) (by rw [infinity_eq]; omega)).2
  unfold units significand scale exponent fraction
  rw [hm, Nat.shiftRight_eq_div_pow, Nat.one_shiftLeft]
  rcases Nat.lt_or_eq_of_le hq' with hlt | rfl
  · rw [show (p * 2 ^ 52 + q) / 2 ^ 52 = p + 1 by omega,
      show (p * 2 ^ 52 + q) % 2 ^ 52 = q - 2 ^ 52 by omega, if_neg (by omega),
      Nat.add_sub_cancel' hq, Nat.add_sub_cancel]
  · rw [show (p * 2 ^ 52 + 2 ^ 53) / 2 ^ 52 = p + 2 by omega,
      show (p * 2 ^ 52 + 2 ^ 53) % 2 ^ 52 = 0 by omega, if_neg (by omega), Nat.add_zero,
      show p + 2 - 1 = p + 1 by omega, Nat.pow_succ 2 p, show 2 ^ 53 = 2 ^ 52 * 2 from rfl,
      Nat.mul_assoc, Nat.mul_comm 2]

/-- **An integer is rounded by a part in `2 ^ 52` at most.** -/
theorem units_ofInt {n : Nat} (hn : 0 < n) (hn' : n < 2 ^ 63) :
    (2 ^ 52 - 1) * (n * unitsOfOne) ≤ 2 ^ 52 * (ofInt n).units ∧
      2 ^ 52 * (ofInt n).units ≤ (2 ^ 52 + 1) * (n * unitsOfOne) := by
  have hlog : (n * unitsOfOne).log2 = n.log2 + 1074 := log2_mul_pow hn onePlace
  have hsmall : n.log2 < 63 := (Nat.log2_lt (by omega)).mpr hn'
  have hdef : ofInt n = signed false (nearestMagnitude n 1) := by
    simp only [ofInt, ofRatio, Int.natAbs_natCast]
    rw [if_neg (by omega), decide_eq_false (by omega)]
  rw [hdef, nearestMagnitude_eq, Nat.div_one, Nat.one_mul]
  generalize n * unitsOfOne = a at hlog ⊢
  have hkeep := div_pow_lt a
  have hkeep' := le_div_pow (q := a) (by omega)
  have hbounds := roundHalfEven_bounds a (2 ^ (a.log2 - 52))
  have hfloor := Nat.div_add_mod a (2 ^ (a.log2 - 52))
  have hrest := Nat.mod_lt a (Nat.two_pow_pos (a.log2 - 52))
  rw [Nat.min_eq_left (by rw [infinity_eq]; omega), units_signed (by omega) (by omega) (by omega)]
  generalize roundHalfEven a (2 ^ (a.log2 - 52)) = q at *
  generalize 2 ^ (a.log2 - 52) = place at *
  generalize a / place = kept at *
  -- the last place weighs a part in `2 ^ 52` of the whole at most
  have hweight : place * 2 ^ 52 ≤ a := by
    have := Nat.mul_le_mul_left place hkeep'
    omega
  have hlow := Nat.mul_le_mul_right place hbounds.1
  have hhigh := Nat.mul_le_mul_right place hbounds.2
  rw [Nat.mul_comm kept] at hlow
  rw [Nat.add_mul, Nat.mul_comm kept] at hhigh
  omega

/-! ## Quotients of integers -/

variable {k n c d : Nat}

theorem rank_ofRatio (c d : Nat) :
    (ofRatio false c d).rank = if c = 0 then 0 else (nearestMagnitude c d : Int) := by
  unfold ofRatio rank
  split
  · simp [magnitude_signed (Nat.zero_le infinity)]
  · simp [magnitude_signed (nearestMagnitude_le c d)]

theorem divFinite_ofInt (hk : 0 < k) (hn : 0 < n) :
    (ofInt k).divFinite (ofInt n) = ofRatio false (ofInt k).units (ofInt n).units := by
  have hpos : ∀ {i : Nat}, 0 < i → (ofInt i).negative = false := by
    intro i hi
    simp only [ofInt, ofRatio, Int.natAbs_natCast]
    rw [if_neg (by omega), decide_eq_false (by omega)]
    exact (magnitude_signed (nearestMagnitude_le ..)).1
  unfold divFinite units
  rw [hpos hk, hpos hn, Nat.shiftLeft_eq, Nat.shiftLeft_eq]
  rfl

theorem units_ofInt_pos (hn : 0 < n) (hn' : n < 2 ^ 63) : 0 < (ofInt n).units := by
  have h := (units_ofInt hn hn').1
  have hpos := Nat.mul_pos hn unitsOfOne_pos
  omega

/-- **A ratio of integers that lies clear above a bound is rounded to no less.** -/
theorem le_rank_divFinite (hk : 0 < k) (hk' : k < 2 ^ 63) (hn : 0 < n) (hn' : n < 2 ^ 63)
    (hd : 0 < d) (h : c * ((2 ^ 52 + 1) * n) ≤ (2 ^ 52 - 1) * k * d) :
    (ofRatio false c d).rank ≤ ((ofInt k).divFinite (ofInt n)).rank := by
  have hku := units_ofInt hk hk'
  have hnu := units_ofInt hn hn'
  have hkpos := units_ofInt_pos hk hk'
  have hnpos := units_ofInt_pos hn hn'
  rw [divFinite_ofInt hk hn, rank_ofRatio (ofInt k).units, if_neg (by omega),
    rank_ofRatio]
  split
  · omega
  · have hcross : c * (ofInt n).units ≤ (ofInt k).units * d := by
      generalize (ofInt k).units = x at *
      generalize (ofInt n).units = y at *
      refine Nat.le_of_mul_le_mul_left ?_ (show 0 < 2 ^ 52 by decide)
      calc 2 ^ 52 * (c * y) = c * (2 ^ 52 * y) := Nat.mul_left_comm ..
        _ ≤ c * ((2 ^ 52 + 1) * (n * unitsOfOne)) := Nat.mul_le_mul_left _ hnu.2
        _ = c * ((2 ^ 52 + 1) * n) * unitsOfOne := by ring
        _ ≤ (2 ^ 52 - 1) * k * d * unitsOfOne := Nat.mul_le_mul_right _ h
        _ = (2 ^ 52 - 1) * (k * unitsOfOne) * d := by ring
        _ ≤ 2 ^ 52 * x * d := Nat.mul_le_mul_right _ hku.1
        _ = 2 ^ 52 * (x * d) := Nat.mul_assoc ..
    exact_mod_cast nearestMagnitude_mono hd hnpos hcross

/-- **A ratio of integers that lies clear below a bound is rounded to no more.** -/
theorem rank_divFinite_le (hk : 0 < k) (hk' : k < 2 ^ 63) (hn : 0 < n) (hn' : n < 2 ^ 63)
    (hd : 0 < d) (h : (2 ^ 52 + 1) * k * d ≤ c * ((2 ^ 52 - 1) * n)) :
    ((ofInt k).divFinite (ofInt n)).rank ≤ (ofRatio false c d).rank := by
  have hku := units_ofInt hk hk'
  have hnu := units_ofInt hn hn'
  have hkpos := units_ofInt_pos hk hk'
  have hnpos := units_ofInt_pos hn hn'
  have hc : c ≠ 0 := by
    rintro rfl
    have : 0 < (2 ^ 52 + 1) * k * d := by positivity
    omega
  rw [divFinite_ofInt hk hn, rank_ofRatio, rank_ofRatio, if_neg (by omega), if_neg hc]
  have hcross : (ofInt k).units * d ≤ c * (ofInt n).units := by
    generalize (ofInt k).units = x at *
    generalize (ofInt n).units = y at *
    refine Nat.le_of_mul_le_mul_left ?_ (show 0 < 2 ^ 52 by decide)
    calc 2 ^ 52 * (x * d) = 2 ^ 52 * x * d := (Nat.mul_assoc ..).symm
      _ ≤ (2 ^ 52 + 1) * (k * unitsOfOne) * d := Nat.mul_le_mul_right _ hku.2
      _ = (2 ^ 52 + 1) * k * d * unitsOfOne := by ring
      _ ≤ c * ((2 ^ 52 - 1) * n) * unitsOfOne := Nat.mul_le_mul_right _ h
      _ = c * ((2 ^ 52 - 1) * (n * unitsOfOne)) := by ring
      _ ≤ c * (2 ^ 52 * y) := Nat.mul_le_mul_left _ hnu.1
      _ = 2 ^ 52 * (c * y) := Nat.mul_left_comm ..
  exact_mod_cast nearestMagnitude_mono hnpos hd hcross

end Binary64

end Deflatten

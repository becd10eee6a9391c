import Deflatten.Text.Digits
import Mathlib.Algebra.Group.Nat.Defs

/-!
# Proofs/Text/Numerals — numerals are read back

Reading the digits of a number gives the number, in decimal and in hexadecimal, zeros in front or
not (`readDecimal?_decimalDigits`, `readHex?_zeroPadded`).
-/

namespace Deflatten.Text

variable {base n width : Nat} {value? : Char → Option Nat}

/-! ## Reading digits -/

theorem readDigits_append (acc : Nat) (cs ds : List Char) :
    readDigits base value? acc (cs ++ ds) =
      (readDigits base value? acc cs).bind fun n => readDigits base value? n ds := by
  induction cs generalizing acc with
  | nil => rfl
  | cons c cs ih =>
    cases h : value? c with
    | none => simp [readDigits, h]
    | some d => simp [readDigits, h, ih]

/-- **The digits of a number are read as the number**, in any base whose digits are read. -/
theorem readDigits_toDigits (hb : 1 < base) (hv : ∀ d < base, value? d.digitChar = some d)
    (n : Nat) : readDigits base value? 0 (Nat.toDigits base n) = some n := by
  induction n using Nat.strongRecOn with
  | ind n ih =>
    rcases Nat.lt_or_ge n base with hlt | hge
    · simp [Nat.toDigits_of_lt_base hlt, readDigits, hv n hlt]
    · have hdiv : n / base < n := Nat.div_lt_self (by omega) hb
      rw [Nat.toDigits_of_base_le hb hge, readDigits_append, ih _ hdiv, Option.bind_some]
      simp only [readDigits, hv _ (Nat.mod_lt n (by omega)), Option.bind_some]
      rw [Nat.mul_comm, Nat.div_add_mod]

/-- Zeros in front do not count. -/
theorem readDigits_replicate (hv : value? '0' = some 0) (k : Nat) (cs : List Char) :
    readDigits base value? 0 (List.replicate k '0' ++ cs) = readDigits base value? 0 cs := by
  induction k with
  | zero => rfl
  | succ k ih => simp [List.replicate_succ, readDigits, hv, ih]

/-! ## Decimal -/

theorem decimalDigits_ne_nil (n : Nat) : decimalDigits n ≠ [] := Nat.toDigits_ne_nil

theorem isDigit_of_mem_decimalDigits {c : Char} (h : c ∈ decimalDigits n) : c.isDigit = true :=
  Nat.isDigit_of_mem_toDigits (by decide) (by decide) h

/-- **A decimal numeral is read back.** -/
@[simp] theorem readDecimal?_decimalDigits (n : Nat) : readDecimal? (decimalDigits n) = some n := by
  have hv : ∀ d < 10, decimalValue? d.digitChar = some d := by decide
  rw [readDecimal?, if_neg (by simp [decimalDigits_ne_nil])]
  exact readDigits_toDigits (by decide) hv n

/-- Only the numeral of zero starts with a zero. -/
theorem head?_decimalDigits (hn : n ≠ 0) : (decimalDigits n).head? ≠ some '0' := by
  induction n using Nat.strongRecOn with
  | ind n ih =>
    rcases Nat.lt_or_ge n 10 with hlt | hge
    · rw [decimalDigits, Nat.toDigits_of_lt_base hlt, List.head?_cons]
      exact fun h => hn (Nat.digitChar_eq_zero.mp (Option.some.inj h))
    · have hrest := ih (n / 10) (by omega) (by omega)
      obtain ⟨c, cs, hcs⟩ := List.exists_cons_of_ne_nil (decimalDigits_ne_nil (n / 10))
      rw [hcs] at hrest
      rw [decimalDigits, Nat.toDigits_of_base_le (by decide) hge, ← decimalDigits, hcs]
      exact hrest

/-! ## Hexadecimal -/

theorem length_zeroPadded_hexDigits (hw : 0 < width) (hn : n < 16 ^ width) :
    (zeroPadded width (hexDigits n)).length = width := by
  have := (Nat.length_toDigits_le_iff (b := 16) (by decide) hw).mpr hn
  rw [zeroPadded, List.length_append, List.length_replicate, hexDigits]
  omega

/-- **A hexadecimal numeral is read back**, padded or not. -/
theorem readHex?_zeroPadded (width n : Nat) :
    readHex? (zeroPadded width (hexDigits n)) = some n := by
  have hv : ∀ d < 16, hexValue? d.digitChar = some d := by decide
  rw [readHex?, if_neg (by simp [zeroPadded, hexDigits, Nat.toDigits_ne_nil]), zeroPadded,
    readDigits_replicate rfl]
  exact readDigits_toDigits (by decide) hv n

end Deflatten.Text

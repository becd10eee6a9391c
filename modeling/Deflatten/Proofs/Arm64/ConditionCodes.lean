import Deflatten.Arm64.Branch
import Deflatten.Proofs.Microcode.FixedWidth

/-!
# Proofs/Arm64/ConditionCodes — conditions on the flags as comparisons

The flags after a subtraction, an addition or a conjunction are told from borrow, carry and overflow,
and a condition is told from the flags.  The lifter keeps two words in their place: a difference is
kept as its two sides, a sum as the difference from the negated summand, a conjunction as its result
and zero.  `FlagSetter.test_eq` says what a jump that compares the two words makes of the condition.

Equality is always right.  Comparing with zero finds no borrow, whereas adding zero carries nothing out
and a conjunction clears the carry; and the least number is its own negation.  So the four conditions
that need the carry fail after every conjunction and after adding zero, and the four that need the sign
fail after adding the least number (`Condition.strays`).
-/

namespace Deflatten

/-! ## Flags -/

/-- **The flags.** -/
structure Nzcv where
  /-- The result is negative. -/
  n : Bool
  /-- The result is zero. -/
  z : Bool
  /-- A sum is carried out, or a difference does not borrow. -/
  c : Bool
  /-- The signed result is out of range. -/
  v : Bool
deriving DecidableEq, Repr

/-- **Whether a condition holds of the flags.** -/
def Condition.holds (f : Nzcv) : Condition → Bool
  | eq => f.z
  | ne => !f.z
  | hs => f.c
  | lo => !f.c
  | mi => f.n
  | pl => !f.n
  | vs => f.v
  | vc => !f.v
  | hi => f.c && !f.z
  | ls => !(f.c && !f.z)
  | ge => f.n == f.v
  | lt => f.n != f.v
  | gt => !f.z && f.n == f.v
  | le => !(!f.z && f.n == f.v)

/-- What sets the flags. -/
inductive FlagSetter where
  | difference
  | sum
  | conjunction
deriving DecidableEq, Repr

namespace FlagSetter

variable {w : Nat}

/-- **The flags that an operation sets.** -/
def nzcv (x y : BitVec w) : FlagSetter → Nzcv
  | difference =>
    { n := (x - y).msb, z := x - y == 0, c := !x.usubOverflow y, v := x.ssubOverflow y }
  | sum => { n := (x + y).msb, z := x + y == 0, c := x.uaddOverflow y, v := x.saddOverflow y }
  | conjunction => { n := (x &&& y).msb, z := x &&& y == 0, c := false, v := false }

/-- The left word of the comparison that is kept in place of the flags. -/
def left (x y : BitVec w) : FlagSetter → BitVec w
  | difference | sum => x
  | conjunction => x &&& y

/-- The right word of the comparison that is kept in place of the flags. -/
def right (y : BitVec w) : FlagSetter → BitVec w
  | difference => y
  | sum => -y
  | conjunction => 0

/-- Whether the comparison gets the carry wrong. -/
def missesCarry (y : BitVec w) : FlagSetter → Bool
  | difference => false
  | sum => y == 0
  | conjunction => true

/-- Whether the comparison gets the sign wrong. -/
def missesSign (y : BitVec w) : FlagSetter → Bool
  | sum => y == BitVec.intMin w
  | difference | conjunction => false

end FlagSetter

/-- **Whether the comparison gets a condition wrong.**  The strict conditions are right all the same where
the result is zero. -/
def Condition.strays {w : Nat} (k : FlagSetter) (x y : BitVec w) : Condition → Bool
  | hs | lo => k.missesCarry y
  | hi | ls => k.missesCarry y && !(k.nzcv x y).z
  | ge | lt => k.missesSign y
  | gt | le => k.missesSign y && !(k.nzcv x y).z
  | eq | ne | mi | pl | vs | vc => false

/-- Whether a jump is taken on two words. -/
def Opcode.test {w : Nat} (x y : BitVec w) : Opcode → Bool
  | jz => x == y
  | jnz => x != y
  | jae => y.toNat ≤ x.toNat
  | jb => x.toNat < y.toNat
  | ja => y.toNat < x.toNat
  | jbe => x.toNat ≤ y.toNat
  | jge => y.toInt ≤ x.toInt
  | jl => x.toInt < y.toInt
  | jg => y.toInt < x.toInt
  | jle => x.toInt ≤ y.toInt
  | _ => false

/-! ## Exact sums and differences -/

/-- A number less than twice out of the range from `-k` to `k` wraps round once at most. -/
theorem bmod_cases {d : Int} {k : Nat} (hlo : -(k * 2 : Int) ≤ d) (hhi : d < k * 2) :
    (-(k : Int) ≤ d ∧ d < k ∧ d.bmod (k * 2) = d) ∨ (k ≤ d ∧ d.bmod (k * 2) = d - k * 2) ∨
      (d < -(k : Int) ∧ d.bmod (k * 2) = d + k * 2) := by
  have hself : ∀ {e : Int}, -(k : Int) ≤ e → e < k → e.bmod (k * 2) = e := by
    intro e h₁ h₂
    refine Int.bmod_eq_of_le ?_ ?_ <;> push_cast <;> omega
  have hcast : (k * 2 : Int) = ((k * 2 : Nat) : Int) := by push_cast; rfl
  by_cases hup : k ≤ d
  · refine .inr (.inl ⟨hup, ?_⟩)
    have hwrap := hself (e := d - k * 2) (by omega) (by omega)
    rwa [hcast, Int.sub_bmod_right] at hwrap
  by_cases hdown : d < -(k : Int)
  · refine .inr (.inr ⟨hdown, ?_⟩)
    have hwrap := hself (e := d + k * 2) (by omega) (by omega)
    rwa [hcast, Int.add_bmod_right] at hwrap
  · exact .inl ⟨by omega, by omega, hself (by omega) (by omega)⟩

/-- **Sign and overflow tell the sign of the exact result.** -/
theorem sign_beq_overflow {d : Int} {k : Nat} (hlo : -(k * 2 : Int) ≤ d) (hhi : d < k * 2) :
    (decide (d.bmod (k * 2) < 0) == (decide (d ≥ k) || decide (d < -(k : Int)))) = decide (0 ≤ d) := by
  rcases bmod_cases hlo hhi with ⟨h₁, h₂, h⟩ | ⟨h₁, h⟩ | ⟨h₁, h⟩
  all_goals
    rw [h, Bool.eq_iff_iff, beq_iff_eq, Bool.eq_iff_iff, Bool.or_eq_true]
    simp only [decide_eq_true_eq]
    omega

section Words

variable {w : Nat} {x y : BitVec w}

theorem toInt_bounds (x : BitVec w) :
    -((2 ^ (w - 1) : Nat) : Int) ≤ x.toInt ∧ x.toInt < (2 ^ (w - 1) : Nat) := by
  push_cast
  exact ⟨x.le_toInt, BitVec.toInt_lt⟩

theorem msb_beq_ssubOverflow (hw : 0 < w) (x y : BitVec w) :
    ((x - y).msb == x.ssubOverflow y) = decide (y.toInt ≤ x.toInt) := by
  have hx := toInt_bounds x
  have hy := toInt_bounds y
  have hsign := sign_beq_overflow (d := x.toInt - y.toInt) (k := 2 ^ (w - 1)) (by omega) (by omega)
  rw [Nat.two_pow_pred_mul_two hw] at hsign
  push_cast at hsign
  rw [BitVec.msb_eq_toInt, BitVec.toInt_sub, BitVec.ssubOverflow, hsign, decide_eq_decide]
  omega

theorem msb_beq_saddOverflow (hw : 0 < w) (x y : BitVec w) :
    ((x + y).msb == x.saddOverflow y) = decide (0 ≤ x.toInt + y.toInt) := by
  have hx := toInt_bounds x
  have hy := toInt_bounds y
  have hsign := sign_beq_overflow (d := x.toInt + y.toInt) (k := 2 ^ (w - 1)) (by omega) (by omega)
  rw [Nat.two_pow_pred_mul_two hw] at hsign
  push_cast at hsign
  rw [BitVec.msb_eq_toInt, BitVec.toInt_add, BitVec.saddOverflow, hsign]

/-- A sum is carried out where the negated summand does not exceed the other, unless it is zero. -/
theorem uaddOverflow_eq_of_ne_zero (hy : y ≠ 0) :
    x.uaddOverflow y = decide ((-y).toNat ≤ x.toNat) := by
  have hpos : 0 < y.toNat := Nat.pos_of_ne_zero fun h => hy (BitVec.eq_of_toNat_eq h)
  have hlt := y.isLt
  rw [BitVec.uaddOverflow, decide_eq_decide, BitVec.toNat_neg, Nat.mod_eq_of_lt (by omega)]
  omega

/-- Nothing is carried out of a sum with zero. -/
theorem uaddOverflow_zero (x : BitVec w) : x.uaddOverflow 0 = false := by
  simp [BitVec.uaddOverflow, x.isLt]

end Words

/-! ## Flags as comparisons -/

/-- Equality and the two orders decide every jump. -/
theorem Opcode.test_of_order {w : Nat} (l r : BitVec w) :
    jnz.test l r = !jz.test l r ∧
    jb.test l r = !jae.test l r ∧ ja.test l r = (jae.test l r && !jz.test l r) ∧
    jbe.test l r = !(jae.test l r && !jz.test l r) ∧
    jl.test l r = !jge.test l r ∧ jg.test l r = (jge.test l r && !jz.test l r) ∧
    jle.test l r = !(jge.test l r && !jz.test l r) := by
  have hnat : l = r ↔ l.toNat = r.toNat := BitVec.toNat_eq
  have hint : l = r ↔ l.toInt = r.toInt := BitVec.toInt_inj.symm
  have hunsigned : jb.test l r = !jae.test l r ∧ ja.test l r = (jae.test l r && !jz.test l r) ∧
      jbe.test l r = !(jae.test l r && !jz.test l r) := by
    refine ⟨?_, ?_, ?_⟩
    all_goals
      rw [Bool.eq_iff_iff]
      simp only [test, Bool.and_eq_true, Bool.not_eq_true', Bool.and_eq_false_iff, decide_eq_true_eq,
        decide_eq_false_iff_not, beq_eq_false_iff_ne, beq_iff_eq, Bool.not_eq_false', ne_eq, hnat]
      omega
  have hsigned : jl.test l r = !jge.test l r ∧ jg.test l r = (jge.test l r && !jz.test l r) ∧
      jle.test l r = !(jge.test l r && !jz.test l r) := by
    refine ⟨?_, ?_, ?_⟩
    all_goals
      rw [Bool.eq_iff_iff]
      simp only [test, Bool.and_eq_true, Bool.not_eq_true', Bool.and_eq_false_iff, decide_eq_true_eq,
        decide_eq_false_iff_not, beq_eq_false_iff_ne, beq_iff_eq, Bool.not_eq_false', ne_eq, hint]
      omega
  exact ⟨rfl, hunsigned.1, hunsigned.2.1, hunsigned.2.2, hsigned⟩

namespace FlagSetter

variable {w : Nat} (k : FlagSetter) (x y : BitVec w)

/-- Zero is equality. -/
theorem z_nzcv : (k.nzcv x y).z = Opcode.jz.test (k.left x y) (k.right y) := by
  cases k with
  | difference =>
    change (x - y == 0) = (x == y)
    rw [Bool.eq_iff_iff, beq_iff_eq, beq_iff_eq]
    grind
  | sum =>
    change (x + y == 0) = (x == -y)
    rw [Bool.eq_iff_iff, beq_iff_eq, beq_iff_eq]
    grind
  | conjunction => rfl

/-- The carry is the unsigned order, where the comparison does not miss it. -/
theorem c_nzcv :
    (k.nzcv x y).c = (Opcode.jae.test (k.left x y) (k.right y) ^^ k.missesCarry y) := by
  cases k with
  | difference =>
    change (!decide (x.toNat < y.toNat)) = (decide (y.toNat ≤ x.toNat) ^^ false)
    rw [Bool.xor_false, ← decide_not, decide_eq_decide, Nat.not_lt]
  | sum =>
    change x.uaddOverflow y = (decide ((-y).toNat ≤ x.toNat) ^^ y == 0)
    by_cases hy : y = 0
    · subst hy
      rw [uaddOverflow_zero]
      simp
    · rw [uaddOverflow_eq_of_ne_zero hy, beq_eq_false_iff_ne.mpr hy, Bool.xor_false]
  | conjunction =>
    change false = (decide ((0 : BitVec w).toNat ≤ (x &&& y).toNat) ^^ true)
    simp

/-- Sign and overflow are the signed order, where the comparison does not miss it. -/
theorem n_beq_v_nzcv (hw : 0 < w) : ((k.nzcv x y).n == (k.nzcv x y).v) =
    (Opcode.jge.test (k.left x y) (k.right y) ^^ k.missesSign y) := by
  cases k with
  | difference => exact (msb_beq_ssubOverflow hw x y).trans (Bool.xor_false _).symm
  | sum =>
    refine (msb_beq_saddOverflow hw x y).trans ?_
    change decide (0 ≤ x.toInt + y.toInt) = (decide ((-y).toInt ≤ x.toInt) ^^ y == BitVec.intMin w)
    have hx := toInt_bounds x
    by_cases hy : y = BitVec.intMin w
    · -- the least number is its own negation, and no sum with it reaches zero
      subst hy
      rw [BitVec.neg_intMin, BitVec.toInt_intMin_of_pos hw, beq_self_eq_true, Bool.xor_true,
        Bool.eq_iff_iff, Bool.not_eq_true', decide_eq_true_eq, decide_eq_false_iff_not]
      push_cast at hx
      omega
    · rw [beq_eq_false_iff_ne.mpr hy, Bool.xor_false, decide_eq_decide,
        BitVec.toInt_neg_of_ne_intMin hy]
      omega
  | conjunction =>
    change ((x &&& y).msb == false) = (decide ((0 : BitVec w).toInt ≤ (x &&& y).toInt) ^^ false)
    rw [BitVec.msb_eq_toInt, Bool.xor_false, Bool.eq_iff_iff, beq_iff_eq, decide_eq_false_iff_not,
      decide_eq_true_eq, show (0 : BitVec w).toInt = 0 from BitVec.toInt_zero]
    omega

/-- **What a jump makes of a condition on the flags.**  It is taken when the condition holds, except
where the comparison gets the condition wrong. -/
theorem test_eq (hw : 0 < w) {cond : Condition} {op : Opcode} (h : cond.jump? = some op) :
    op.test (k.left x y) (k.right y) = (cond.holds (k.nzcv x y) ^^ cond.strays k x y) := by
  have hz := k.z_nzcv x y
  have hc := k.c_nzcv x y
  have hs := k.n_beq_v_nzcv x y hw
  obtain ⟨hjnz, hjb, hja, hjbe, hjl, hjg, hjle⟩ := Opcode.test_of_order (k.left x y) (k.right y)
  generalize hequal : Opcode.jz.test (k.left x y) (k.right y) = equal at *
  generalize habove : Opcode.jae.test (k.left x y) (k.right y) = above at *
  generalize hgreater : Opcode.jge.test (k.left x y) (k.right y) = greater at *
  cases cond with
  | mi | pl | vs | vc => cases h
  | hs | lo | hi | ls =>
    cases h
    simp only [Condition.holds, Condition.strays, hz, hc, habove, hjb, hja, hjbe]
    cases above <;> cases equal <;> cases k.missesCarry y <;> rfl
  | ge | lt | gt | le =>
    cases h
    simp only [Condition.holds, Condition.strays, bne, hz, hs, hgreater, hjl, hjg, hjle]
    cases greater <;> cases equal <;> cases k.missesSign y <;> rfl
  | eq | ne =>
    cases h
    simp only [Condition.holds, Condition.strays, hz, hequal, hjnz, Bool.xor_false]

end FlagSetter

/-! ## Jumps on values -/

/-- **A jump compares the words of its values.** -/
theorem Opcode.test?_eq_test (x y : UInt64) (size : Int) {op : Opcode}
    (h : op.isConditional = true) :
    op.test? x y size = some (op.test (word x size) (word y size)) := by
  have heq : truncate x size = truncate y size ↔ word x size = word y size := by
    rw [← UInt64.toNat_inj, BitVec.toNat_eq, toNat_truncate_eq_word, toNat_truncate_eq_word]
  have hbeq : (truncate x size == truncate y size) = (word x size == word y size) := by
    rw [Bool.eq_iff_iff, beq_iff_eq, beq_iff_eq, heq]
  cases op <;> first
    | exact absurd h (by decide)
    | simp only [test?, test, bne, hbeq, UInt64.le_iff_toNat_le, UInt64.lt_iff_toNat_lt,
        toNat_truncate_eq_word, signExtend_eq_toInt_word]

end Deflatten

import Deflatten.Proofs.Arm64.ConditionCodes
import Deflatten.Proofs.Arm64.DataProcessing

/-!
# Proofs/Arm64/FlagEncodings — instructions that set the flags, and branches on them

`FlagInst` has the encodings of the sums, differences and conjunctions that set the flags.
`FlagInst.fields` is the row of fields that encodes one, and `FlagInst.setting` says by which operation
on which two words the flags are set, from the registers at the width of the operation.  A branch on a
condition has a row of fields of its own (`Condition.branchFields`).  The decoders find in each word what
is meant (`FlagInst.decode_assemble`, `Condition.decode?_assemble`).

The constant of a conjunction is a run of ones, rotated in an element and repeated to fill a register
(`LogicImm.value`); the decoder makes it of numbers (`LogicImm.decode?_eq`).
-/

namespace Deflatten

open Encoding

/-! ## Constants of bitwise operations -/

/-- **The constant of a bitwise operation**: an element with a run of ones, repeated. -/
structure LogicImm (wide : Bool) where
  /-- An element has two to that many bits. -/
  log : Fin 7
  /-- The ones of an element are one more, and they do not fill it. -/
  last : Fin (2 ^ log.val - 1)
  /-- The places by which they are rotated to the right. -/
  places : BitVec 6
  /-- An element fits into a register. -/
  log_le : 2 ^ log.val ≤ regBits wide

namespace LogicImm

variable {wide : Bool}

/-- Whether an element takes up all 64 bits. -/
def fills (b : LogicImm wide) : Bool := b.log == 6

/-- The field that tells the size of an element and its ones: as many ones as the size is halved, a zero,
and the number. -/
def imms (b : LogicImm wide) : Nat := 64 - 2 ^ (b.log.val + 1) + b.last

/-- **The value of a constant.** -/
def value (b : LogicImm wide) : BitVec (regBits wide) :=
  (((BitVec.ofNat (2 ^ b.log.val) (2 ^ (b.last.val + 1) - 1)).rotateRight b.places.toNat).replicate
    (regBits wide / 2 ^ b.log.val)).setWidth _

end LogicImm

namespace Bitmask

variable {size v r i c : Nat}

theorem shiftRight_lt (hv : v < 2 ^ size) (hr : r < size) : v >>> r < 2 ^ (size - r) := by
  rw [Nat.shiftRight_eq_div_pow, Nat.div_lt_iff_lt_mul (Nat.two_pow_pos r), ← Nat.pow_add]
  rwa [Nat.sub_add_cancel (Nat.le_of_lt hr)]

theorem rotate_lt (hv : v < 2 ^ size) (hr : r < size) : rotate size v r < 2 ^ size := by
  have hlow : v % 2 ^ r + 1 ≤ 2 ^ r := Nat.mod_lt v (Nat.two_pow_pos r)
  rw [rotate, Nat.one_shiftLeft, Nat.shiftLeft_eq]
  calc v >>> r + v % 2 ^ r * 2 ^ (size - r)
      < 2 ^ (size - r) + v % 2 ^ r * 2 ^ (size - r) := Nat.add_lt_add_right (shiftRight_lt hv hr) _
    _ = (v % 2 ^ r + 1) * 2 ^ (size - r) := by rw [Nat.succ_mul, Nat.add_comm]
    _ ≤ 2 ^ r * 2 ^ (size - r) := Nat.mul_le_mul_right _ hlow
    _ = 2 ^ size := by rw [← Nat.pow_add, Nat.add_sub_cancel' (Nat.le_of_lt hr)]

/-- A bit of two numbers side by side. -/
theorem testBit_add_shiftLeft {a b k : Nat} (ha : a < 2 ^ k) (i : Nat) :
    (a + b <<< k).testBit i = if i < k then a.testBit i else b.testBit (i - k) := by
  rw [Nat.shiftLeft_eq, Nat.mul_comm, Nat.add_comm, Nat.testBit_two_pow_mul_add b ha]

/-- **A rotated number is the rotated word.** -/
theorem testBit_rotate (hv : v < 2 ^ size) (hr : r < size) (hi : i < size) :
    (rotate size v r).testBit i = ((BitVec.ofNat size v).rotateRight r).getLsbD i := by
  rw [rotate, testBit_add_shiftLeft (shiftRight_lt hv hr), Nat.one_shiftLeft, Nat.testBit_shiftRight,
    Nat.testBit_mod_two_pow, BitVec.getLsbD_rotateRight, Nat.mod_eq_of_lt hr, BitVec.getLsbD_ofNat,
    BitVec.getLsbD_ofNat]
  split
  · next hlow => simp [hlow, show r + i < size by omega]
  · next hlow =>
    simp [hlow, hi, show i - (size - r) < r by omega, show i - (size - r) < size by omega]

theorem testBit_replicate (hv : v < 2 ^ size) (c i : Nat) :
    (replicate size v c).testBit i = (decide (i < size * c) && v.testBit (i % size)) := by
  induction c generalizing i with
  | zero => simp [replicate]
  | succ c ih =>
    rw [replicate, testBit_add_shiftLeft hv, ih, Nat.mul_succ]
    split
    · next hi => simp [Nat.mod_eq_of_lt hi, show i < size * c + size by omega]
    · next hi =>
      rw [← Nat.mod_eq_sub_mod (Nat.le_of_not_lt hi)]
      simp [show i - size < size * c ↔ i < size * c + size by omega]

end Bitmask

namespace LogicImm

variable {wide : Bool} (b : LogicImm wide)

/-- The field for size and ones gives both back. -/
theorem imms_spec : Bitmask.elementLog? b.fills b.imms = some b.log.val ∧
    b.imms % 2 ^ b.log.val = b.last.val ∧ b.imms < 64 := by
  have hall : ∀ (log : Fin 7) (last : Fin (2 ^ log.val - 1)),
      Bitmask.elementLog? (log == 6) (64 - 2 ^ (log.val + 1) + last) = some log.val ∧
      (64 - 2 ^ (log.val + 1) + last.val) % 2 ^ log.val = last.val ∧
      64 - 2 ^ (log.val + 1) + last.val < 64 := by decide
  exact hall b.log b.last

/-- Elements fill a register. -/
theorem mul_div_eq : 2 ^ b.log.val * (regBits wide / 2 ^ b.log.val) = regBits wide := by
  obtain ⟨n, hn⟩ : ∃ n, regBits wide = 2 ^ n := by
    cases wide with
    | true => exact ⟨6, rfl⟩
    | false => exact ⟨5, rfl⟩
  have hle : b.log.val ≤ n := (Nat.pow_le_pow_iff_right (by decide)).mp (hn ▸ b.log_le)
  exact Nat.mul_div_cancel' (hn ▸ Nat.pow_dvd_pow 2 hle)

/-- Only in a whole register an element takes up all its bits. -/
theorem fills_and_not_wide : (b.fills && !wide) = false := by
  cases wide with
  | true => simp
  | false =>
    have hle := b.log_le
    rw [Bool.not_false, Bool.and_true, fills, beq_eq_false_iff_ne]
    intro heq
    rw [heq] at hle
    exact absurd hle (by decide)

/-- **The decoder finds the constant.** -/
theorem decode?_eq :
    Bitmask.decode? wide b.fills b.places.toNat b.imms = some (UInt64.ofNat b.value.toNat) := by
  obtain ⟨hlog, hlast, -⟩ := b.imms_spec
  have hlt : b.last.val + 1 < 2 ^ b.log.val := by omega
  have hones : 2 ^ (b.last.val + 1) - 1 < 2 ^ 2 ^ b.log.val :=
    Nat.lt_of_le_of_lt (Nat.sub_le ..) (Nat.pow_lt_pow_right (by decide) hlt)
  have hplaces : b.places.toNat % 2 ^ b.log.val < 2 ^ b.log.val := Nat.mod_lt _ (Nat.two_pow_pos _)
  simp only [Bitmask.decode?, b.fills_and_not_wide, Bool.false_eq_true, if_false, hlog,
    Option.map_some, Nat.one_shiftLeft, hlast, ite_eq_regBits]
  congr 2
  apply Nat.eq_of_testBit_eq
  intro i
  rw [Bitmask.testBit_replicate (Bitmask.rotate_lt hones hplaces), b.mul_div_eq,
    Bitmask.testBit_rotate hones hplaces (Nat.mod_lt _ (Nat.two_pow_pos _)), ← BitVec.getLsbD, value,
    BitVec.getLsbD_setWidth, BitVec.getLsbD_replicate, b.mul_div_eq, BitVec.rotateRight_mod_eq_rotateRight]
  simp

end LogicImm

/-! ## Instructions that set the flags -/

/-- A shifted register with the bits that tell the shift.  They tell one of the two shifts, or the register
is moved by no places. -/
structure ShiftedSource (wide : Bool) extends ShiftedReg wide where
  /-- The bits that tell the shift. -/
  kind : Fin 4
  /-- It is a shift to the left or to the right, if it is one. -/
  kind_eq : kind.val = right.toNat ∨ amount.val = 0

theorem ShiftedSource.kind_mod {wide : Bool} (b : ShiftedSource wide) :
    b.kind.val % 4 = b.right.toNat ∨ b.amount.val = 0 := by
  rw [Nat.mod_eq_of_lt b.kind.isLt]
  exact b.kind_eq

/-- **An operation that sets the flags**, of one width, without its destination. -/
inductive FlagOp (wide : Bool) where
  /-- A constant, moved up by twelve places or not, added to or subtracted from a register; 31 is the
  stack pointer. -/
  | addSubImm (sub up : Bool) (imm : BitVec 12) (rn : Fin 32)
  /-- A shifted register added to or subtracted from a register. -/
  | addSubReg (sub : Bool) (b : ShiftedSource wide) (rn : Fin 32)
  /-- The conjunction with a constant. -/
  | andImm (b : LogicImm wide) (rn : Fin 32)
  /-- The conjunction with a shifted register, which is inverted or not. -/
  | andReg (invert : Bool) (b : ShiftedSource wide) (rn : Fin 32)

/-- **An instruction that sets the flags.** -/
structure FlagInst where
  /-- Whether it works on whole registers, or on their lower halves. -/
  wide : Bool
  op : FlagOp wide
  /-- The destination; for 31 the result is lost. -/
  rd : Fin 32

/-- **What the flags are set by**: an operation on two words. -/
structure FlagSetting where
  setter : FlagSetter
  /-- The bits of a word. -/
  width : Nat
  x : BitVec width
  y : BitVec width
deriving DecidableEq, Repr

namespace FlagSetting

/-- The flags that are set. -/
def nzcv (f : FlagSetting) : Nzcv := f.setter.nzcv f.x f.y

/-- Whether the comparison kept in their place gets a condition wrong. -/
def strays (f : FlagSetting) (cond : Condition) : Bool := cond.strays f.setter f.x f.y

end FlagSetting

namespace FlagInst

/-- **The fields of the word.** -/
def fields (i : FlagInst) : List (Nat × Nat) :=
  let sf := (1, i.wide.toNat)
  let rd := (5, i.rd.val)
  match i.op with
  | .addSubImm sub up imm rn =>
    [sf, (1, sub.toNat), (1, 1), (6, 0b100010), (1, up.toNat), (12, imm.toNat), (5, rn), rd]
  | .addSubReg sub b rn =>
    [sf, (1, sub.toNat), (1, 1), (5, 0b01011), (2, b.kind), (1, 0), (5, b.rm), (6, b.amount), (5, rn), rd]
  | .andImm b rn =>
    [sf, (2, 0b11), (6, 0b100100), (1, b.fills.toNat), (6, b.places.toNat), (6, b.imms), (5, rn), rd]
  | .andReg invert b rn =>
    [sf, (2, 0b11), (5, 0b01010), (2, b.kind), (1, invert.toNat), (5, b.rm), (6, b.amount), (5, rn), rd]

/-- **What an instruction sets the flags by**, in a machine. -/
def setting (i : FlagInst) (m : Machine) : FlagSetting :=
  match i.op with
  | .addSubImm sub up imm rn =>
    ⟨if sub then .difference else .sum, regBits i.wide, m.stackWord i.wide rn,
      imm.setWidth _ <<< (if up then 12 else 0)⟩
  | .addSubReg sub b rn =>
    ⟨if sub then .difference else .sum, regBits i.wide, m.regWord i.wide rn, b.value m⟩
  | .andImm b rn => ⟨.conjunction, regBits i.wide, m.regWord i.wide rn, b.value⟩
  | .andReg invert b rn =>
    ⟨.conjunction, regBits i.wide, m.regWord i.wide rn, if invert then ~~~b.value m else b.value m⟩

/-- The form of an instruction. -/
def form (i : FlagInst) : Form :=
  let rd := i.rd.val
  let size := width i.wide
  match i.op with
  | .addSubImm sub up imm rn =>
    .addSubImm sub true (UInt64.ofNat (imm.toNat * if up then 4096 else 1)) rn rd size
  | .addSubReg sub b rn => .addSubReg sub true b.rm b.shift rn rd size
  | .andImm b rn => .logical .and true (.imm (UInt64.ofNat b.value.toNat)) rn rd size
  | .andReg invert b rn => .logical .and true (.reg b.rm b.shift invert) rn rd size

variable {i : FlagInst} {w : Encoding} {k : Decoder}

theorem fieldBits_fields (i : FlagInst) : fieldBits i.fields = 32 := by
  unfold fields
  dsimp only
  split <;> rfl

theorem decode_andImm (h : w.Shows i.fields) {b : LogicImm i.wide} {rn : Fin 32}
    (hop : i.op = .andImm b rn) (hk : k.logicalImm? = ({} : Decoder).logicalImm?) (pc : UInt64) :
    Form.decode k w pc = i.form := by
  obtain ⟨-, -, himms⟩ := b.imms_spec
  simp only [fields, hop, Shows, fieldBits, Nat.reduceAdd, Nat.reducePow,
    Nat.reduceMod] at h
  simp (disch := omega) only [Nat.mod_eq_of_lt] at h
  obtain ⟨hwide, hopc, hfixed, hfills, hplaces, himms', hn, hd, -⟩ := h
  have hvalue : k.logicalImm? w = some (UInt64.ofNat b.value.toNat) := by
    rw [hk, ← b.decode?_eq]
    simp only [Encoding.wide, hplaces, himms', bit_of_slice hwide,
      bit_of_slice hfills]
  have hfits := fits_slice hfixed
  simp (disch := decide) only [Form.decode, Call.decode?, fits_apart hfits,
    fits_within hfits, Bool.false_eq_true, ↓reduceIte]
  simp only [form, hop, Encoding.rd, Encoding.rn, Encoding.size, Encoding.wide, hd, hn, hopc, hvalue,
    bit_of_slice hwide]
  rfl

/-- **The decoder finds the form that is meant**, if it finds constants as usual. -/
theorem decode_assemble (i : FlagInst) (hk : k.logicalImm? = ({} : Decoder).logicalImm?)
    (pc : UInt64) : Form.decode k (.assemble i.fields) pc = i.form := by
  have h : (assemble i.fields).Shows i.fields :=
    shows_assemble (Nat.le_of_eq i.fieldBits_fields)
  cases hop : i.op with
  | addSubImm sub up imm rn =>
    simp only [fields, form, hop] at h ⊢
    exact Form.decode_of_shows_addSubImm true h k pc
  | addSubReg sub b rn =>
    simp only [fields, form, hop] at h ⊢
    exact Form.decode_of_shows_addSubReg true b.kind_mod h k pc
  | andImm b rn => exact decode_andImm h hop hk pc
  | andReg invert b rn =>
    simp only [fields, form, hop] at h ⊢
    exact Form.decode_of_shows_logical b.kind_mod h k pc

-- cmn x0, #0
example : assemble (fields ⟨true, .addSubImm false false 0 0, 31⟩) = 0xB100001F := by decide

-- subs w0, w1, w2, lsr #3
example : assemble (fields ⟨false, .addSubReg true ⟨⟨2, true, ⟨3, by decide⟩⟩, 1, .inl rfl⟩ 1, 0⟩) =
    0x6B420C20 := by
  decide

-- tst x0, #0xff00
example : assemble (fields ⟨true, .andImm ⟨6, ⟨7, by decide⟩, 56, by decide⟩ 0, 31⟩) =
    0xF2781C1F := by
  decide

end FlagInst

/-! ## Instructions that leave the flags alone -/

/-- **Whether a word is a sum, a difference or a conjunction that sets the flags**: with a constant, or with
a register. -/
def Encoding.setsFlags (w : Encoding) : Bool :=
  w.fits 0x3F800000 0x31000000 || w.fits 0x3F000000 0x2B000000 ||
    w.fits 0x7F800000 0x72000000 || w.fits 0x7F000000 0x6A000000

theorem Encoding.setsFlags_iff {w : Encoding} : w.setsFlags = true ↔
    w.fits 0x3F800000 0x31000000 = true ∨ w.fits 0x3F000000 0x2B000000 = true ∨
      w.fits 0x7F800000 0x72000000 = true ∨ w.fits 0x7F000000 0x6A000000 = true := by
  simp only [setsFlags, Bool.or_eq_true, or_assoc]

namespace Form

variable {w : Encoding} {k : Decoder} {pc : UInt64}

theorem setsFlags_moveWide (w : Encoding) : (moveWide w).setsFlags = false := by
  unfold moveWide
  dsimp only
  split
  case h_4 => split <;> rfl
  all_goals rfl

theorem setsFlags_bitfieldMove (w : Encoding) : (bitfieldMove w).setsFlags = false := by
  unfold bitfieldMove
  dsimp only
  repeat' split
  all_goals rfl

theorem setsFlags_address (w : Encoding) (pc : UInt64) : (address w pc).setsFlags = false := by
  unfold address
  dsimp only
  split <;> rfl

theorem setsFlags_unscaled (w : Encoding) : (unscaled w).setsFlags = false := by
  unfold unscaled
  dsimp only
  split <;> rfl

theorem setsFlags_pairOf (w : Encoding) : (pairOf w).setsFlags = false := by
  unfold pairOf
  dsimp only
  split
  case h_3 => rfl
  all_goals split <;> rfl

theorem setsFlags_ite {c : Prop} [Decidable c] {a b : Form} {p : Prop}
    (ha : c → a.setsFlags = true → p) (hb : b.setsFlags = true → p) :
    (if c then a else b).setsFlags = true → p := by
  by_cases h : c
  · rw [if_pos h]
    exact ha h
  · rw [if_neg h]
    exact hb

/-- **A form sets the flags only if the word does.** -/
theorem setsFlags_of_decode : (decode k w pc).setsFlags = true → w.setsFlags = true := by
  have hno : ∀ {f : Form}, f.setsFlags = false → f.setsFlags = true → w.setsFlags = true :=
    fun hf h => absurd h (by simp [hf])
  have hopc : ∀ {mask value : BitVec 32}, w.fits mask value = true → (w.slice 29 2 == 3) = true →
      w.fits (mask ||| 0x60000000) (value ||| 0x60000000) = true := fun hfits h =>
    fits_or hfits (fits_slice (eq_of_beq h))
  unfold decode
  cases Call.decode? w pc with
  | some c => exact hno rfl
  | none =>
    refine setsFlags_ite (fun _ => hno rfl) (setsFlags_ite (fun _ => hno (setsFlags_moveWide w))
      (setsFlags_ite ?_ (setsFlags_ite ?_ (setsFlags_ite ?_ (setsFlags_ite ?_ (setsFlags_ite
      (fun _ => hno rfl) (setsFlags_ite (fun _ => hno (setsFlags_bitfieldMove w)) (setsFlags_ite ?_
      (setsFlags_ite ?_ (setsFlags_ite (fun _ => hno (setsFlags_address w pc)) (setsFlags_ite
      (fun _ => hno rfl) (setsFlags_ite (fun _ => hno (setsFlags_unscaled w)) (setsFlags_ite
      (fun _ => hno (setsFlags_pairOf w)) (hno rfl))))))))))))))
    · intro hfits hbit
      have hboth := fits_or hfits (fits_bit (show w.bit 29 = true from hbit))
      exact setsFlags_iff.mpr (.inl hboth)
    · intro hfits
      split
      · intro hbit
        have hboth := fits_or hfits (fits_bit (show w.bit 29 = true from hbit))
        exact setsFlags_iff.mpr (.inr (.inl (fits_within hboth rfl rfl)))
      · exact hno rfl
    · intro hfits
      split
      · exact fun h => setsFlags_iff.mpr (.inr (.inr (.inl (hopc hfits h))))
      · exact hno rfl
    · intro hfits
      split
      · exact fun h => setsFlags_iff.mpr (.inr (.inr (.inr (hopc hfits h))))
      · exact hno rfl
    · intro _
      split <;> exact hno rfl
    · intro _
      split <;> exact hno rfl

end Form

/-! ## Branches on the flags -/

namespace Condition

/-- The bits that tell a condition. -/
def bits : Condition → Nat
  | eq => 0b0000
  | ne => 0b0001
  | hs => 0b0010
  | lo => 0b0011
  | mi => 0b0100
  | pl => 0b0101
  | vs => 0b0110
  | vc => 0b0111
  | hi => 0b1000
  | ls => 0b1001
  | ge => 0b1010
  | lt => 0b1011
  | gt => 0b1100
  | le => 0b1101

/-- The conditions that compare two numbers. -/
def comparing : List Condition := [eq, ne, hs, lo, hi, ls, ge, lt, gt, le]

theorem exists_jump? {c : Condition} (h : c ∈ comparing) : ∃ op, c.jump? = some op := by
  have hall : ∀ c ∈ comparing, c.jump?.isSome = true := by decide
  exact Option.isSome_iff_exists.mp (hall c h)

theorem isConditional_of_jump? {c : Condition} {op : Opcode} (h : c.jump? = some op) :
    op.isConditional = true := by
  cases c <;> cases h <;> rfl

/-- **The fields of a branch on a condition**, over a number of words. -/
def branchFields (c : Condition) (imm : BitVec 19) : List (Nat × Nat) :=
  [(8, 0b01010100), (19, imm.toNat), (1, 0), (4, c.bits)]

theorem decode?_of_shows {w : Encoding} {c : Condition} {imm : BitVec 19}
    (h : w.Shows (c.branchFields imm)) (pc : UInt64) :
    Branch.decode? w pc = some (.onFlags c (jumpFrom pc imm.toInt)) := by
  simp only [branchFields, Shows, fieldBits, Nat.reduceAdd, Nat.reducePow,
    Nat.reduceMod] at h
  obtain ⟨hclass, himm, hzero, hcond, -⟩ := h
  have hfits := fits_or (fits_slice hclass) (fits_slice hzero)
  have hcode : Condition.ofCode? (w.slice 0 4) = some c := by
    rw [hcond]
    cases c <;> rfl
  simp (disch := decide) only [Branch.decode?, fits_apart hfits, fits_within hfits,
    signed_of_slice himm, hcode, Bool.false_eq_true, ↓reduceIte]

/-- **The decoder finds the branch that is meant.** -/
theorem decode?_assemble (c : Condition) (imm : BitVec 19) (pc : UInt64) :
    Branch.decode? (.assemble (c.branchFields imm)) pc =
      some (.onFlags c (jumpFrom pc imm.toInt)) :=
  decode?_of_shows (shows_assemble (by simp [branchFields, fieldBits])) pc

end Condition

end Deflatten

import Deflatten.Proofs.Arm64.Meaning
import Deflatten.Proofs.Arm64.Patterns
import Deflatten.Proofs.Microcode.FixedWidth

/-!
# Proofs/Arm64/DataEncodings — data-processing instructions by their definition

`DataInst` has the valid encodings of the moves, sums, bitwise operations, products and shifts that work on
whole registers and leave the flags alone.  `DataInst.fields` is the row of fields that encodes one, and
`DataInst.result` is what it computes, from the registers at the width of the operation.  The decoder finds
in each word the form that is meant (`DataInst.decode_assemble`).
-/

namespace Deflatten

open Encoding

/-! ## Instructions -/

/-- The bits of a register, or of its lower half. -/
abbrev regBits (wide : Bool) : Nat := bitWidth (width wide)

theorem regBits_le (wide : Bool) : regBits wide ≤ 64 := bitWidth_le _

theorem ite_eq_regBits (wide : Bool) : (if wide then 64 else 32) = regBits wide := by
  cases wide <;> rfl

/-- What becomes of a register that a sixteen-bit constant is moved to. -/
inductive MoveKind where
  /-- The constant, every bit inverted. -/
  | negated
  /-- The constant, with zeros around. -/
  | zeroed
  /-- The constant, with the register around. -/
  | kept
deriving DecidableEq, Repr

/-- The bits that tell a move. -/
def MoveKind.code : MoveKind → Nat
  | negated => 0b00
  | zeroed => 0b10
  | kept => 0b11

/-- A bitwise operation. -/
inductive LogicKind where
  | and | or | xor
deriving DecidableEq, Repr

/-- The bits that tell a bitwise operation. -/
def LogicKind.code : LogicKind → Nat
  | and => 0b00
  | or => 0b01
  | xor => 0b10

/-- The operation on words. -/
def LogicKind.apply {n : Nat} (k : LogicKind) (x y : BitVec n) : BitVec n :=
  match k with
  | and => x &&& y
  | or => x ||| y
  | xor => x ^^^ y

/-- A register, shifted to the left, or to the right with zeros coming in. -/
structure ShiftedReg (wide : Bool) where
  /-- The register; 31 is zero. -/
  rm : Fin 32
  /-- Whether it is shifted to the right. -/
  right : Bool
  /-- The places. -/
  amount : Fin (regBits wide)

/-- **A data-processing operation** of one width, without its destination. -/
inductive DataOp (wide : Bool) where
  /-- A sixteen-bit constant at a multiple of sixteen places. -/
  | moveWide (kind : MoveKind) (place : Fin (regBits wide / 16)) (imm : BitVec 16)
  /-- A constant, moved up by twelve places or not, added to or subtracted from a register; 31 is the
  stack pointer. -/
  | addSubImm (sub up : Bool) (imm : BitVec 12) (rn : Fin 32)
  /-- A shifted register added to or subtracted from a register. -/
  | addSubReg (sub : Bool) (b : ShiftedReg wide) (rn : Fin 32)
  /-- A bitwise operation with a shifted register, which is inverted or not. -/
  | logical (kind : LogicKind) (invert : Bool) (b : ShiftedReg wide) (rn : Fin 32)
  /-- A product added to or subtracted from a register. -/
  | multiply (sub : Bool) (rm ra rn : Fin 32)
  /-- A field of bits that goes up to the top, that is moved up to the top, or that is at the bottom. -/
  | bitfield (immr imms : Fin (regBits wide)) (rn : Fin 32)
    (h : imms.val + 1 = regBits wide ∨ imms.val + 1 = immr ∨ immr.val = 0)
  /-- A shift by as many places as a register says. -/
  | shiftBy (right : Bool) (rm rn : Fin 32)

namespace DataOp

/-- Whether the destination 31 is the stack pointer, and not lost. -/
def writesStack {wide : Bool} : DataOp wide → Bool
  | addSubImm .. => true
  | _ => false

end DataOp

/-- **A data-processing instruction** that writes a register. -/
structure DataInst where
  /-- Whether it works on whole registers, or on their lower halves. -/
  wide : Bool
  op : DataOp wide
  rd : Fin 32
  /-- It is not the zero register. -/
  rd_ne_zero : rd = 31 → op.writesStack = true

namespace DataInst

/-! ## Encodings -/

/-- **The fields of the word.** -/
def fields (d : DataInst) : List (Nat × Nat) :=
  let sf := (1, d.wide.toNat)
  let rd := (5, d.rd.val)
  match d.op with
  | .moveWide kind place imm => [sf, (2, kind.code), (6, 0b100101), (2, place), (16, imm.toNat), rd]
  | .addSubImm sub up imm rn =>
    [sf, (1, sub.toNat), (1, 0), (6, 0b100010), (1, up.toNat), (12, imm.toNat), (5, rn), rd]
  | .addSubReg sub b rn =>
    [sf, (1, sub.toNat), (1, 0), (5, 0b01011), (2, b.right.toNat), (1, 0), (5, b.rm), (6, b.amount),
      (5, rn), rd]
  | .logical kind invert b rn =>
    [sf, (2, kind.code), (5, 0b01010), (2, b.right.toNat), (1, invert.toNat), (5, b.rm), (6, b.amount),
      (5, rn), rd]
  | .multiply sub rm ra rn =>
    [sf, (2, 0b00), (5, 0b11011), (3, 0b000), (5, rm), (1, sub.toNat), (5, ra), (5, rn), rd]
  | .bitfield immr imms rn _ =>
    [sf, (2, 0b10), (6, 0b100110), (1, d.wide.toNat), (6, immr), (6, imms), (5, rn), rd]
  | .shiftBy right rm rn =>
    [sf, (10, 0b0011010110), (5, rm), (4, 0b0010), (2, right.toNat), (5, rn), rd]

theorem fieldBits_fields (d : DataInst) : fieldBits d.fields = 32 := by
  unfold fields
  dsimp only
  split <;> rfl

end DataInst

/-! ## Results -/

namespace Machine

/-- A register at the width of an operation; register 31 is zero. -/
def regWord (m : Machine) (wide : Bool) (n : Fin 32) : BitVec (regBits wide) :=
  if n = 31 then 0 else word (m.read (.reg n)) (width wide)

/-- A register at the width of an operation; register 31 is the stack pointer. -/
def stackWord (m : Machine) (wide : Bool) (n : Fin 32) : BitVec (regBits wide) :=
  word (m.read (.reg n)) (width wide)

end Machine

/-- The value of a shifted register. -/
def ShiftedReg.value {wide : Bool} (b : ShiftedReg wide) (m : Machine) : BitVec (regBits wide) :=
  if b.right then m.regWord wide b.rm >>> b.amount.val else m.regWord wide b.rm <<< b.amount.val

/-- **The move of a field of bits.**  From bit `immr` up to bit `imms` to the bottom; or, if there is no
such field, from the bottom up to bit `imms` to as many places from the top as `immr` says. -/
def moveField {n : Nat} (x : BitVec n) (immr imms : Nat) : BitVec n :=
  if immr ≤ imms then (x.extractLsb' immr (imms - immr + 1)).setWidth n
  else (x.extractLsb' 0 (imms + 1)).setWidth n <<< (n - immr)

/-- **What an instruction computes**, at the width of the operation. -/
def DataInst.result (d : DataInst) (m : Machine) : BitVec (regBits d.wide) :=
  let reg := m.regWord d.wide
  match d.op with
  | .moveWide kind place imm =>
    let v := imm.setWidth (regBits d.wide) <<< (place.val * 16)
    match kind with
    | .negated => ~~~v
    | .zeroed => v
    | .kept => reg d.rd &&& ~~~((0xFFFF#16).setWidth _ <<< (place.val * 16)) ||| v
  | .addSubImm sub up imm rn =>
    let v := imm.setWidth (regBits d.wide) <<< (if up then 12 else 0)
    if sub then m.stackWord d.wide rn - v else m.stackWord d.wide rn + v
  | .addSubReg sub b rn => if sub then reg rn - b.value m else reg rn + b.value m
  | .logical kind invert b rn => kind.apply (reg rn) (if invert then ~~~b.value m else b.value m)
  | .multiply sub rm ra rn => if sub then reg ra - reg rn * reg rm else reg ra + reg rn * reg rm
  | .bitfield immr imms rn _ => moveField (reg rn) immr imms
  | .shiftBy right rm rn =>
    let places := (reg rm).toNat % regBits d.wide
    if right then reg rn >>> places else reg rn <<< places

/-! ## Forms -/

/-- The shift of a register as the decoder has it. -/
def ShiftedReg.shift {wide : Bool} (b : ShiftedReg wide) : Shift :=
  if b.amount.val = 0 then .none else if b.right then .right b.amount else .left b.amount

/-- The operation of the microcode. -/
def LogicKind.opcode : LogicKind → Opcode
  | and => .and
  | or => .or
  | xor => .xor

namespace DataInst

/-- **The form of an instruction.** -/
def form (d : DataInst) : Form :=
  let rd := d.rd.val
  let size := width d.wide
  match d.op with
  | .moveWide kind place imm =>
    let v := UInt64.ofNat (imm.toNat * 2 ^ (place.val * 16))
    match kind with
    | .negated => .constant (~~~v) rd size
    | .zeroed => .constant v rd size
    | .kept => .insert v (UInt64.ofNat (0xFFFF * 2 ^ (place.val * 16))) rd size
  | .addSubImm sub up imm rn =>
    .addSubImm sub false (UInt64.ofNat (imm.toNat * if up then 4096 else 1)) rn rd size
  | .addSubReg sub b rn => .addSubReg sub false b.rm b.shift rn rd size
  | .logical kind invert b rn => .logical kind.opcode false (.reg b.rm b.shift invert) rn rd size
  | .multiply sub rm ra rn => .multiply sub rm ra rn rd size
  | .bitfield immr imms rn _ =>
    if imms.val + 1 = regBits d.wide then .bitfield .shr (UInt64.ofNat immr) rn rd size
    else if imms.val + 1 = immr then
      .bitfield .shl (UInt64.ofNat (regBits d.wide - 1 - imms)) rn rd size
    else .bitfield .and (UInt64.ofNat (2 ^ (imms.val + 1) - 1)) rn rd size
  | .shiftBy right rm rn => .shiftBy (if right then .shr else .shl) rm rn rd size

end DataInst

namespace Form

variable {w : Encoding} {wide sub up invert : Bool} {imm : BitVec 12} {b : ShiftedReg wide}
  {kind opc : Nat} {rn rd : Fin 32}

/-- By no places, all shifts are one. -/
theorem shift?_of_slice (hamount : w.slice 10 6 = b.amount)
    (hkind : w.slice 22 2 = b.right.toNat ∨ b.amount.val = 0) : shift? w = some b.shift := by
  unfold shift? ShiftedReg.shift
  rw [hamount]
  by_cases hzero : b.amount.val = 0
  · rw [hzero]
    rfl
  · rw [hkind.resolve_right hzero]
    cases b.right <;> simp [hzero]

/-- Sums and differences with a constant, whether they set the flags or not. -/
theorem decode_of_shows_addSubImm (flags : Bool)
    (h : w.Shows [(1, wide.toNat), (1, sub.toNat), (1, flags.toNat), (6, 0b100010), (1, up.toNat),
      (12, imm.toNat), (5, rn), (5, rd)]) (k : Decoder) (pc : UInt64) :
    decode k w pc = addSubImm sub flags (UInt64.ofNat (imm.toNat * if up then 4096 else 1)) rn rd
      (width wide) := by
  simp only [Shows, fieldBits, Nat.reduceAdd, Nat.reducePow, Nat.reduceMod] at h
  simp (disch := omega) only [Nat.mod_eq_of_lt] at h
  obtain ⟨hwide, hsub, hflags, hfixed, hup, himm, hn, hd, -⟩ := h
  have hfits := fits_slice hfixed
  simp (disch := decide) only [decode, Call.decode?, fits_apart hfits,
    fits_within hfits, Bool.false_eq_true, ↓reduceIte]
  simp only [Encoding.rd, Encoding.rn, Encoding.size, Encoding.wide, himm, hd, hn,
    bit_of_slice hwide, bit_of_slice hsub, bit_of_slice hflags,
    bit_of_slice hup]

/-- Sums and differences with a register, whether they set the flags or not. -/
theorem decode_of_shows_addSubReg (flags : Bool)
    (hkind : kind % 4 = b.right.toNat ∨ b.amount.val = 0)
    (h : w.Shows [(1, wide.toNat), (1, sub.toNat), (1, flags.toNat), (5, 0b01011), (2, kind), (1, 0),
      (5, b.rm), (6, b.amount), (5, rn), (5, rd)]) (k : Decoder) (pc : UInt64) :
    decode k w pc = addSubReg sub flags b.rm b.shift rn rd (width wide) := by
  have hbits := regBits_le wide
  simp only [Shows, fieldBits, Nat.reduceAdd, Nat.reducePow, Nat.reduceMod] at h
  simp (disch := omega) only [Nat.mod_eq_of_lt] at h
  obtain ⟨hwide, hsub, hflags, hfixed, hkind', hfixed', hm, hamount, hn, hd, -⟩ := h
  have hfits := fits_or (fits_slice hfixed) (fits_slice hfixed')
  simp (disch := decide) only [decode, Call.decode?, fits_apart hfits,
    fits_within hfits, Bool.false_eq_true, ↓reduceIte]
  simp only [Encoding.rd, Encoding.rn, Encoding.rm, Encoding.size, Encoding.wide, hd, hn, hm,
    shift?_of_slice hamount (hkind' ▸ hkind), bit_of_slice hwide, bit_of_slice hsub,
    bit_of_slice hflags]

/-- Bitwise operations with a register, whether they set the flags or not. -/
theorem decode_of_shows_logical (hkind : kind % 4 = b.right.toNat ∨ b.amount.val = 0)
    (h : w.Shows [(1, wide.toNat), (2, opc), (5, 0b01010), (2, kind), (1, invert.toNat), (5, b.rm),
      (6, b.amount), (5, rn), (5, rd)]) (k : Decoder) (pc : UInt64) :
    decode k w pc = logical (logicOp (opc % 4)) (opc % 4 == 3) (.reg b.rm b.shift invert) rn rd
      (width wide) := by
  have hbits := regBits_le wide
  simp only [Shows, fieldBits, Nat.reduceAdd, Nat.reducePow, Nat.reduceMod] at h
  simp (disch := omega) only [Nat.mod_eq_of_lt] at h
  obtain ⟨hwide, hopc, hfixed, hkind', hinvert, hm, hamount, hn, hd, -⟩ := h
  have hfits := fits_slice hfixed
  simp (disch := decide) only [decode, Call.decode?, fits_apart hfits,
    fits_within hfits, Bool.false_eq_true, ↓reduceIte]
  simp only [Encoding.rd, Encoding.rn, Encoding.rm, Encoding.size, Encoding.wide, hd, hn, hm, hopc,
    shift?_of_slice hamount (hkind' ▸ hkind), bit_of_slice hwide,
    bit_of_slice hinvert]

end Form

namespace DataInst

variable {w : Encoding} {d : DataInst}

theorem rd_ne (h : d.op.writesStack = false) : d.rd.val ≠ 31 := fun heq =>
  absurd (d.rd_ne_zero (Fin.ext heq)) (by simp [h])

theorem wide_of_shows (h : w.Shows d.fields) : w.wide = d.wide := by
  unfold fields at h
  dsimp only at h
  split at h <;> exact bit_of_slice h.1

section Decoding

variable (h : w.Shows d.fields) (k : Decoder) (pc : UInt64)
include h

theorem decode_moveWide {kind : MoveKind} {place : Fin (regBits d.wide / 16)} {imm : BitVec 16}
    (hop : d.op = .moveWide kind place imm) : Form.decode k w pc = d.form := by
  have hwide := wide_of_shows h
  have hbits := regBits_le d.wide
  simp only [fields, hop, Shows, fieldBits, Nat.reduceAdd, Nat.reducePow,
    Nat.reduceMod] at h
  simp (disch := omega) only [Nat.mod_eq_of_lt] at h
  obtain ⟨-, hkind, hfixed, hplace, himm, hd, -⟩ := h
  have hfits := fits_slice hfixed
  simp (disch := decide) only [Form.decode, Call.decode?, fits_apart hfits,
    fits_within hfits, Bool.false_eq_true, ↓reduceIte]
  simp only [form, hop, Form.moveWide, Encoding.rd, Encoding.size, hwide, hplace, himm, hd, hkind,
    Nat.shiftLeft_eq]
  cases kind <;> rfl

theorem decode_multiply {sub : Bool} {rm ra rn : Fin 32} (hop : d.op = .multiply sub rm ra rn) :
    Form.decode k w pc = d.form := by
  have hwide := wide_of_shows h
  simp only [fields, hop, Shows, fieldBits, Nat.reduceAdd, Nat.reducePow,
    Nat.reduceMod] at h
  simp (disch := omega) only [Nat.mod_eq_of_lt] at h
  obtain ⟨-, hfixed, hfixed', hfixed'', hm, hsub, ha, hn, hd, -⟩ := h
  have hfits := fits_or (fits_or (fits_slice hfixed)
    (fits_slice hfixed')) (fits_slice hfixed'')
  simp (disch := decide) only [Form.decode, Call.decode?, fits_apart hfits,
    fits_within hfits, Bool.false_eq_true, ↓reduceIte]
  simp only [form, hop, Encoding.rd, Encoding.rn, Encoding.rm, Encoding.ra, Encoding.size, hwide, hd, hn,
    hm, ha, bit_of_slice hsub]

theorem decode_bitfield {immr imms : Fin (regBits d.wide)} {rn : Fin 32} {hfield}
    (hop : d.op = .bitfield immr imms rn hfield) : Form.decode k w pc = d.form := by
  have hwide := wide_of_shows h
  have hbits := regBits_le d.wide
  simp only [fields, hop, Shows, fieldBits, Nat.reduceAdd, Nat.reducePow,
    Nat.reduceMod] at h
  simp (disch := omega) only [Nat.mod_eq_of_lt] at h
  obtain ⟨-, hfixed, hfixed', -, himmr, himms, hn, hd, -⟩ := h
  have hfits := fits_or (fits_slice hfixed) (fits_slice hfixed')
  simp (disch := decide) only [Form.decode, Call.decode?, fits_apart hfits,
    fits_within hfits, Bool.false_eq_true, ↓reduceIte]
  have hne : d.rd.val ≠ 31 := d.rd_ne (by rw [hop]; rfl)
  have hplaces : (BitVec.ofInt 32 ((regBits d.wide : Int) - 1 - (imms.val : Int))).toNat =
      regBits d.wide - 1 - imms := by
    rw [show (regBits d.wide : Int) - 1 - (imms.val : Int) = (regBits d.wide - 1 - imms.val : Nat) by omega,
      BitVec.ofInt_natCast, BitVec.toNat_ofNat]
    exact Nat.mod_eq_of_lt (by omega)
  simp only [form, hop, Form.bitfieldMove, Encoding.rd, Encoding.rn, Encoding.size, hwide, hd, hn, himmr,
    himms, if_neg hne, ite_eq_regBits, hplaces, Nat.one_shiftLeft]
  split
  · rfl
  split
  · rfl
  · rw [if_pos (by omega)]

theorem decode_shiftBy {right : Bool} {rm rn : Fin 32} (hop : d.op = .shiftBy right rm rn) :
    Form.decode k w pc = d.form := by
  have hwide := wide_of_shows h
  simp only [fields, hop, Shows, fieldBits, Nat.reduceAdd, Nat.reducePow,
    Nat.reduceMod] at h
  simp (disch := omega) only [Nat.mod_eq_of_lt] at h
  obtain ⟨-, hfixed, hm, hfixed', hright, hn, hd, -⟩ := h
  have hfits := fits_or (fits_slice hfixed) (fits_slice hfixed')
  simp (disch := decide) only [Form.decode, Call.decode?, fits_apart hfits,
    fits_within hfits, Bool.false_eq_true, ↓reduceIte]
  simp only [form, hop, Encoding.rd, Encoding.rn, Encoding.rm, Encoding.size, hwide, hd, hn, hm, hright]
  cases right <;> rfl

end Decoding

/-- **The decoder finds the form that is meant.** -/
theorem decode_assemble (d : DataInst) (k : Decoder) (pc : UInt64) :
    Form.decode k (.assemble d.fields) pc = d.form := by
  have h : (assemble d.fields).Shows d.fields :=
    shows_assemble (Nat.le_of_eq d.fieldBits_fields)
  cases hop : d.op with
  | moveWide kind place imm => exact decode_moveWide h k pc hop
  | addSubImm sub up imm rn =>
    simp only [fields, hop] at h ⊢
    rw [Form.decode_of_shows_addSubImm false h, form, hop]
  | addSubReg sub b rn =>
    simp only [fields, hop] at h ⊢
    rw [Form.decode_of_shows_addSubReg false (.inl (by cases b.right <;> rfl)) h, form, hop]
  | logical kind invert b rn =>
    simp only [fields, hop] at h ⊢
    rw [Form.decode_of_shows_logical (.inl (by cases b.right <;> rfl)) h, form, hop]
    cases kind <;> rfl
  | multiply sub rm ra rn => exact decode_multiply h k pc hop
  | bitfield immr imms rn hfield => exact decode_bitfield h k pc hop
  | shiftBy right rm rn => exact decode_shiftBy h k pc hop

-- sub sp, sp, #0x20
example : assemble (fields ⟨true, .addSubImm true false 0x20 31, 31, by decide⟩) = 0xD10083FF := by
  decide

-- lsl x0, x1, #3
example : assemble (fields ⟨true, .bitfield ⟨61, by decide⟩ ⟨60, by decide⟩ 1 (by decide), 0,
    by decide⟩) = 0xD37DF020 := by
  decide

-- eon w0, w1, w2, lsl #4
example : assemble (fields ⟨false, .logical .xor true ⟨2, false, ⟨4, by decide⟩⟩ 1, 0,
    by decide⟩) = 0x4A221020 := by
  decide

end DataInst

end Deflatten

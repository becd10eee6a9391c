import Deflatten.Proofs.Arm64.DataEncodings
import Deflatten.Proofs.Arm64.Order
import Deflatten.Proofs.Arm64.Translation

/-!
# Proofs/Arm64/DataProcessing — lifted data processing computes the defined result

The microcode of a data-processing instruction sets its destination to the result that the instruction is
defined to have, with zeros in front, and changes nothing else (`DataInst.perform_lifted`).  An instruction
does so by its meaning (`DataInst.isMeaning_of_raw`), which is an operation on values; each operation on
values is the operation on words that the definition has.  Its code has that meaning up to the registers of
saved comparisons, and since no comparison is pending, it leaves these alone
(`Lifting.read_of_sparesCompare`).
-/

namespace Deflatten

open Encoding

/-! ## Words -/

section Words

variable (size : Int) {k : Nat}

theorem word_ofNat (k : Nat) : word (UInt64.ofNat k) size = BitVec.ofNat _ k := by
  apply BitVec.eq_of_toNat_eq
  rw [← toNat_truncate_eq_word, toNat_truncate, UInt64.toNat_ofNat', BitVec.toNat_ofNat]
  exact Nat.mod_mod_of_dvd k (Nat.pow_dvd_pow 2 (bitWidth_le size))

/-- A constant at a number of places. -/
theorem word_ofNat_mul {n : Nat} (x : BitVec n) (places : Nat) :
    word (UInt64.ofNat (x.toNat * 2 ^ places)) size = x.setWidth _ <<< places := by
  rw [word_ofNat]
  apply BitVec.eq_of_toNat_eq
  rw [BitVec.toNat_ofNat, BitVec.toNat_shiftLeft, BitVec.toNat_setWidth, Nat.shiftLeft_eq, Nat.mod_mul_mod]

/-- The constant of a sum or difference. -/
theorem word_addSubImm (up : Bool) (imm : BitVec 12) :
    word (UInt64.ofNat (imm.toNat * if up then 4096 else 1)) size =
      imm.setWidth _ <<< (if up then 12 else 0) := by
  rw [← word_ofNat_mul]
  cases up <;> rfl

theorem word_result {op : Opcode} {x y v : UInt64} {size : Int}
    (h : op.compute? x y size = some (truncate v size)) : word (op.result x y size) size = word v size := by
  rw [Opcode.result, h, Option.getD_some, word_truncate]

/-- A number of places is not cut. -/
theorem toNat_truncate_ofNat (h : k < bitWidth size) : (truncate (UInt64.ofNat k) size).toNat % 64 = k := by
  have hlt : k < 2 ^ bitWidth size := Nat.lt_trans h Nat.lt_two_pow_self
  have hle := bitWidth_le size
  have hpow : 2 ^ bitWidth size ≤ 2 ^ 64 := Nat.pow_le_pow_right (by decide) hle
  rw [toNat_truncate, UInt64.toNat_ofNat', Nat.mod_eq_of_lt (Nat.lt_of_lt_of_le hlt hpow),
    Nat.mod_eq_of_lt hlt, Nat.mod_eq_of_lt (by omega)]

/-- Places are taken modulo the bits of a register. -/
theorem toNat_mask (x : UInt64) (wide : Bool) :
    (Opcode.and.result x (truncate (UInt64.ofInt (width wide * 8 - 1)) (width wide))
      (width wide)).toNat % 64 = (word x (width wide)).toNat % regBits wide := by
  show (truncate _ _).toNat % 64 = _
  rw [toNat_truncate_eq_word, word_and, word_truncate, BitVec.toNat_and]
  cases wide with
  | true =>
    rw [show (word (UInt64.ofInt (width true * 8 - 1)) (width true)).toNat = 2 ^ 6 - 1 by
      decide, Nat.and_two_pow_sub_one_eq_mod]
    exact Nat.mod_mod _ 64
  | false =>
    rw [show (word (UInt64.ofInt (width false * 8 - 1)) (width false)).toNat = 2 ^ 5 - 1 by
      decide, Nat.and_two_pow_sub_one_eq_mod]
    exact Nat.mod_eq_of_lt (by omega)

end Words

section Fields

variable {n immr imms : Nat} (x : BitVec n)

/-- A field that goes up to the top is shifted to the right. -/
theorem moveField_top (h : imms + 1 = n) (hr : immr < n) : moveField x immr imms = x >>> immr := by
  rw [moveField, if_pos (by omega)]
  apply BitVec.eq_of_getLsbD_eq
  intro i hi
  rw [BitVec.getLsbD_setWidth, BitVec.getLsbD_extractLsb', BitVec.getLsbD_ushiftRight]
  by_cases hin : i < imms - immr + 1
  · simp [hi, hin]
  · simp [hin, BitVec.getLsbD_of_ge x (immr + i) (by omega)]

/-- A field that is moved up to the top is shifted to the left. -/
theorem moveField_up (h : imms + 1 = immr) (hr : immr < n) :
    moveField x immr imms = x <<< (n - 1 - imms) := by
  rw [moveField, if_neg (by omega), show n - immr = n - 1 - imms by omega]
  apply BitVec.eq_of_getLsbD_eq
  intro i hi
  rw [BitVec.getLsbD_shiftLeft, BitVec.getLsbD_shiftLeft, BitVec.getLsbD_setWidth,
    BitVec.getLsbD_extractLsb']
  by_cases hlow : i < n - 1 - imms
  · simp [hlow]
  · simp [hi, show i - (n - 1 - imms) < imms + 1 by omega, show i - (n - 1 - imms) < n by omega]

/-- A field at the bottom is masked. -/
theorem moveField_bottom :
    moveField x 0 imms = x &&& BitVec.ofNat n (2 ^ (imms + 1) - 1) := by
  rw [moveField, if_pos (Nat.zero_le _)]
  apply BitVec.eq_of_getLsbD_eq
  intro i hi
  rw [BitVec.getLsbD_setWidth, BitVec.getLsbD_extractLsb', BitVec.getLsbD_and, BitVec.getLsbD_ofNat,
    Nat.testBit_two_pow_sub_one]
  simp [hi, Bool.and_comm]

end Fields

/-! ## Sources -/

namespace Machine

variable (m : Machine) {wide : Bool}

theorem word_reg (n : Fin 32) :
    word (m.reg n (width wide)) (width wide) = m.regWord wide n := by
  unfold reg regWord
  by_cases h : n = 31
  · rw [if_pos h, if_pos (show n.val = 31 from congrArg Fin.val h), word_zero]
  · rw [if_neg h, if_neg (show n.val ≠ 31 from fun heq => h (Fin.ext heq)), word_truncate]

theorem truncate_reg (n : Nat) (size : Int) : truncate (m.reg n size) size = m.reg n size := by
  unfold reg
  split
  · exact truncate_zero size
  · exact truncate_truncate ..

theorem word_shifted (b : ShiftedReg wide) :
    word (m.shifted b.rm (width wide) b.shift) (width wide) = b.value m := by
  have hamount := toNat_truncate_ofNat (width wide) b.amount.isLt
  unfold ShiftedReg.shift ShiftedReg.value
  by_cases hzero : b.amount.val = 0
  · rw [if_pos hzero, hzero, shifted, word_reg]
    simp
  · rw [if_neg hzero]
    cases b.right
    · rw [if_neg Bool.false_ne_true, if_neg Bool.false_ne_true, shifted]
      show word (truncate _ _) _ = _
      rw [word_truncate, word_shiftLeft, hamount, word_reg]
    · rw [if_pos rfl, if_pos rfl, shifted]
      show word (truncate _ _) _ = _
      rw [word_truncate, word_shiftRight _ _ _ (truncate_reg ..), hamount, word_reg]

theorem word_logicValue (b : ShiftedReg wide) (invert : Bool) :
    word (m.logicValue (width wide) (.reg b.rm b.shift invert)) (width wide) =
      if invert then ~~~b.value m else b.value m := by
  cases invert
  · exact m.word_shifted b
  · show word (truncate _ _) _ = _
    rw [word_truncate, word_not, word_shifted, if_pos rfl]

end Machine

/-! ## Meaning -/

namespace DataInst

variable (d : DataInst) (m : Machine)

/-- The destination at its width. -/
def dest : Operand := .register d.rd (width d.wide)

theorem setReg_eq (h : d.op.writesStack = false) (y : UInt64) :
    m.setReg d.rd (width d.wide) y = m.assign d.dest y := by
  rw [Machine.setReg, if_neg (rd_ne h), dest]

/-- **The meaning of a word is to set the destination to the result.** -/
def IsMeaning (o : LiftOptions) (x : Inst) (p : Option Sides) : Prop :=
  ∃ y, x.exec o m p = .ok (m.assign d.dest y, p) ∧ word y (width d.wide) = d.result m

variable {d m} {o : LiftOptions} {x : Inst} {p : Option Sides}

section Meaning

variable (hform : Form.decode o.decoder x.raw x.addr = d.form)
include hform

theorem isMeaning_moveWide {kind : MoveKind} {place : Fin (regBits d.wide / 16)} {imm : BitVec 16}
    (hop : d.op = .moveWide kind place imm) : d.IsMeaning m o x p := by
  have hstack : d.op.writesStack = false := hop ▸ rfl
  have hv := word_ofNat_mul (width d.wide) imm (place.val * 16)
  have hmask := word_ofNat_mul (width d.wide) (0xFFFF#16) (place.val * 16)
  cases kind <;>
    simp only [IsMeaning, Inst.exec, hform, form, hop, d.setReg_eq m hstack, result] <;>
    refine ⟨_, rfl, ?_⟩
  case negated => rw [word_not, hv]
  case zeroed => rw [hv]
  case kept =>
    rw [word_or, word_and, word_not, hv, Machine.regWord, if_neg fun h => rd_ne hstack (congrArg Fin.val h)]
    exact congrArg (fun y => _ &&& ~~~y ||| _) hmask

theorem isMeaning_addSubImm {sub up : Bool} {imm : BitVec 12} {rn : Fin 32}
    (hop : d.op = .addSubImm sub up imm rn) : d.IsMeaning m o x p := by
  have hv := word_addSubImm (width d.wide) up imm
  simp only [IsMeaning, Inst.exec, hform, form, hop, result, Bool.false_and, Bool.false_eq_true,
    if_false]
  refine ⟨_, rfl, ?_⟩
  cases sub with
  | true =>
    refine (word_result rfl).trans ?_
    rw [word_sub, word_truncate, word_truncate, hv]
    rfl
  | false =>
    refine (word_result rfl).trans ?_
    rw [word_add, word_truncate, word_truncate, hv]
    rfl

theorem isMeaning_addSubReg {sub : Bool} {b : ShiftedReg d.wide} {rn : Fin 32}
    (hop : d.op = .addSubReg sub b rn) : d.IsMeaning m o x p := by
  simp only [IsMeaning, Inst.exec, hform, form, hop, d.setReg_eq m (hop ▸ rfl), result,
    Bool.false_eq_true, if_false]
  refine ⟨_, rfl, ?_⟩
  cases sub with
  | true =>
    refine (word_result rfl).trans ?_
    rw [word_sub, m.word_reg, m.word_shifted, if_pos rfl]
  | false =>
    refine (word_result rfl).trans ?_
    rw [word_add, m.word_reg, m.word_shifted, if_neg Bool.false_ne_true]

theorem isMeaning_logical {kind : LogicKind} {invert : Bool} {b : ShiftedReg d.wide} {rn : Fin 32}
    (hop : d.op = .logical kind invert b rn) : d.IsMeaning m o x p := by
  have hstack : d.op.writesStack = false := hop ▸ rfl
  simp only [IsMeaning, Inst.exec, hform, form, hop, d.setReg_eq m hstack, result, rd_ne hstack,
    decide_false, Bool.false_and, Bool.false_eq_true, if_false]
  split
  · next hcopy =>
    -- combining with zero is a copy
    refine ⟨_, rfl, ?_⟩
    simp only [Bool.and_eq_true, decide_eq_true_eq] at hcopy
    obtain rfl : kind = .or := by cases kind <;> first | rfl | cases hcopy.1
    obtain rfl : rn = 31 := Fin.ext hcopy.2
    rw [m.word_logicValue]
    exact (BitVec.zero_or ..).symm
  · refine ⟨_, rfl, ?_⟩
    cases kind <;> refine (word_result rfl).trans ?_
    · rw [word_and, m.word_reg, m.word_logicValue, LogicKind.apply]
    · rw [word_or, m.word_reg, m.word_logicValue, LogicKind.apply]
    · rw [word_xor, m.word_reg, m.word_logicValue, LogicKind.apply]

theorem isMeaning_multiply {sub : Bool} {rm ra rn : Fin 32} (hop : d.op = .multiply sub rm ra rn) :
    d.IsMeaning m o x p := by
  have hproduct : word (Opcode.mul.result (m.reg rn (width d.wide))
      (m.reg rm (width d.wide)) (width d.wide)) (width d.wide) =
      m.regWord d.wide rn * m.regWord d.wide rm := by
    refine (word_result rfl).trans ?_
    rw [word_mul, m.word_reg, m.word_reg]
  simp only [IsMeaning, Inst.exec, hform, form, hop, d.setReg_eq m (hop ▸ rfl), result]
  refine ⟨_, rfl, ?_⟩
  cases sub with
  | true =>
    refine (word_result rfl).trans ?_
    rw [word_sub, m.word_reg, hproduct, if_pos rfl]
  | false =>
    rw [if_neg Bool.false_ne_true, if_neg Bool.false_ne_true]
    split
    · next hzero =>
      -- adding to zero is the product
      have hra : m.regWord d.wide ra = 0 := if_pos (Fin.ext hzero)
      rw [hproduct, hra]
      exact (BitVec.zero_add _).symm
    · refine (word_result rfl).trans ?_
      rw [word_add, m.word_reg, hproduct]

theorem isMeaning_bitfield {immr imms : Fin (regBits d.wide)} {rn : Fin 32} {hfield}
    (hop : d.op = .bitfield immr imms rn hfield) : d.IsMeaning m o x p := by
  have hstack : d.op.writesStack = false := hop ▸ rfl
  simp only [form, hop] at hform
  split at hform
  · next htop =>
    simp only [IsMeaning, Inst.exec, hform, d.setReg_eq m hstack, result, hop]
    refine ⟨_, rfl, (word_result rfl).trans ?_⟩
    rw [word_shiftRight _ _ _ (m.truncate_reg ..), toNat_truncate_ofNat _ immr.isLt, m.word_reg,
      moveField_top _ htop immr.isLt]
  split at hform
  · next hup =>
    simp only [IsMeaning, Inst.exec, hform, d.setReg_eq m hstack, result, hop]
    refine ⟨_, rfl, (word_result rfl).trans ?_⟩
    have hplaces : regBits d.wide - 1 - imms.val < regBits d.wide := by omega
    rw [word_shiftLeft, toNat_truncate_ofNat _ hplaces, m.word_reg, moveField_up _ hup immr.isLt]
  · next htop hup =>
    simp only [IsMeaning, Inst.exec, hform, d.setReg_eq m hstack, result, hop]
    refine ⟨_, rfl, (word_result rfl).trans ?_⟩
    rw [word_and, word_truncate, word_ofNat, m.word_reg, show immr.val = 0 by omega, moveField_bottom]

theorem isMeaning_shiftBy {right : Bool} {rm rn : Fin 32} (hop : d.op = .shiftBy right rm rn) :
    d.IsMeaning m o x p := by
  simp only [IsMeaning, Inst.exec, hform, form, hop, d.setReg_eq m (hop ▸ rfl), result]
  refine ⟨_, rfl, ?_⟩
  cases right with
  | true =>
    refine (word_result rfl).trans ?_
    rw [word_shiftRight _ _ _ (m.truncate_reg ..), toNat_mask, m.word_reg, m.word_reg, if_pos rfl]
  | false =>
    refine (word_result rfl).trans ?_
    rw [word_shiftLeft, toNat_mask, m.word_reg, m.word_reg, if_neg Bool.false_ne_true]

end Meaning

/-- **What an instruction does** is to set its destination to its result. -/
theorem isMeaning_of_raw (hx : x.raw = .assemble d.fields) : d.IsMeaning m o x p := by
  have hform : Form.decode o.decoder x.raw x.addr = d.form := hx ▸ d.decode_assemble _ _
  cases hop : d.op with
  | moveWide kind place imm => exact isMeaning_moveWide hform hop
  | addSubImm sub up imm rn => exact isMeaning_addSubImm hform hop
  | addSubReg sub b rn => exact isMeaning_addSubReg hform hop
  | logical kind invert b rn => exact isMeaning_logical hform hop
  | multiply sub rm ra rn => exact isMeaning_multiply hform hop
  | bitfield immr imms rn hfield => exact isMeaning_bitfield hform hop
  | shiftBy right rm rn => exact isMeaning_shiftBy hform hop

end DataInst

/-! ## Code -/

/-- Whether a form computes a register from registers and constants and leaves the flags alone. -/
def Form.isComputation : Form → Bool
  | constant .. | insert .. | multiply .. | bitfield .. | shiftBy .. => true
  | addSubImm _ flags .. | addSubReg _ flags .. | logical _ flags .. => !flags
  | _ => false

namespace Lifting

variable {o : LiftOptions} {s : Lifting} {x : Inst} {as : List Action} {is : List Insn} {m m' : Machine}
  {v : Var}

/-- **The actions of a computation** neither touch a comparison nor write where one is saved. -/
theorem exists_log_of_isComputation (h : s.Orderly)
    (hdata : (Form.decode o.decoder x.raw x.addr).isComputation = true) :
    ∃ as, s.log o x = .ok as ∧ (∀ a ∈ as, a.Safe) ∧ ∀ a ∈ as, a.keeps = true := by
  have hkind : ∀ {form : Form}, form.isComputation = true → form.isModelled = true ∧
      form.testsFlags = false ∧ form.setsFlags = false ∧ form.isCall = false := by
    intro form hform
    cases form <;> simp_all [Form.isComputation, Form.isModelled, Form.testsFlags, Form.setsFlags,
      Form.isCall]
  obtain ⟨hmodelled, htests, hflags, hcall⟩ := hkind hdata
  obtain ⟨as, hlog, has⟩ := exists_log (s := s) hmodelled (by simp [htests])
  exact ⟨as, hlog, fun a ha => (has a ha).safe h, fun a ha => (has a ha).keeps hflags hcall⟩

theorem sparesCompare_of_safe {i : Insn} (h : (Action.append i).Safe) : SparesCompare i :=
  (h { flags? := some ⟨.empty, .empty⟩ }).resolve_left nofun

/-- Where no comparison is pending, nothing is saved. -/
theorem exists_code_of_replay (h : s.flags? = none) (hsafe : ∀ a ∈ as, a.Safe)
    (hkeep : ∀ a ∈ as, a.keeps = true) :
    ∃ is, (s.replay as).code = s.code ++ is ∧ ∀ i ∈ is, SparesCompare i := by
  induction as generalizing s with
  | nil => exact ⟨[], (List.append_nil _).symm, nofun⟩
  | cons a as ih =>
    have hrest := fun {t : Lifting} (ht : t.flags? = none) =>
      ih ht (fun b hb => hsafe b (.tail _ hb)) fun b hb => hkeep b (.tail _ hb)
    cases a with
    | record c => cases hkeep _ (.head _)
    | drop => cases hkeep _ (.head _)
    | append i =>
      obtain ⟨hcode, hflags⟩ := emit_of_flags?_none h i
      obtain ⟨is, his, hspares⟩ := hrest hflags
      refine ⟨i :: is, ?_, List.forall_mem_cons.mpr ⟨sparesCompare_of_safe (hsafe _ (.head _)), hspares⟩⟩
      rw [replay_cons, act, his, hcode, List.append_assoc]
      rfl
    | hold rd src => exact hrest (t := { s with held := s.held.define rd src }) h
    | release => exact hrest (t := { s with held := s.held.forgetCallerSaved }) h

/-- Code that writes what is visible leaves the registers of saved comparisons alone. -/
theorem read_of_sparesCompare (hspares : ∀ i ∈ is, SparesCompare i) (hrun : m.perform is = .done m')
    (hv : ¬ Visible v) : m'.read v = m.read v := by
  induction is generalizing m with
  | nil =>
    obtain rfl := Performed.done.inj hrun
    rfl
  | cons i is ih =>
    obtain ⟨m₁, hstep, hrest⟩ := Machine.perform_cons_eq_done.mp hrun
    have hi := hspares i (.head _)
    rw [ih (fun j hj => hspares j (.tail _ hj)) hrest]
    exact Machine.read_of_step hi.plain.1 hstep fun hd => hv (hi.visible v hd)

theorem ne_of_general? {b : LogicSource} {n : Nat} (h : b.general? = some n) : n ≠ 31 := by
  unfold LogicSource.general? at h
  split at h
  · split at h
    · cases h
    · next hne =>
      cases h
      exact hne
  · cases h

theorem ne_of_stackCopy? {f : Form} {c : Nat × Int} (h : f.stackCopy? = some c) : c.1 ≠ 31 := by
  unfold Form.stackCopy? at h
  split at h
  · split at h
    · next hand =>
      cases h
      exact hand.2.1
    · cases h
  · split at h
    · obtain ⟨n, hn, rfl⟩ := Option.map_eq_some_iff.mp h
      exact ne_of_general? hn
    · cases h
  · cases h

/-- Where no register is known to hold anything, no copy to the stack pointer is missed. -/
theorem misses_empty (o : LiftOptions) (x : Inst) : Lifting.misses o {} x = false := by
  unfold misses
  cases h : (Form.decode o.decoder x.raw x.addr).stackCopy? with
  | none => rfl
  | some c =>
    have hread : Lifting.read o {} c.1 c.2 = .register c.1 c.2 := by
      rw [read, if_neg (ne_of_stackCopy? h)]
      unfold lookup?
      cases o.substitute <;> rfl
    rw [Option.any_some, hread]
    rfl

end Lifting

namespace DataInst

variable (d : DataInst)

theorem isComputation_form : d.form.isComputation = true := by
  unfold form
  dsimp only
  split
  · split <;> rfl
  · rfl
  · rfl
  · rfl
  · rfl
  · split
    · rfl
    · split <;> rfl
  · rfl

/-- **Lifted data processing computes the defined result.**  For every valid encoding, at every address
and under all options: the lifter accepts it, and in every machine its microcode leaves in the destination
the result of the instruction on the registers, with zeros in front, and every other register, every stack
slot and the memory as they were. -/
theorem perform_lifted (o : LiftOptions) (addr : UInt64) (mnemonic text : String) (m : Machine) :
    ∃ t m', Lifting.inst o {} ⟨addr, .assemble d.fields, mnemonic, text⟩ = .ok t ∧
      m.perform t.code = .done m' ∧
      m'.read (.reg d.rd) = .ofBitVec ((d.result m).setWidth 64) ∧
      (∀ v, v ≠ .reg d.rd → m'.read v = m.read v) ∧ m'.mem = m.mem ∧ m'.calls = m.calls := by
  let x : Inst := ⟨addr, .assemble d.fields, mnemonic, text⟩
  have hdata : (Form.decode o.decoder x.raw x.addr).isComputation = true := by
    rw [show Form.decode o.decoder x.raw x.addr = d.form from d.decode_assemble _ _]
    exact d.isComputation_form
  obtain ⟨as, hlog, hsafe, hkeep⟩ :=
    Lifting.exists_log_of_isComputation (s := {}) (o := o) (x := x) Lifting.orderly_empty hdata
  have hinst : Lifting.inst o {} x = .ok (Lifting.replay {} as) := by
    rw [Lifting.inst_eq_log, hlog]
    rfl
  obtain ⟨y, hexec, hy⟩ := isMeaning_of_raw (d := d) (m := m) (o := o) (x := x) (p := none) rfl
  have hrenders := (Lifting.sound_empty m).renders_inst hinst (Lifting.misses_empty o x)
  rw [show Lifting.pending {} m = none from rfl, hexec] at hrenders
  obtain ⟨is, m', hcode, hrun, -, hagree, -⟩ := hrenders
  obtain ⟨is', hcode', hspares⟩ := Lifting.exists_code_of_replay (s := {}) rfl hsafe hkeep
  obtain rfl : is = is' := List.append_cancel_left (hcode.symm.trans hcode')
  have hread : ∀ v, m'.read v = (m.assign d.dest y).read v := by
    intro v
    by_cases hv : Visible v
    · exact hagree.read_eq v hv
    · rw [Lifting.read_of_sparesCompare hspares hrun hv, dest, Machine.read_assign_register, if_neg]
      rintro rfl
      exact hv (visible_reg d.rd.isLt)
  refine ⟨_, m', hinst, hcode ▸ hrun, ?_, fun v hv => ?_, ?_, ?_⟩
  · rw [hread, dest, Machine.read_assign_register, if_pos rfl, truncate_eq_ofBitVec, hy]
  · rw [hread, dest, Machine.read_assign_register, if_neg hv.symm]
  · exact hagree.mem_eq.trans (Machine.mem_assign ..)
  · exact hagree.calls_eq.trans (Machine.calls_assign ..)

end DataInst

end Deflatten

import Deflatten.Proofs.Arm64.PairLoads

/-!
# Proofs/Arm64/NarrowLoads — one register stored and loaded

A slot off the stack or frame pointer has the size of the access, and a load keeps that many bytes of what
is in it.  At any other address the size is lost: a load keeps as many bytes as its register has, so a byte
or a half word is loaded with whatever a store left above it (`Lifting.read_singleAccess`).
-/

namespace Deflatten

open Encoding

/-! ## Words -/

/-- **The size of an access.** -/
inductive AccessSize where
  | byte
  | half
  | word
  | double
deriving DecidableEq, Repr

namespace AccessSize

/-- The bytes, as a power of two. -/
def exponent : AccessSize → Nat
  | byte => 0
  | half => 1
  | word => 2
  | double => 3

/-- The bytes. -/
def bytes : AccessSize → Nat
  | byte => 1
  | half => 2
  | word => 4
  | double => 8

/-- The bytes of the register. -/
def width (z : AccessSize) : Int := Encoding.width ((z.bytes : Int) == 8)

theorem exponent_lt (z : AccessSize) : z.exponent < 4 := by
  cases z <;> decide

end AccessSize

/-- **How an address is made** from a base and a constant. -/
inductive Addressing where
  /-- At an offset in units of what is accessed. -/
  | scaled (imm : BitVec 12)
  /-- At an offset in bytes. -/
  | unscaled (imm : BitVec 9)
  /-- At the base, which steps before. -/
  | preIndex (imm : BitVec 9)
  /-- At the base, which steps after. -/
  | postIndex (imm : BitVec 9)
deriving DecidableEq, Repr

/-- **A load or store of one register.** -/
structure SingleAccess where
  size : AccessSize
  mode : Addressing
  /-- The base. -/
  rn : Fin 32
  /-- The register. -/
  rt : Fin 32

namespace SingleAccess

/-- The offset in bytes. -/
def offset (d : SingleAccess) : Int :=
  match d.mode with
  | .scaled imm => (imm.toNat * d.size.bytes : Nat)
  | .unscaled imm | .preIndex imm => imm.toInt
  | .postIndex _ => 0

/-- What is added to the base. -/
def step? (d : SingleAccess) : Option Int :=
  match d.mode with
  | .scaled _ | .unscaled _ => none
  | .preIndex imm | .postIndex imm => some imm.toInt

/-- The fields of the word. -/
def fields (d : SingleAccess) (isLoad : Bool) : List (Nat × Nat) :=
  let inBytes (imm : BitVec 9) (index : Nat) : List (Nat × Nat) :=
    [(2, d.size.exponent), (6, 0b111000), (2, isLoad.toNat), (1, 0), (9, imm.toNat), (2, index), (5, d.rn),
      (5, d.rt)]
  match d.mode with
  | .scaled imm =>
    [(2, d.size.exponent), (6, 0b111001), (2, isLoad.toNat), (12, imm.toNat), (5, d.rn), (5, d.rt)]
  | .unscaled imm => inBytes imm 0b00
  | .preIndex imm => inBytes imm 0b11
  | .postIndex imm => inBytes imm 0b01

/-- What is transferred. -/
def transfer (isLoad : Bool) : Transfer := if isLoad then .load else .store

variable {w : Encoding} (d : SingleAccess) {isLoad : Bool}

theorem transfer_of_slice (h : w.slice 22 2 = isLoad.toNat % 4) : Form.transfer w = transfer isLoad := by
  rw [Form.transfer, h]
  cases isLoad <;> rfl

/-- The forms with an offset in bytes, by the two bits that tell them. -/
theorem unscaled_of_shows {imm : BitVec 9} {index : Nat}
    (h : w.Shows [(2, d.size.exponent), (6, 0b111000), (2, isLoad.toNat), (1, 0), (9, imm.toNat),
      (2, index), (5, d.rn), (5, d.rt)]) (k : Decoder) (pc : UInt64) :
    Form.decode k w pc = Form.unscaled w ∧ w.slice 10 2 = index % 4 ∧ w.signed 12 9 = imm.toInt ∧
      Form.transfer w = transfer isLoad ∧ w.rd = d.rt ∧ w.rn = d.rn ∧
      ((1 <<< w.slice 30 2 : Nat) : Int) = d.size.bytes := by
  simp only [Shows, fieldBits, Nat.reduceAdd, Nat.reducePow, Nat.reduceMod] at h
  obtain ⟨hsize, hclass, hopc, hzero, himm, hindex, hn, ht, -⟩ := h
  have hfits := fits_or (fits_slice hclass) (fits_slice hzero)
  rw [Nat.mod_eq_of_lt d.size.exponent_lt] at hsize
  refine ⟨?_, hindex, signed_of_slice himm, transfer_of_slice hopc,
    ht.trans (Nat.mod_eq_of_lt d.rt.isLt), hn.trans (Nat.mod_eq_of_lt d.rn.isLt), ?_⟩
  · simp (disch := decide) only [Form.decode, Call.decode?, Form.isConditionSet,
      fits_apart hfits, fits_within hfits, Bool.false_eq_true, Bool.false_and, ↓reduceIte]
  · rw [hsize]
    cases d.size <;> rfl

theorem decode_of_shows (h : w.Shows (d.fields isLoad)) (k : Decoder) (pc : UInt64) :
    Form.decode k w pc = .access (transfer isLoad) d.rt d.rn d.offset d.size.bytes d.step? := by
  unfold fields at h
  unfold offset step?
  cases hmode : d.mode with
  | scaled imm =>
    simp only [hmode, Shows, fieldBits, Nat.reduceAdd, Nat.reducePow,
      Nat.reduceMod] at h
    obtain ⟨hsize, hclass, hopc, himm, hn, ht, -⟩ := h
    have hfits := fits_slice hclass
    simp (disch := decide) only [Form.decode, Call.decode?, Form.isConditionSet,
      fits_apart hfits, fits_within hfits, Bool.false_eq_true, Bool.false_and, ↓reduceIte]
    rw [Nat.mod_eq_of_lt d.size.exponent_lt] at hsize
    rw [Nat.mod_eq_of_lt d.rt.isLt] at ht
    rw [Nat.mod_eq_of_lt d.rn.isLt] at hn
    rw [Nat.mod_eq_of_lt imm.isLt] at himm
    simp only [transfer_of_slice hopc, Encoding.rd, Encoding.rn, ht, hn, himm, hsize]
    cases d.size <;> rfl
  | unscaled imm =>
    rw [hmode] at h
    obtain ⟨hform, hindex, himm, ht, hd, hn, hsize⟩ := d.unscaled_of_shows h k pc
    simp only [hform, Form.unscaled, hindex, himm, ht, hd, hn, hsize]
  | preIndex imm =>
    rw [hmode] at h
    obtain ⟨hform, hindex, himm, ht, hd, hn, hsize⟩ := d.unscaled_of_shows h k pc
    simp only [hform, Form.unscaled, hindex, himm, ht, hd, hn, hsize]
  | postIndex imm =>
    rw [hmode] at h
    obtain ⟨hform, hindex, himm, ht, hd, hn, hsize⟩ := d.unscaled_of_shows h k pc
    simp only [hform, Form.unscaled, hindex, himm, ht, hd, hn, hsize]

theorem decode_assemble (isLoad : Bool) (k : Decoder) (pc : UInt64) :
    Form.decode k (.assemble (d.fields isLoad)) pc =
      .access (transfer isLoad) d.rt d.rn d.offset d.size.bytes d.step? := by
  refine d.decode_of_shows (shows_assemble ?_) k pc
  unfold fields
  cases d.mode <;> simp [fieldBits]

/-! ## Places -/

/-- Whether the base is the stack or frame pointer. -/
def isSlot : Bool := d.rn.val = 31 || d.rn.val = 29

/-- **What an access finds**: what is in a slot, or the word at an address. -/
def place (m : Machine) : UInt64 :=
  if d.isSlot then m.read (.stack d.rn d.offset) else m.load (m.read (.reg d.rn) + .ofInt d.offset)

/-- **The bytes that a load keeps** of what it finds. -/
def kept : Int := if d.isSlot then d.size.bytes else d.size.width

theorem bitWidth_kept_le : bitWidth d.kept ≤ bitWidth d.size.width := by
  unfold kept
  split
  · cases d.size <;> decide
  · exact Nat.le_refl _

/-- A load keeps the bytes that it accesses, except a byte or a half word that is in no slot. -/
theorem kept_eq_bytes (h : d.isSlot = true ∨ 4 ≤ d.size.bytes) : d.kept = d.size.bytes := by
  unfold kept
  split
  · rfl
  · next hslot =>
    have hsize := h.resolve_left hslot
    cases hz : d.size with
    | byte | half =>
      rw [hz] at hsize
      exact absurd hsize (by decide)
    | word | double => rfl

/-- The operand of a slot. -/
theorem memory_of_isSlot (h : d.isSlot = true) :
    (Lifting.memory d.rn d.offset d.size.bytes).kind = .stack ∧
      (Lifting.memory d.rn d.offset d.size.bytes).var? = some (.stack d.rn d.offset) ∧
      (Lifting.memory d.rn d.offset d.size.bytes).size = d.size.bytes := by
  unfold Lifting.memory
  rw [if_pos]
  · exact ⟨rfl, rfl, rfl⟩
  · simp only [isSlot, Bool.or_eq_true, decide_eq_true_eq] at h
    rcases h with h | h <;> rw [h] <;> rfl

theorem general_of_isSlot (h : d.isSlot = false) : d.rn.val ≠ 31 ∧ d.rn.val ≠ 29 := by
  simp only [isSlot, Bool.or_eq_false_iff, decide_eq_false_iff_not] at h
  exact h

variable {m m' : Machine}

/-- What is found in machines that differ in nothing visible. -/
theorem place_eq_of_agree (h : Machine.Agree Visible m m') : d.place m' = d.place m := by
  unfold place
  rw [h.read_eq _ (visible_stack _ _), h.read_eq _ (visible_reg d.rn.isLt), h.load_eq]

/-- **What a load does**: its register gets the bytes kept of what is found. -/
theorem read_loaded (m : Machine) (v : Var) :
    (m.loaded d.rn d.offset d.size.bytes d.rt d.size.width).read v =
      if d.rt.val ≠ 31 ∧ v = .reg d.rt then truncate (d.place m) d.kept else m.read v := by
  have hle := d.bitWidth_kept_le
  unfold place
  unfold kept at hle ⊢
  cases hslot : d.isSlot with
  | true =>
    obtain ⟨hkind, hvar, hsize⟩ := d.memory_of_isSlot hslot
    simp only [hslot, if_true] at hle ⊢
    rw [Machine.loaded, if_pos hkind, Machine.read_setReg, Machine.value_of_var? hvar, hsize,
      truncate_truncate_of_le hle]
  | false =>
    obtain ⟨hstack, hframe⟩ := d.general_of_isSlot hslot
    rw [Machine.loaded_eq hstack hframe, Machine.read_setReg]
    rfl

/-- **What a store does**: it leaves registers as they are, and what is found is what was stored, as far as
a load keeps it. -/
theorem place_stored (m : Machine) (x : UInt64) :
    truncate (d.place (m.stored d.rn d.offset d.size.bytes x)) d.kept = truncate x d.kept ∧
      ∀ n, (m.stored d.rn d.offset d.size.bytes x).read (.reg n) = m.read (.reg n) := by
  unfold place kept
  cases hslot : d.isSlot with
  | true =>
    obtain ⟨hkind, hvar, hsize⟩ := d.memory_of_isSlot hslot
    simp only [Machine.stored, if_pos hkind, if_true]
    refine ⟨?_, fun n => ?_⟩
    · rw [Machine.read_assign, if_pos hvar, hsize, truncate_truncate]
    · rw [Machine.read_assign, hvar, if_neg (by simp)]
  | false =>
    obtain ⟨hstack, hframe⟩ := d.general_of_isSlot hslot
    obtain ⟨hk, hvalue⟩ := Machine.value_memory hstack hframe m d.offset d.size.bytes
    simp only [Machine.stored, if_neg hk, hvalue, Machine.read_store]
    simp [Machine.load, Machine.store]

theorem toNat_truncate_bytes_lt (x : UInt64) :
    (truncate x d.size.bytes).toNat < 2 ^ (8 * d.size.bytes) := by
  have hwidth : bitWidth d.size.bytes = 8 * d.size.bytes := by
    cases d.size <;> decide
  rw [toNat_truncate, hwidth]
  exact Nat.mod_lt _ (Nat.two_pow_pos _)

/-- A register as a source, as far as a load keeps it. -/
theorem truncate_reg_kept (m : Machine) (n : Nat) :
    truncate (m.reg n d.size.width) d.kept = truncate (m.reg n 8) d.kept := by
  have hdvd := Nat.pow_dvd_pow 2 d.bitWidth_kept_le
  unfold Machine.reg
  split
  · rfl
  · apply UInt64.toNat_inj.mp
    simp only [toNat_truncate, Nat.mod_mod_of_dvd _ hdvd,
      Nat.mod_mod_of_dvd _ (Nat.pow_dvd_pow 2 (show bitWidth d.kept ≤ bitWidth 8 from bitWidth_le _))]

/-- What is added to the loaded register where the base is that register and steps. -/
def drift : UInt64 := if d.rt = d.rn then .ofInt (d.step?.getD 0) else 0

theorem drift_eq_zero (h : d.rt ≠ d.rn ∨ d.step? = none) : d.drift = 0 := by
  unfold drift
  rcases h with h | h
  · rw [if_neg h]
  · rw [h]
    exact ite_self _

theorem read_stepped (m : Machine) (v : Var) : (m.stepped d.rn d.step?).read v =
    m.read v + if v = .reg d.rn then .ofInt (d.step?.getD 0) else 0 := by
  cases d.step? with
  | none => exact (UInt64.add_zero _).symm.trans (congrArg (m.read v + ·) (ite_self _).symm)
  | some n =>
    simp only [Machine.stepped, Machine.read_assign_register, truncate_eight, Option.getD_some]
    by_cases hv : v = .reg d.rn
    · rw [if_pos hv.symm, if_pos hv, hv]
    · rw [if_neg (Ne.symm hv), if_neg hv, UInt64.add_zero]

/-- **What an access does to a machine.** -/
def effect (isLoad : Bool) (m : Machine) : Machine :=
  (if isLoad then m.loaded d.rn d.offset d.size.bytes d.rt d.size.width
    else m.stored d.rn d.offset d.size.bytes (m.reg d.rt d.size.width)).stepped d.rn d.step?

theorem read_effect_load (h : d.rt ≠ 31) (m : Machine) :
    (d.effect true m).read (.reg d.rt) = truncate (d.place m) d.kept + d.drift := by
  rw [effect, if_pos rfl, d.read_stepped, d.read_loaded, if_pos ⟨fun heq => h (Fin.ext heq), rfl⟩, drift]
  congr 1
  refine if_congr ⟨fun heq => Fin.ext ?_, fun heq => by rw [heq]⟩ rfl rfl
  have := Var.reg.inj heq
  omega

theorem place_effect_store (h : d.step? = none) (m : Machine) :
    truncate (d.place (d.effect false m)) d.kept = truncate (m.reg d.rt 8) d.kept ∧
      (d.effect false m).read (.reg d.rn) = m.read (.reg d.rn) := by
  rw [effect, if_neg Bool.false_ne_true, h, Machine.stepped]
  obtain ⟨hplace, hregs⟩ := d.place_stored m (m.reg d.rt d.size.width)
  exact ⟨hplace.trans (d.truncate_reg_kept m d.rt), hregs d.rn⟩

end SingleAccess

/-! ## Lifted code -/

namespace Lifting

open Machine (Agree)

variable {o : LiftOptions} {s t : Lifting} {m m' m₁ : Machine} {xs : List Inst} {x : Inst}

/-- **Instructions lifted and run**: they are lifted after what stands before them, and the code appended
for them takes one machine to another. -/
def Runs (o : LiftOptions) (s : Lifting) (m : Machine) (xs : List Inst) (t : Lifting) (m' : Machine) :
    Prop :=
  s.insts o xs = .ok t ∧ ∃ is, t.code = s.code ++ is ∧ m.perform is = .done m'

theorem Runs.refl (o : LiftOptions) (s : Lifting) (m : Machine) : Runs o s m [] s m :=
  ⟨rfl, [], (List.append_nil _).symm, rfl⟩

theorem Runs.sound (h : Runs o s m xs t m') (hs : s.Sound m) : t.Sound m' := by
  obtain ⟨hxs, is, hcode, hrun⟩ := h
  exact hs.of_insts hxs hcode hrun

variable {d : SingleAccess}

/-- **An access is accepted, and its code does what it does.** -/
theorem Sound.runs_access (h : s.Sound m) {isLoad : Bool} (hx : x.raw = .assemble (d.fields isLoad)) :
    ∃ t m', Runs o s m [x] t m' ∧ Agree Visible (d.effect isLoad m) m' := by
  have hform : Form.decode o.decoder x.raw x.addr = .access (SingleAccess.transfer isLoad) d.rt d.rn
      d.offset d.size.bytes d.step? := hx ▸ d.decode_assemble isLoad _ _
  obtain ⟨t, ht⟩ : ∃ t, s.inst o x = .ok t := by
    rw [inst, hform]
    cases isLoad <;> exact ⟨_, rfl⟩
  have hmiss : s.misses o x = false := by
    rw [misses, hform]
    rfl
  have hexec : x.exec o m (s.pending m) = .ok (d.effect isLoad m, s.pending m) := by
    simp only [Inst.exec, hform]
    cases isLoad <;> rfl
  have hrenders := h.renders_inst ht hmiss
  rw [hexec] at hrenders
  obtain ⟨is, m', hcode, hrun, -, hagree, -⟩ := hrenders
  refine ⟨t, m', ⟨?_, is, hcode, hrun⟩, hagree⟩
  rw [insts, ht]
  rfl

/-- **A load, lifted and run.** -/
theorem Sound.runs_load (h : s.Sound m) (hx : x.raw = .assemble (d.fields true)) :
    ∃ t m', Runs o s m [x] t m' ∧
      (d.rt ≠ 31 → m'.read (.reg d.rt) = truncate (d.place m) d.kept + d.drift) := by
  obtain ⟨t, m', hruns, hagree⟩ := h.runs_access (o := o) hx
  refine ⟨t, m', hruns, fun hrt => ?_⟩
  rw [hagree.read_eq _ (visible_reg d.rt.isLt), d.read_effect_load hrt]

/-- **A store, lifted and run.** -/
theorem Sound.runs_store (h : s.Sound m) (hx : x.raw = .assemble (d.fields false))
    (hstep : d.step? = none) : ∃ t m', Runs o s m [x] t m' ∧
      m'.read (.reg d.rn) = m.read (.reg d.rn) ∧
      truncate (d.place m') d.kept = truncate (m.reg d.rt 8) d.kept := by
  obtain ⟨t, m', hruns, hagree⟩ := h.runs_access (o := o) hx
  obtain ⟨hplace, hbase⟩ := d.place_effect_store hstep m
  refine ⟨t, m', hruns, ?_, ?_⟩
  · rw [hagree.read_eq _ (visible_reg d.rn.isLt), hbase]
  · rw [d.place_eq_of_agree hagree, hplace]

/-- **What is loaded**, anywhere in a block.  The lifter accepts a load, and its register gets the bytes
kept of what is found, moved on if the base is that register and steps.  These are the bytes accessed
in a slot, and for words and double words anywhere; of a byte or a half word at any other address as many
are kept as the register has.  Where the base does not step, what a load finds after a store is what was
stored, as far as it is kept, whatever stands between the two and leaves the place as it is. -/
theorem read_singleAccess (o : LiftOptions) {before : List Inst} {m₀ : Machine}
    (hbefore : Runs o {} m₀ before s m) (d : SingleAccess) (hx : x.raw = .assemble (d.fields true)) :
    (∃ t m', Runs o s m [x] t m' ∧ (d.rt ≠ 31 →
      m'.read (.reg d.rt) = truncate (d.place m) d.kept + d.drift ∧
      (d.isSlot = true ∨ 4 ≤ d.size.bytes → d.rt ≠ d.rn ∨ d.step? = none →
        (m'.read (.reg d.rt)).toNat < 2 ^ (8 * d.size.bytes)))) ∧
    (d.step? = none → ∀ (rs : Fin 32) (y : Inst),
      y.raw = .assemble ({ d with rt := rs }.fields false) →
      ∃ t m₁, Runs o s m [y] t m₁ ∧ m₁.read (.reg d.rn) = m.read (.reg d.rn) ∧
        ∀ between u m₂, Runs o t m₁ between u m₂ → d.place m₂ = d.place m₁ →
          ∃ v m₃, Runs o u m₂ [x] v m₃ ∧ (d.rt ≠ 31 →
            m₃.read (.reg d.rt) = truncate (m.reg rs 8) d.kept ∧
            (d.isSlot = true ∨ 4 ≤ d.size.bytes →
              m₃.read (.reg d.rt) = truncate (m.reg rs 8) d.size.bytes))) := by
  have hsound : s.Sound m := hbefore.sound (sound_empty m₀)
  constructor
  · obtain ⟨t, m', hruns, hread⟩ := hsound.runs_load (o := o) hx
    refine ⟨t, m', hruns, fun hrt => ⟨hread hrt, fun hkept hsteady => ?_⟩⟩
    rw [hread hrt, d.drift_eq_zero hsteady, UInt64.add_zero, d.kept_eq_bytes hkept]
    exact d.toNat_truncate_bytes_lt _
  · intro hstep rs y hy
    obtain ⟨t, m₁, hruns, hbase, hplace⟩ := hsound.runs_store (o := o) hy hstep
    refine ⟨t, m₁, hruns, hbase, fun between u m₂ hbetween hsame => ?_⟩
    obtain ⟨v, m₃, hload, hread⟩ := (hbetween.sound (hruns.sound hsound)).runs_load (o := o) hx
    have hfound : d.rt ≠ 31 → m₃.read (.reg d.rt) = truncate (m.reg rs 8) d.kept := by
      intro hrt
      rw [hread hrt, d.drift_eq_zero (.inr hstep), UInt64.add_zero, hsame]
      exact hplace
    refine ⟨v, m₃, hload, fun hrt => ⟨hfound hrt, fun hkept => ?_⟩⟩
    rw [hfound hrt, d.kept_eq_bytes hkept]

/-- A byte is stored to a slot and loaded again. -/
theorem read_singleAccess_slot :
    let d : SingleAccess := ⟨.byte, .scaled 8, 31, 0⟩
    let m : Machine := ({} : Machine).assign (.register 1 8) 511
    let y : Inst := ⟨0x1000, .assemble ({ d with rt := 1 }.fields false), "", ""⟩
    let x : Inst := ⟨0x1004, .assemble (d.fields true), "", ""⟩
    y.raw = 0x390023E1 ∧ x.raw = 0x394023E0 ∧
    ∃ t m₁ u m₂, Runs {} {} m [y] t m₁ ∧ Runs {} t m₁ [x] u m₂ ∧ m₂.read (.reg 0) = 255 := by
  intro d m y x
  obtain ⟨t, m₁, hstore, -, hload⟩ :=
    (read_singleAccess {} (Runs.refl {} {} m) d (x := x) rfl).2 rfl 1 y rfl
  obtain ⟨u, m₂, hruns, hread⟩ := hload [] t m₁ (Runs.refl ..) rfl
  have hbyte : truncate (m.reg (1 : Fin 32) 8) d.size.bytes = 255 := by decide +kernel
  exact ⟨by decide, by decide, t, m₁, u, m₂, hstore, hruns,
    ((hread (by decide)).2 (.inl rfl)).trans hbyte⟩

end Lifting

/-! ## Where the size is lost -/

namespace MachineFunc

/-- Stores the low byte of a register at an address, and returns the byte loaded from there. -/
def reloadsByte : List Inst := ofWords 0x1000 [0x39000001, 0x39400000, 0xD65F03C0]

/-- **A byte is stored, but 511 is loaded.** -/
theorem loads_reloadsByte :
    ∃ f, (ofInsts "f" reloadsByte).lift {} = .ok f ∧
      ∀ limit : Int, 3 ≤ limit →
        ∃ e, f.run ⟨[(.reg 0, 4096), (.reg 1, 511)]⟩ limit = .ok e ∧ e.error? = none ∧
          e.trace.ret = 511 := by
  let code : List Insn :=
    [{ op := .stx, l := .register 1 4, r := .register 0 8 },
      { op := .ldx, l := .register 0 8, d := .register 0 4 }, .ret (.register 0 8)]
  let m : Machine := { vars := ⟨[(.reg 0, 4096), (.reg 1, 511)]⟩ }
  let m' := (m.store 4096 511).assign (.register 0 4) 511
  have hvisit : Block.visit { serial := 0, code := some code, next := noBlock } m =
      .stops m' 3 (.returned 511) := by decide +kernel
  exact ⟨ofCode code, by decide +kernel,
    fun limit hlimit => run_ofCode (by decide +kernel) hvisit hlimit⟩

end MachineFunc

end Deflatten

import Deflatten.Proofs.Arm64.FlagJumps
import Deflatten.Proofs.Arm64.Patterns

/-!
# Proofs/Arm64/PairLoads — two registers loaded side by side

A load of two registers is lifted to two loads, one after the other.  Each takes the base register as it
finds it, so where the first register is the base, the address of the second word is told by the first
word and not by the base (`Lifting.read_pairLoad`).  Everywhere else both words are where the base says.
-/

namespace Deflatten

open Encoding

/-! ## Words -/

/-- **A load of two registers** at an offset from a general register. -/
structure PairLoad where
  /-- Whether the registers are loaded whole, or their lower halves. -/
  wide : Bool
  /-- The offset, in units of what is loaded. -/
  imm : BitVec 7
  /-- The register loaded second. -/
  rt2 : Fin 32
  /-- The base. -/
  rn : Fin 32
  /-- The register loaded first. -/
  rt : Fin 32
  rt_ne_rt2 : rt ≠ rt2
  rn_ne_stack : rn ≠ 31
  rn_ne_frame : rn ≠ 29

namespace PairLoad

/-- The bytes loaded into one register. -/
def size (d : PairLoad) : Int := width d.wide

/-- The offset in bytes. -/
def offset (d : PairLoad) : Int := d.imm.toInt * d.size

/-- The fields of the word. -/
def fields (d : PairLoad) : List (Nat × Nat) :=
  [(2, d.wide.toNat * 2), (3, 0b101), (1, 0), (3, 0b010), (1, 1), (7, d.imm.toNat), (5, d.rt2),
    (5, d.rn), (5, d.rt)]

theorem decode_of_shows {w : Encoding} (d : PairLoad) (hshows : w.Shows d.fields) (k : Decoder)
    (pc : UInt64) : Form.decode k w pc = .pair true d.rt d.rt2 d.rn d.offset d.size none := by
  simp only [fields, Shows, fieldBits, Nat.reduceAdd, Nat.reducePow,
    Nat.reduceMod] at hshows
  obtain ⟨hopc, hclass, hv, hmode, hload, himm, ht2, hn, ht, -⟩ := hshows
  have hfits := fits_or (fits_or (fits_slice hclass) (fits_slice hv))
    (fits_slice hmode)
  simp (disch := decide) only [Form.decode, Call.decode?, Form.isConditionSet, fits_apart hfits,
    fits_within hfits, Bool.false_eq_true, Bool.false_and, ↓reduceIte]
  have hsigned : w.signed 15 7 = d.imm.toInt := signed_of_slice himm
  have hisLoad : w.bit 22 = true := bit_of_slice hload
  rw [Nat.mod_eq_of_lt d.rt.isLt] at ht
  rw [Nat.mod_eq_of_lt d.rt2.isLt] at ht2
  rw [Nat.mod_eq_of_lt d.rn.isLt] at hn
  simp only [Form.pairOf, Encoding.rd, Encoding.ra, Encoding.rn, hopc, hmode, hsigned, hisLoad, ht, ht2,
    hn, offset, size]
  cases d.wide <;> rfl

theorem decode_assemble (d : PairLoad) (k : Decoder) (pc : UInt64) :
    Form.decode k (.assemble d.fields) pc = .pair true d.rt d.rt2 d.rn d.offset d.size none :=
  d.decode_of_shows (shows_assemble (by simp [fields, fieldBits])) k pc

end PairLoad

/-! ## Loads off a general register -/

namespace Machine

variable {m : Machine} {rn : Nat}

/-- The address at an offset from a general register. -/
theorem value_memory (hstack : rn ≠ 31) (hframe : rn ≠ 29) (m : Machine) (off size : Int) :
    (Lifting.memory rn off size).kind ≠ .stack ∧
      m.value (Lifting.memory rn off size) = m.read (.reg rn) + .ofInt off := by
  unfold Lifting.memory
  rw [if_neg (by simp [Reg.stack, Reg.frame, hstack, hframe])]
  split
  · next hoff =>
    subst hoff
    refine ⟨show Kind.reg ≠ .stack by decide, ?_⟩
    rw [value_register, truncate_eight]
    exact (UInt64.add_zero _).symm
  · refine ⟨show Kind.expr ≠ .stack by decide, ?_⟩
    rw [value_derived rfl (Operand.sized_of_var? rfl) (Operand.fills_of rfl (Operand.sized_imm _ _)),
      value_register, value_imm, truncate_eight, truncate_eight]
    exact truncate_eight _

theorem loaded_eq (hstack : rn ≠ 31) (hframe : rn ≠ 29) (m : Machine) (off size : Int) (rt : Nat)
    (width : Int) : m.loaded rn off size rt width =
      m.setReg rt width (m.load (m.read (.reg rn) + .ofInt off)) := by
  obtain ⟨hk, hvalue⟩ := value_memory hstack hframe m off size
  simp only [loaded, if_neg hk, hvalue]

theorem read_setReg (m : Machine) (rd : Nat) (size : Int) (x : UInt64) (v : Var) :
    (m.setReg rd size x).read v = if rd ≠ 31 ∧ v = .reg rd then truncate x size else m.read v := by
  unfold setReg
  split
  · next h => rw [if_neg fun hand => hand.1 h]
  · next h =>
    rw [read_assign_register]
    exact if_congr ⟨fun heq => ⟨h, heq.symm⟩, fun hand => hand.2.symm⟩ rfl rfl

theorem mem_setReg (m : Machine) (rd : Nat) (size : Int) (x : UInt64) :
    (m.setReg rd size x).mem = m.mem ∧ (m.setReg rd size x).calls = m.calls := by
  unfold setReg
  split
  · exact ⟨rfl, rfl⟩
  · exact ⟨mem_assign .., calls_assign ..⟩

end Machine

namespace PairLoad

variable (d : PairLoad) (m : Machine)

/-- What is loaded first. -/
def first : UInt64 := truncate (m.load (m.read (.reg d.rn) + .ofInt d.offset)) d.size

/-- **The base that the first load leaves behind.** -/
def laterBase : UInt64 := if d.rt = d.rn then d.first m else m.read (.reg d.rn)

/-- What is loaded second. -/
def second : UInt64 := truncate (m.load (d.laterBase m + .ofInt (d.offset + d.size))) d.size

theorem exec_eq {x : Inst} (hx : x.raw = .assemble d.fields) (o : LiftOptions) (p : Option Sides) :
    ∃ m', x.exec o m p = .ok (m', p) ∧ m'.mem = m.mem ∧ m'.calls = m.calls ∧
      ∀ v, m'.read v =
        if d.rt2.val ≠ 31 ∧ v = .reg d.rt2 then d.second m
        else if d.rt.val ≠ 31 ∧ v = .reg d.rt then d.first m else m.read v := by
  have hform : Form.decode o.decoder x.raw x.addr =
      .pair true d.rt d.rt2 d.rn d.offset d.size none := hx ▸ d.decode_assemble _ _
  have hstack : d.rn.val ≠ 31 := fun h => d.rn_ne_stack (Fin.ext h)
  have hframe : d.rn.val ≠ 29 := fun h => d.rn_ne_frame (Fin.ext h)
  let m₁ := m.setReg d.rt d.size (m.load (m.read (.reg d.rn) + .ofInt d.offset))
  have hbase : m₁.read (.reg d.rn) = d.laterBase m := by
    refine (Machine.read_setReg ..).trans (if_congr ⟨fun h => ?_, fun h => ?_⟩ rfl rfl)
    · have := Var.reg.inj h.2
      exact Fin.ext (by omega)
    · rw [h]
      exact ⟨hstack, rfl⟩
  refine ⟨m₁.setReg d.rt2 d.size (m₁.load (m₁.read (.reg d.rn) + .ofInt (d.offset + d.size))), ?_, ?_, ?_,
    fun v => ?_⟩
  · simp only [Inst.exec, hform, Machine.transferred, Machine.stepped, if_true,
      Machine.loaded_eq hstack hframe, m₁]
  · exact (Machine.mem_setReg ..).1.trans (Machine.mem_setReg ..).1
  · exact (Machine.mem_setReg ..).2.trans (Machine.mem_setReg ..).2
  · rw [hbase, Machine.read_setReg, Machine.read_setReg, Machine.load, (Machine.mem_setReg ..).1]
    rfl

end PairLoad

namespace Lifting

/-- **A load of two registers**, anywhere in a block: the lifter accepts it, and its code loads the first
register from the base and the offset.  It loads the second from the word after, counted from the base as
the first load leaves it, which is what that load found if the base was its register.  Everything else
that an instruction can see is as it was. -/
theorem read_pairLoad (o : LiftOptions) {before : List Inst} {s : Lifting}
    (hbefore : Lifting.insts o {} before = .ok s) {m₀ m : Machine}
    (hm : m₀.perform s.code = .done m) (d : PairLoad) {x : Inst} (hx : x.raw = .assemble d.fields) :
    ∃ t is m', s.inst o x = .ok t ∧ t.code = s.code ++ is ∧ m.perform is = .done m' ∧
      (d.rt ≠ 31 → m'.read (.reg d.rt) = d.first m) ∧
      (d.rt2 ≠ 31 → m'.read (.reg d.rt2) = d.second m) ∧
      (∀ v, Visible v → (d.rt = 31 ∨ v ≠ .reg d.rt) → (d.rt2 = 31 ∨ v ≠ .reg d.rt2) →
        m'.read v = m.read v) ∧
      m'.mem = m.mem ∧ m'.calls = m.calls := by
  have hsound : s.Sound m := (sound_empty m₀).of_insts hbefore (List.nil_append _).symm hm
  have hform : Form.decode o.decoder x.raw x.addr =
      .pair true d.rt d.rt2 d.rn d.offset d.size none := hx ▸ d.decode_assemble _ _
  obtain ⟨t, ht⟩ : ∃ t, s.inst o x = .ok t := by
    rw [inst, hform]
    exact ⟨_, rfl⟩
  have hmiss : s.misses o x = false := by
    rw [misses, hform]
    rfl
  obtain ⟨m₁, hexec, hmem, hcalls, hread⟩ := d.exec_eq m hx o (s.pending m)
  have hrenders := hsound.renders_inst ht hmiss
  rw [hexec] at hrenders
  obtain ⟨is, m', hcode, hrun, -, hagree, -⟩ := hrenders
  have hne : d.rt.val ≠ d.rt2.val := fun h => d.rt_ne_rt2 (Fin.ext h)
  refine ⟨t, is, m', ht, hcode, hrun, fun h => ?_, fun h => ?_, fun v hv h h' => ?_,
    hagree.mem_eq.trans hmem, hagree.calls_eq.trans hcalls⟩
  · rw [hagree.read_eq _ (visible_reg d.rt.isLt), hread, if_neg, if_pos ⟨fun h' => h (Fin.ext h'), rfl⟩]
    intro hand
    have := Var.reg.inj hand.2
    omega
  · rw [hagree.read_eq _ (visible_reg d.rt2.isLt), hread, if_pos ⟨fun h' => h (Fin.ext h'), rfl⟩]
  · rw [hagree.read_eq v hv, hread, if_neg, if_neg]
    · exact fun hand => h.elim (fun h => hand.1 (congrArg Fin.val h)) fun h => h hand.2
    · exact fun hand => h'.elim (fun h => hand.1 (congrArg Fin.val h)) fun h => h hand.2

/-- The base is loaded first, from a word that was stored just before. -/
theorem read_pairLoad_overBase :
    let x0 := Operand.register 0 8
    let x1 := Operand.register 1 8
    let x2 := Operand.register 2 8
    let s : Lifting :=
      { code := [{ op := .stx, l := x1, r := x0 },
          { op := .stx, l := x2, r := .derived .add x0 (.imm 8 8) .empty }] }
    let m₀ : Machine := ((({} : Machine).assign x0 4096).assign x1 7).assign x2 9
    let m := (m₀.store 4096 7).store 4104 9
    let d : PairLoad := ⟨true, 0, 3, 0, 0, by decide, by decide, by decide⟩
    let x : Inst := ⟨0x1008, .assemble d.fields, "", ""⟩
    Lifting.insts {} {} (MachineFunc.ofWords 0x1000 [0xF9000001, 0xF9000402]) = .ok s ∧
    m₀.perform s.code = .done m ∧
    ∃ t is m', s.inst {} x = .ok t ∧ t.code = s.code ++ is ∧ m.perform is = .done m' ∧
      m'.read (.reg 0) = 7 ∧ m'.read (.reg 3) = 0 := by
  intro x0 x1 x2 s m₀ m d x
  have hs : Lifting.insts {} {} (MachineFunc.ofWords 0x1000 [0xF9000001, 0xF9000402]) = .ok s := by
    decide +kernel
  have hm : m₀.perform s.code = .done m := by decide +kernel
  obtain ⟨t, is, m', ht, hcode, hrun, h0, h3, -⟩ := read_pairLoad {} hs hm d (x := x) rfl
  have hfirst : d.first m = 7 := by decide +kernel
  have hsecond : d.second m = 0 := by decide +kernel
  exact ⟨hs, hm, t, is, m', ht, hcode, hrun, (h0 (by decide)).trans hfirst,
    (h3 (by decide)).trans hsecond⟩

end Lifting

/-! ## Where the base is lost -/

namespace MachineFunc

/-- Stores two words, loads both with the base as the first register, and returns the second. -/
def loadsOverBase : List Inst := ofWords 0x1000
  [0xF9000001, 0xF9000402, 0xA9400C00, 0xAA0303E0, 0xD65F03C0]

/-- **The second word is nine, but zero is returned**: it is looked for at the first word and eight
bytes. -/
theorem loads_loadsOverBase :
    ∃ f, (ofInsts "f" loadsOverBase).lift {} = .ok f ∧
      ∀ limit : Int, 6 ≤ limit →
        ∃ e, f.run ⟨[(.reg 0, 4096), (.reg 1, 7), (.reg 2, 9)]⟩ limit = .ok e ∧ e.error? = none ∧
          e.trace.ret = 0 := by
  let x0 := Operand.register 0 8
  let x1 := Operand.register 1 8
  let x2 := Operand.register 2 8
  let x3 := Operand.register 3 8
  let next := Operand.derived .add x0 (.imm 8 8) .empty
  let code : List Insn :=
    [{ op := .stx, l := x1, r := x0 }, { op := .stx, l := x2, r := next },
      { op := .ldx, l := x0, d := x0 }, { op := .ldx, l := next, d := x3 }, .mov x3 x0, .ret x0]
  let m : Machine := { vars := ⟨[(.reg 0, 4096), (.reg 1, 7), (.reg 2, 9)]⟩ }
  let m' := ((((m.store 4096 7).store 4104 9).assign x0 7).assign x3 0).assign x0 0
  have hvisit : Block.visit { serial := 0, code := some code, next := noBlock } m =
      .stops m' 6 (.returned 0) := by decide +kernel
  exact ⟨ofCode code, by decide +kernel,
    fun limit hlimit => run_ofCode (by decide +kernel) hvisit hlimit⟩

end MachineFunc

end Deflatten

import Deflatten.Proofs.Arm64.FlagEncodings
import Deflatten.Proofs.Arm64.Transparency

/-!
# Proofs/Arm64/FlagJumps — the jump after an instruction that sets the flags

An instruction that sets the flags is lifted to a comparison, and a conditional branch that comes
later to a jump on it.  Whatever stands in the block before the first, and whatever between the two that
leaves the flags alone, the jump is taken in the interpreter exactly when the condition holds of the
flags, except where the comparison gets the condition wrong (`Lifting.step_flagsJump`).
-/

namespace Deflatten

open Encoding

/-! ## The comparison kept in place of the flags -/

theorem Opcode.holds_eq_test {op : Opcode} (h : op.isConditional = true) (x y : UInt64) (size : Int) :
    op.holds x y size = op.test (word x size) (word y size) := by
  rw [holds, test?_eq_test x y size h, Option.getD_some]

/-- Whether a jump is taken on the comparison kept in place of the flags. -/
def FlagSetting.test (f : FlagSetting) (op : Opcode) : Bool :=
  op.test (f.setter.left f.x f.y) (f.setter.right f.y)

/-- **The sides that stand for the flags** decide jumps as the two words do. -/
def Sides.StandsFor (q : Sides) (f : FlagSetting) : Prop :=
  ∀ op : Opcode, op.isConditional = true → op.holds q.l q.r (max q.lSize q.rSize) = f.test op

theorem standsFor_ofAddSub (sub : Bool) (x y : UInt64) (size : Int) :
    (Sides.ofAddSub sub x y size).StandsFor
      ⟨if sub then .difference else .sum, bitWidth size, word x size, word y size⟩ := by
  intro op hop
  have hmax : max (Sides.ofAddSub sub x y size).lSize (Sides.ofAddSub sub x y size).rSize = size :=
    max_self size
  rw [hmax, Opcode.holds_eq_test hop]
  cases sub with
  | true => rfl
  | false =>
    have hneg : word (Opcode.neg.result y 0 size) size = -word y size := by
      rw [show Opcode.neg.result y 0 size = truncate (-y) size from rfl, word_truncate, word_neg]
    exact congrArg (fun r => op.test (word x size) r) hneg

theorem standsFor_and (x y : UInt64) (size : Int) :
    (⟨Opcode.and.result x y size, 0, size, size⟩ : Sides).StandsFor
      ⟨.conjunction, bitWidth size, word x size, word y size⟩ := by
  intro op hop
  have hand : word (Opcode.and.result x y size) size = word x size &&& word y size := by
    rw [show Opcode.and.result x y size = truncate (x &&& y) size from rfl, word_truncate, word_and]
  rw [show max size size = size from max_self size, Opcode.holds_eq_test hop, hand, word_zero]
  rfl

theorem FlagInst.width_setting (i : FlagInst) (m : Machine) : (i.setting m).width = regBits i.wide := by
  unfold setting
  split <;> rfl

namespace Inst

variable {o : LiftOptions} {x : Inst} {m : Machine} {i : FlagInst}

/-- **An instruction that sets the flags** leaves a comparison behind that stands for them. -/
theorem exec_of_form (h : Form.decode o.decoder x.raw x.addr = i.form) (m : Machine)
    (p : Option Sides) : ∃ m' q, x.exec o m p = .ok (m', some q) ∧ q.StandsFor (i.setting m) := by
  unfold FlagInst.form FlagInst.setting at *
  cases hop : i.op with
  | addSubImm sub up imm rn =>
    have hstands := standsFor_ofAddSub sub (truncate (m.read (.reg rn)) (width i.wide))
      (truncate (UInt64.ofNat (imm.toNat * if up then 4096 else 1)) (width i.wide))
      (width i.wide)
    rw [word_truncate, word_truncate, word_addSubImm] at hstands
    simp only [hop] at h
    simp only [exec, h]
    exact ⟨_, _, rfl, hstands⟩
  | addSubReg sub b rn =>
    have hstands := standsFor_ofAddSub sub (m.reg rn (width i.wide))
      (m.shifted b.rm (width i.wide) b.shift) (width i.wide)
    rw [m.word_reg, m.word_shifted] at hstands
    simp only [hop] at h
    simp only [exec, h]
    exact ⟨_, _, rfl, hstands⟩
  | andImm b rn =>
    have hstands := standsFor_and (m.reg rn (width i.wide))
      (m.logicValue (width i.wide) (.imm (UInt64.ofNat b.value.toNat))) (width i.wide)
    rw [m.word_reg, Machine.logicValue, word_truncate, word_ofNat, BitVec.ofNat_toNat,
      BitVec.setWidth_eq] at hstands
    simp only [hop] at h
    simp only [exec, h]
    exact ⟨_, _, rfl, hstands⟩
  | andReg invert b rn =>
    have hstands := standsFor_and (m.reg rn (width i.wide))
      (m.logicValue (width i.wide) (.reg b.rm b.shift invert)) (width i.wide)
    rw [m.word_reg, m.word_logicValue] at hstands
    simp only [hop] at h
    simp only [exec, h]
    exact ⟨_, _, rfl, hstands⟩

/-- **An instruction that is modelled, is no call and leaves the flags alone.** -/
structure KeepsFlags (o : LiftOptions) (x : Inst) : Prop where
  modelled : (Form.decode o.decoder x.raw x.addr).isModelled = true
  noCall : (Form.decode o.decoder x.raw x.addr).isCall = false
  leaves : x.raw.setsFlags = false

theorem KeepsFlags.setsFlags_decode (h : x.KeepsFlags o) :
    (Form.decode o.decoder x.raw x.addr).setsFlags = false :=
  Bool.eq_false_iff.mpr fun hsets =>
    Bool.false_ne_true (h.leaves.symm.trans (Form.setsFlags_of_decode hsets))

/-- **An instruction that leaves the flags alone** leaves the comparison as it stands. -/
theorem KeepsFlags.exec (h : x.KeepsFlags o) (m : Machine) (q : Sides) :
    ∃ m', x.exec o m (some q) = .ok (m', some q) := by
  have hmodelled := h.modelled
  have hcall := h.noCall
  have hkeeps := h.setsFlags_decode
  unfold Inst.exec
  cases hform : Form.decode o.decoder x.raw x.addr with
  | nothing | constant | insert | multiply | bitfield | shiftBy | conditionSet | pair =>
    exact ⟨_, rfl⟩
  | call =>
    rw [hform] at hcall
    cases hcall
  | unmodelled =>
    rw [hform] at hmodelled
    cases hmodelled
  | addSubImm sub flags | addSubReg sub flags =>
    rw [hform] at hkeeps
    obtain rfl : flags = false := hkeeps
    exact ⟨_, rfl⟩
  | logical op flags =>
    rw [hform] at hkeeps
    obtain rfl : flags = false := hkeeps
    dsimp only
    split
    · exact ⟨_, rfl⟩
    · exact ⟨_, rfl⟩
  | access t =>
    rw [hform] at hmodelled
    cases t with
    | store | load => exact ⟨_, rfl⟩
    | other => cases hmodelled

end Inst

/-! ## Lifted blocks -/

namespace Lifting

variable {o : LiftOptions} {s t : Lifting} {m : Machine} {x : Inst} {q : Sides} {i : FlagInst}

theorem exists_inst_of_isModelled (h : (Form.decode o.decoder x.raw x.addr).isModelled = true)
    (hc : (Form.decode o.decoder x.raw x.addr).testsFlags = true → s.flags? ≠ none) :
    ∃ t, s.inst o x = .ok t := by
  obtain ⟨as, hlog, -⟩ := exists_log h hc
  exact ⟨_, by rw [inst_eq_log, hlog]; rfl⟩

theorem exists_inst_of_form (h : Form.decode o.decoder x.raw x.addr = i.form) (s : Lifting) :
    (∃ t, s.inst o x = .ok t) ∧ s.misses o x = false := by
  have hkind : i.form.isModelled = true ∧ i.form.testsFlags = false ∧
      i.form.stackCopy? = none := by
    unfold FlagInst.form
    cases i.op with
    | addSubImm sub => cases sub <;> exact ⟨rfl, rfl, rfl⟩
    | addSubReg | andImm | andReg => exact ⟨rfl, rfl, rfl⟩
  rw [← h] at hkind
  obtain ⟨hmodelled, htests, hcopy⟩ := hkind
  refine ⟨exists_inst_of_isModelled hmodelled (by simp [htests]), ?_⟩
  rw [misses, hcopy]
  rfl

/-- **From `s` to `t` the comparison becomes `q`**: the code appended between the two runs to its end,
and what is then known is true. -/
def Leaves (s : Lifting) (m : Machine) (t : Lifting) (q : Sides) : Prop :=
  ∃ is m', t.code = s.code ++ is ∧ m.perform is = .done m' ∧ t.Sound m' ∧ t.pending m' = some q

theorem Leaves.after {u : Lifting} {is : List Insn} {m₁ : Machine} (h : t.Leaves m₁ u q)
    (hcode : t.code = s.code ++ is) (hrun : m.perform is = .done m₁) : s.Leaves m u q := by
  obtain ⟨js, m₂, hcode', hrun', hrest⟩ := h
  exact ⟨is ++ js, m₂, by rw [hcode', hcode, List.append_assoc],
    Machine.perform_append_eq_done.mpr ⟨m₁, hrun, hrun'⟩, hrest⟩

theorem Sound.leaves_of_exec (h : s.Sound m) (hx : s.inst o x = .ok t) (hmiss : s.misses o x = false)
    {m' : Machine} (hexec : x.exec o m (s.pending m) = .ok (m', some q)) : s.Leaves m t q := by
  have hrenders := h.renders_inst hx hmiss
  rw [hexec] at hrenders
  obtain ⟨is, m₁, hcode, hrun, hsound, -, hp⟩ := hrenders
  exact ⟨is, m₁, hcode, hrun, hsound, hp⟩

theorem Sound.exists_leaves_of_form (h : s.Sound m)
    (hx : Form.decode o.decoder x.raw x.addr = i.form) :
    ∃ t q, s.inst o x = .ok t ∧ s.Leaves m t q ∧ q.StandsFor (i.setting m) := by
  obtain ⟨⟨t, ht⟩, hmiss⟩ := exists_inst_of_form hx s
  obtain ⟨m', q, hexec, hstands⟩ := Inst.exec_of_form hx m (s.pending m)
  exact ⟨t, q, ht, h.leaves_of_exec ht hmiss hexec, hstands⟩

theorem Sound.exists_leaves_of_keepsFlags (h : s.Sound m) (hp : s.pending m = some q)
    (hx : x.KeepsFlags o) : ∃ t, s.inst o x = .ok t ∧ s.Leaves m t q := by
  by_cases hmiss : s.misses o x = true
  · exact ⟨s, inst_of_misses hmiss, [], m, by simp, rfl, h, hp⟩
  · obtain ⟨c, hc, -⟩ := Option.map_eq_some_iff.mp hp
    obtain ⟨t, ht⟩ := exists_inst_of_isModelled hx.modelled (s := s) fun _ => by simp [hc]
    obtain ⟨m', hexec⟩ := hx.exec m q
    exact ⟨t, ht, h.leaves_of_exec ht (by simpa using hmiss) (by rw [hp, hexec])⟩

/-- **Instructions that leave the flags alone** leave the comparison as it stands, in whole runs. -/
theorem Sound.exists_leaves_insts {xs : List Inst} (h : s.Sound m) (hp : s.pending m = some q)
    (hxs : ∀ x ∈ xs, x.KeepsFlags o) : ∃ t, s.insts o xs = .ok t ∧ s.Leaves m t q := by
  induction xs generalizing s m with
  | nil => exact ⟨s, rfl, [], m, by simp, rfl, h, hp⟩
  | cons x xs ih =>
    obtain ⟨t, ht, is, m₁, hcode, hrun, hsound, hp₁⟩ :=
      h.exists_leaves_of_keepsFlags hp (hxs x (.head _))
    obtain ⟨u, hu, hrest⟩ := ih hsound hp₁ fun y hy => hxs y (.tail _ hy)
    exact ⟨u, by rw [insts, ht]; exact hu, hrest.after hcode hrun⟩

/-- The branch on a condition that has a jump is that jump, on the pending comparison. -/
theorem exists_branch_of_pending (hp : s.pending m = some q) {cond : Condition} {op : Opcode}
    (hcond : cond.jump? = some op) (target : UInt64) (k n : Nat) :
    ∃ l r, s.branch o (some k) (some n) (.onFlags cond target) = .ok [.branch op l r k] ∧
      m.step (.branch op l r k) =
        if op.holds q.l q.r (max q.lSize q.rSize) then .jump k else .next m := by
  obtain ⟨c, hc, rfl⟩ := Option.map_eq_some_iff.mp hp
  have hop := Condition.isConditional_of_jump? hcond
  have hjump : s.flagsJump o cond = .ok (op, c) := by
    rw [flagsJump, hcond, hc]
  obtain ⟨taken, htest⟩ := op.test?_of_isConditional hop (m.value c.l) (m.value c.r)
    (max c.l.size c.r.size)
  refine ⟨c.l, c.r, ?_, ?_⟩
  · simp only [branch, hjump]
    rfl
  · rw [Machine.step_conditional m (t := .branch op c.l c.r k) htest]
    simp only [Compare.sides, Opcode.holds, htest, Option.getD_some]
    rfl

/-- **The jump for a branch on the flags**, after an instruction that sets them, anywhere in a block and
past instructions that leave them alone: the lifter accepts the words, and in the interpreter the jump is
taken exactly when the condition holds of the flags, except where the comparison kept in their place gets
it wrong. -/
theorem step_flagsJump (o : LiftOptions) (hk : o.decoder.logicalImm? = ({} : Decoder).logicalImm?)
    {before between : List Inst} {s : Lifting} (hbefore : Lifting.insts o {} before = .ok s)
    {m₀ m : Machine} (hm : m₀.perform s.code = .done m) (i : FlagInst) {x : Inst}
    (hx : x.raw = .assemble i.fields) (hbetween : ∀ y ∈ between, y.KeepsFlags o) {cond : Condition}
    (hcond : cond ∈ Condition.comparing) (imm : BitVec 19) {z : Inst}
    (hz : z.raw = .assemble (cond.branchFields imm)) (k n : Nat) :
    ∃ br t is m' j, z.branch? = some br ∧ br.target? = some (jumpFrom z.addr imm.toInt) ∧
      s.insts o (x :: between) = .ok t ∧ t.code = s.code ++ is ∧ m.perform is = .done m' ∧
      t.branch o (some k) (some n) br = .ok [j] ∧
      m'.step j =
        if cond.holds (i.setting m).nzcv ^^ (i.setting m).strays cond then .jump k else .next m' := by
  have hsound : s.Sound m := (sound_empty m₀).of_insts hbefore (List.nil_append _).symm hm
  have hform : Form.decode o.decoder x.raw x.addr = i.form := hx ▸ i.decode_assemble hk x.addr
  obtain ⟨s₁, q, hs₁, ⟨is, m₁, hcode, hrun, hsound₁, hp⟩, hstands⟩ := hsound.exists_leaves_of_form hform
  obtain ⟨t, ht, hleaves⟩ := hsound₁.exists_leaves_insts hp hbetween
  obtain ⟨js, m', hcode', hrun', -, hp'⟩ := hleaves.after hcode hrun
  obtain ⟨op, hop⟩ := Condition.exists_jump? hcond
  obtain ⟨l, r, hbranch, hstep⟩ := exists_branch_of_pending hp' hop (jumpFrom z.addr imm.toInt) k n
  refine ⟨_, t, js, m', _, ?_, rfl, by rw [insts, hs₁]; exact ht, hcode', hrun', hbranch, ?_⟩
  · rw [Inst.branch?, hz, cond.decode?_assemble]
  · have hw : 0 < (i.setting m).width := i.width_setting m ▸ bitWidth_pos _
    rw [hstep, hstands op (Condition.isConditional_of_jump? hop), FlagSetting.test,
      (i.setting m).setter.test_eq _ _ hw hop]
    rfl

/-- A slot is compared, read as what a register holds, and overwritten before the branch. -/
theorem step_flagsJump_comparesSlot :
    let slot := Operand.stackAt 31 8 8
    let s : Lifting :=
      { held := ⟨[(2, slot), (1, .imm 5 8)]⟩
        code := [.mov (.imm 5 8) (.register 1 8), .mov (.imm 5 8) slot, .mov slot (.register 2 8)] }
    let m := ((({} : Machine).assign (.register 1 8) 5).assign slot 5).assign (.register 2 8) 5
    let i : FlagInst := ⟨true, .addSubImm true false 5 2, 31⟩
    let z : Inst := ⟨0x1018, .assemble (Condition.eq.branchFields 2), "", ""⟩
    Lifting.insts {} {} (MachineFunc.comparesSlot.take 3) = .ok s ∧
    ({} : Machine).perform s.code = .done m ∧ i.setting m = ⟨.difference, 64, 5, 5⟩ ∧
    MachineFunc.comparesSlot[6]? = some z ∧
    ∃ br t is m' j, z.branch? = some br ∧ br.target? = some 0x1020 ∧
      s.insts {} ((MachineFunc.comparesSlot.drop 3).take 3) = .ok t ∧
      t.code = s.code ++ is ∧ m.perform is = .done m' ∧
      t.branch {} (some 2) (some 1) br = .ok [j] ∧ m'.step j = .jump 2 := by
  intro slot s m i z
  have hs : Lifting.insts {} {} (MachineFunc.comparesSlot.take 3) = .ok s := by decide +kernel
  have hm : ({} : Machine).perform s.code = .done m := by decide +kernel
  have hset : i.setting m = ⟨.difference, 64, 5, 5⟩ := by decide +kernel
  have hx : (0xF100145F : Encoding) = .assemble i.fields := by decide +kernel
  have hkeep : ∀ y ∈ (MachineFunc.comparesSlot.drop 4).take 2, y.KeepsFlags {} := by
    have hall : ∀ y ∈ (MachineFunc.comparesSlot.drop 4).take 2,
        (Form.decode {} y.raw y.addr).isModelled = true ∧
          (Form.decode {} y.raw y.addr).isCall = false ∧ y.raw.setsFlags = false := by decide +kernel
    exact fun y hy => ⟨(hall y hy).1, (hall y hy).2.1, (hall y hy).2.2⟩
  obtain ⟨br, t, is, m', j, hbr, htarget, ht, hcode, hrun, hbranch, hstep⟩ :=
    step_flagsJump {} rfl hs hm i (x := ⟨0x100C, 0xF100145F, "", ""⟩) hx hkeep
      (show Condition.eq ∈ Condition.comparing by decide) 2 (z := z) rfl 2 1
  refine ⟨hs, hm, hset, by decide +kernel, br, t, is, m', j, hbr, htarget, ht, hcode, hrun, hbranch, ?_⟩
  rw [hstep, hset]
  rfl

end Lifting

/-! ## Where the comparison is wrong -/

namespace MachineFunc

/-- Adds nothing to a register, and returns two if that carries, else one. -/
def addsNothing : List Inst := ofWords 0x1000
  [0xB100001F, 0x54000062, 0xD2800020, 0xD65F03C0, 0xD2800040, 0xD65F03C0]

/-- **Adding nothing to five carries nothing out**, but the jump on the carry is taken: two is
returned. -/
theorem jumps_addsNothing :
    let i : FlagInst := ⟨true, .addSubImm false false 0 0, 31⟩
    (addsNothing.take 2).map Inst.raw =
      [.assemble i.fields, .assemble (Condition.hs.branchFields 3)] ∧
    Condition.hs.holds (i.setting { vars := ⟨[(.reg 0, 5)]⟩ }).nzcv = false ∧
    ∃ f, (ofInsts "f" addsNothing).lift {} = .ok f ∧
      ∀ limit : Int, 3 ≤ limit →
        ∃ e, f.run ⟨[(.reg 0, 5)]⟩ limit = .ok e ∧ e.error? = none ∧ e.trace.ret = 2 := by
  intro i
  let x0 := Operand.register 0 8
  let first : Block :=
    { serial := 0, code := some [.branch .jae x0 (.imm 0 8) 2], next := 1, succs := [1, 2] }
  let middle : Block :=
    { serial := 1, code := some [.mov (.imm 1 8) x0, .ret x0], next := noBlock, preds := [0] }
  let last : Block :=
    { serial := 2, code := some [.mov (.imm 2 8) x0, .ret x0], next := noBlock, preds := [0] }
  let f : Func := { name := "f", body := some [first, middle, last] }
  refine ⟨by decide +kernel, by decide +kernel, f, by decide +kernel, fun limit hlimit => ?_⟩
  let m : Machine := { vars := ⟨[(.reg 0, 5)]⟩ }
  have hverify : f.verify = .ok () := by decide +kernel
  have hlast : last.visit m = .stops (m.assign x0 2) 2 (.returned 2) := rfl
  have hhalts : f.HaltsIn 2 m 0 (1 + 2) (.returned 2) [] :=
    .goes rfl (show first.visit m = .goes m 1 2 from rfl) (.stops rfl hlast)
  obtain ⟨e, he, ho, -, -⟩ := Func.run_of_endsWithin
    (Func.verify_eq_ok_iff.mp hverify).toShaped.endsLast hhalts.endsWithin
    (show 1 + 2 ≤ limit.toNat by omega)
  exact ⟨e, he, Ending.halt?_eq_returned.mp ho⟩

end MachineFunc

end Deflatten

import Deflatten.Proofs.Arm64.FlagJumps
import Deflatten.Proofs.Arm64.Patterns
import Deflatten.Proofs.Arm64.PendingCompare

/-!
# Proofs/Arm64/ConditionSets — a condition as a value and as a jump

Equality of a pending comparison can be put in a register or jumped on.  The sides of a comparison have
one size, that of a register or of its lower half (`Lifting.ComparesSameWidth.of_insts`).  The jump
compares them at that size, the set at the size of its destination.  So the two agree
(`Lifting.read_conditionSet`) but for one case: a comparison of eight bytes that is set in four, where the
sides differ in their upper halves only (`Sides.blurs`).
-/

namespace Deflatten

open Encoding

/-! ## Words -/

namespace Encoding

/-- The fields of a word that sets a register to one if a condition holds, else to zero.  The word has
the opposite condition. -/
def conditionSetFields (cond : Condition) (wide : Bool) (rd : Nat) : List (Nat × Nat) :=
  [(1, wide.toNat), (10, 0b0011010100), (5, 31), (4, cond.code ^^^ 1), (2, 1), (5, 31), (5, rd)]

end Encoding

theorem Form.decode_of_shows_conditionSet {w : Encoding} {cond : Condition} {wide : Bool} {rd : Nat}
    (hshows : w.Shows (conditionSetFields cond wide rd)) (hcond : cond = .eq ∨ cond = .ne)
    (hrd : rd < 32) (k : Decoder) (pc : UInt64) :
    Form.decode k w pc = .conditionSet (cond == .eq) rd (width wide) := by
  simp only [conditionSetFields, Shows, fieldBits, Nat.reduceAdd,
    Nat.reducePow, Nat.reduceMod] at hshows
  obtain ⟨hsf, hop, hm, hinv, hop2, hn, hd, -⟩ := hshows
  have hfits := fits_or (fits_slice hop) (fits_slice hop2)
  have hwide : w.wide = wide := bit_of_slice hsf
  rw [Nat.mod_eq_of_lt hrd] at hd
  simp (disch := decide) only [decode, Call.decode?, isConditionSet, fits_apart hfits,
    fits_within hfits, Encoding.rm, Encoding.rn, Encoding.rd, Encoding.size, hwide, hm, hn, hd,
    hinv, Bool.false_eq_true, Bool.and_self, beq_self_eq_true, ↓reduceIte]
  rcases hcond with rfl | rfl
  · rw [show Condition.eq.code = 0 from rfl]
    rfl
  · rw [show Condition.ne.code = 1 from rfl]
    rfl

theorem Form.decode_conditionSet {cond : Condition} (hcond : cond = .eq ∨ cond = .ne) (wide : Bool)
    {rd : Nat} (hrd : rd < 32) (k : Decoder) (pc : UInt64) :
    Form.decode k (.assemble (conditionSetFields cond wide rd)) pc =
      .conditionSet (cond == .eq) rd (width wide) :=
  decode_of_shows_conditionSet (shows_assemble (by simp [conditionSetFields,
    fieldBits])) hcond hrd k pc

/-! ## The sizes of a comparison -/

/-- **Both sides have the size of a register** or of its lower half. -/
def Compare.SameWidth (c : Compare) : Prop := c.r.size = c.l.size ∧ IsWidth c.l.size

namespace Lifting

variable {o : LiftOptions} {s t : Lifting} {m : Machine} {c : Compare} {a : Action} {as : List Action}
  {x : Inst} {op : Opcode} {l r : Operand} {rd rn : Nat} {size : Int}

/-- The pending comparison has sides of one size. -/
def ComparesSameWidth (s : Lifting) : Prop := ∀ c, s.flags? = some c → c.SameWidth

/-- What an action records has sides of one size. -/
def Action.RecordsSameWidth : Action → Prop
  | record c => c.SameWidth
  | _ => True

theorem ComparesSameWidth.clobber (h : s.ComparesSameWidth) (v : Var) :
    (s.clobber v).ComparesSameWidth := by
  have hforget : (s.forget v).ComparesSameWidth := fun c hc => h c (flags?_forget s v ▸ hc)
  unfold Lifting.clobber saveFlags
  split
  · next c hc =>
    split
    · -- a saved comparison has the sizes that it had
      intro c' hc'
      obtain rfl := Option.some.inj hc'
      obtain ⟨hsize, hwidth⟩ := hforget c hc
      refine ⟨?_, hwidth⟩
      unfold savedCompare
      dsimp only
      split <;> exact hsize
    · exact hforget
  · exact hforget

theorem ComparesSameWidth.act (h : s.ComparesSameWidth) (ha : a.RecordsSameWidth) :
    (s.act a).ComparesSameWidth := by
  cases a with
  | record c => exact fun _ hc => Option.some.inj hc ▸ ha
  | drop => exact nofun
  | append i =>
    cases hd : i.def? with
    | none =>
      rw [Lifting.act, emit_of_def?_none hd]
      exact h
    | some v =>
      rw [Lifting.act, emit_of_def? hd]
      exact h.clobber v
  | hold | release => exact h

theorem ComparesSameWidth.replay (h : s.ComparesSameWidth) (has : ∀ a ∈ as, a.RecordsSameWidth) :
    (s.replay as).ComparesSameWidth :=
  replay_induction ComparesSameWidth.act h has

/-- **Comparisons that a form can log have sides of one size.** -/
theorem Logged.recordsSameWidth {form : Form} (ha : s.Logged o form a) (h : s.Orderly) :
    a.RecordsSameWidth := by
  cases ha with
  | record _ hsize hl hr =>
    obtain ⟨-, hlsize⟩ := hl.isSource h
    obtain ⟨-, hrsize⟩ := hr.isSource h
    exact ⟨hrsize.trans hlsize.symm, hlsize.symm ▸ hsize⟩
  | compute | test | note | call | release | drop | transfer | slot => trivial

theorem recordsSameWidth_skipLog (h : skipLog o x = .ok as) : ∀ a ∈ as, a.RecordsSameWidth := by
  unfold skipLog at h
  split at h
  · cases h
  · split at h <;> cases h <;> simp [Action.RecordsSameWidth]

/-- **The pending comparison of a lifted block has sides of one size.** -/
theorem ComparesSameWidth.of_insts {xs : List Inst} (h : s.ComparesSameWidth) (ho : s.Orderly)
    (hx : s.insts o xs = .ok t) : t.ComparesSameWidth := by
  induction xs generalizing s with
  | nil =>
    cases hx
    exact h
  | cons x xs ih =>
    rw [insts] at hx
    split at hx
    · next s₁ hs₁ =>
      have ho₁ := ho.of_inst hs₁
      obtain ⟨as, hlog, rfl⟩ := exists_log_of_inst hs₁
      have hsame := forall_mem_log hlog (fun _ => recordsSameWidth_skipLog)
        fun _ ha => ha.recordsSameWidth ho
      exact ih (h.replay hsame) ho₁ hx
    · cases hx

end Lifting

/-! ## Sets and jumps -/

namespace Sides

variable {q : Sides} {cond : Condition} {op : Opcode}

/-- **Sides of one size**, which their values fit. -/
structure SameWidth (q : Sides) : Prop where
  size_eq : q.rSize = q.lSize
  /-- They are that of a register or of its lower half. -/
  width : IsWidth q.lSize
  left : truncate q.l q.lSize = q.l
  right : truncate q.r q.lSize = q.r

/-- **Whether a set blurs a comparison**: of eight bytes that are compared, the lower four that are
looked at are equal and the upper four are not. -/
def blurs (q : Sides) (wide : Bool) : Bool :=
  !wide && q.lSize == 8 && q.l != q.r && truncate q.l 4 == truncate q.r 4

/-- Equality at the size of a destination. -/
theorem SameWidth.beq_truncate (h : q.SameWidth) (wide : Bool) :
    (truncate q.l (Encoding.width wide) == truncate q.r (Encoding.width wide)) =
      ((q.l == q.r) ^^ q.blurs wide) := by
  cases wide with
  | true => simp [Encoding.width, blurs]
  | false =>
    rcases h.width with hsize | hsize
    · have hl := h.left
      have hr := h.right
      rw [hsize] at hl hr
      simp [Encoding.width, blurs, hsize, hl, hr]
    · by_cases heq : q.l = q.r
      · simp [Encoding.width, blurs, heq]
      · have hbeq : (q.l == q.r) = false := beq_false_of_ne heq
        simp [Encoding.width, blurs, hsize, bne, hbeq]

/-- The jump compares at the size of the sides. -/
theorem SameWidth.holds_jz (h : q.SameWidth) :
    Opcode.jz.holds q.l q.r (max q.lSize q.rSize) = (q.l == q.r) := by
  rw [h.size_eq, max_self]
  show (truncate q.l q.lSize == truncate q.r q.lSize) = _
  rw [h.left, h.right]

theorem SameWidth.holds_jnz (h : q.SameWidth) :
    Opcode.jnz.holds q.l q.r (max q.lSize q.rSize) = !(q.l == q.r) := by
  rw [h.size_eq, max_self]
  show (truncate q.l q.lSize != truncate q.r q.lSize) = _
  rw [h.left, h.right]
  rfl

theorem truncate_flag (b wide : Bool) : truncate (Opcode.flag b) (width wide) = Opcode.flag b := by
  cases b <;> cases wide <;> decide

/-- **A set is the jump as a value**, unless it blurs the comparison. -/
theorem SameWidth.result_eq (h : q.SameWidth) (hcond : cond = .eq ∨ cond = .ne)
    (hop : cond.jump? = some op) (wide : Bool) :
    (if cond == .eq then Opcode.setz else .setnz).result q.l q.r (Encoding.width wide) =
      Opcode.flag (op.holds q.l q.r (max q.lSize q.rSize) ^^ q.blurs wide) := by
  rcases hcond with rfl | rfl
  · cases hop
    rw [h.holds_jz, ← h.beq_truncate]
    exact truncate_flag _ wide
  · cases hop
    rw [h.holds_jnz, Bool.not_xor, ← h.beq_truncate]
    exact truncate_flag _ wide

end Sides

theorem Compare.SameWidth.sides {c : Compare} (h : c.SameWidth) (hkept : c.Kept) (m : Machine) :
    (c.sides m).SameWidth :=
  ⟨h.1, h.2, hkept.left.cut m, by
    rw [Compare.sides, ← h.1]
    exact hkept.right.cut m⟩

namespace Lifting

variable {o : LiftOptions} {s : Lifting} {m : Machine} {c : Compare} {cond : Condition} {wide : Bool}
  {rd : Nat} {x : Inst}

/-- What registers hold plays no part in appending an instruction. -/
theorem code_emit_held (s : Lifting) (k : Holdings) (i : Insn) :
    (({ s with held := k } : Lifting).emit i).code = (s.emit i).code := by
  cases hd : i.def? with
  | none => simp only [emit_of_def?_none hd, code_push]
  | some v => simp only [emit_of_def? hd, code_push, (s.clobber_held k v).1]

/-- **The code of a set** puts one or zero in its register, whatever the machine. -/
theorem exists_perform_conditionSet (hkept : c.Kept) (hc : s.flags? = some c) (equal : Bool)
    (hrd : rd < 31) (size : Int) (m : Machine) :
    ∃ is m', (s.emitTo (if equal then .setz else .setnz) c.l c.r rd size).code = s.code ++ is ∧
      m.perform is = .done m' ∧
      m'.read (.reg rd) =
        (if equal then Opcode.setz else .setnz).result (m.value c.l) (m.value c.r) size := by
  -- with no register tracked, what is known is true of any machine
  let bare : Lifting := { s with held := .empty }
  have hsound : bare.Sound m :=
    ⟨nofun, nofun, nofun, fun hc' => Option.some.inj (hc.symm.trans hc') ▸ hkept⟩
  obtain ⟨is, m', hcode, hrun, -, hagree, -⟩ :=
    hsound.computes_conditionSet hc equal (show rd < 32 by omega) size
  have hne : rd ≠ 31 := by omega
  refine ⟨is, m', ?_, hrun, ?_⟩
  · simp only [emitTo, destination?, if_neg hne, bare, code_emit_held] at hcode ⊢
    exact hcode
  · rw [hagree.read_eq _ (visible_reg (by omega)), Machine.setReg, if_neg hne,
      Machine.read_assign_register, if_pos rfl]
    cases equal <;> simp [Opcode.result, Opcode.compute?]

/-- **A condition set agrees with the branch on it.**  For every comparison that can be pending in a
block, every destination and every machine: the lifter accepts the set and the branch, the code of the
set puts one in its register exactly when the jump is taken, and else zero.  The one exception is
a comparison of eight bytes that is set in four and whose sides differ in their upper halves only: there
it is the other way round. -/
theorem read_conditionSet (o : LiftOptions) {before : List Inst} {s : Lifting} {c : Compare}
    (hbefore : Lifting.insts o {} before = .ok s) (hc : s.flags? = some c) {cond : Condition}
    (hcond : cond = .eq ∨ cond = .ne) (wide : Bool) {rd : Nat} (hrd : rd < 31) {x : Inst}
    (hx : x.raw = .assemble (conditionSetFields cond wide rd)) (m : Machine)
    (target : UInt64) (k n : Nat) :
    ∃ t is m' j taken, s.inst o x = .ok t ∧ t.code = s.code ++ is ∧ m.perform is = .done m' ∧
      s.branch o (some k) (some n) (.onFlags cond target) = .ok [j] ∧
      m.step j = (if taken then .jump k else .next m) ∧
      m'.read (.reg rd) = Opcode.flag (taken ^^ (c.sides m).blurs wide) := by
  have hkept : c.Kept := (orderly_empty.of_insts hbefore).kept hc
  have hsame : (c.sides m).SameWidth :=
    Compare.SameWidth.sides (ComparesSameWidth.of_insts (s := {}) nofun orderly_empty hbefore c hc) hkept m
  obtain ⟨op, hop⟩ : ∃ op, cond.jump? = some op := by
    rcases hcond with rfl | rfl <;> exact ⟨_, rfl⟩
  obtain ⟨l, r, hbranch, hstep⟩ := exists_branch_of_pending (o := o) (m := m) (q := c.sides m)
    (congrArg (Option.map (Compare.sides m)) hc) hop target k n
  obtain ⟨is, m', hcode, hrun, hread⟩ := exists_perform_conditionSet hkept hc (cond == .eq)
    hrd (width wide) m
  have hform : Form.decode o.decoder x.raw x.addr = .conditionSet (cond == .eq) rd (width wide) :=
    hx ▸ Form.decode_conditionSet hcond wide (by omega) _ _
  refine ⟨_, is, m', _, _, ?_, hcode, hrun, hbranch, hstep, ?_⟩
  · simp only [inst, hform, hc]
  · rw [hread]
    exact hsame.result_eq hcond hop wide

/-- A comparison that was saved before one of its registers changed. -/
theorem read_conditionSet_savedCompare :
    let c : Compare := ⟨.register 40 8, .register 41 8⟩
    let s : Lifting :=
      { held := ⟨[(1, .imm 0 8)]⟩, flags? := some c
        code := [.mov (.register 1 8) (.register 40 8), .mov (.register 2 8) (.register 41 8),
          .mov (.imm 0 8) (.register 1 8)] }
    let x : Inst := ⟨0x1008, .assemble (conditionSetFields .eq true 0), "", ""⟩
    let m := (({} : Machine).assign c.l 7).assign c.r 7
    Lifting.insts {} {} (MachineFunc.ofWords 0x1000 [0xEB02003F, 0xD2800001]) = .ok s ∧
    ∃ t is m' j taken, s.inst {} x = .ok t ∧ t.code = s.code ++ is ∧ m.perform is = .done m' ∧
      s.branch {} (some 2) (some 1) (.onFlags .eq 0x1020) = .ok [j] ∧
      m.step j = (if taken then .jump 2 else .next m) ∧
      m'.read (.reg 0) = Opcode.flag (taken ^^ false) := by
  intro c s x m
  have hs : Lifting.insts {} {} (MachineFunc.ofWords 0x1000 [0xEB02003F, 0xD2800001]) = .ok s := by
    decide +kernel
  exact ⟨hs, read_conditionSet {} hs rfl (.inl rfl) true (show 0 < 31 by decide) rfl m 0x1020 2 1⟩

end Lifting

/-! ## Where the set is wrong -/

namespace MachineFunc

/-- Compares two registers, and returns one in the lower half of a register if they are equal, else
zero. -/
def setsEqual : List Inst := ofWords 0x1000 [0xEB02003F, 0x1A9F17E0, 0xD65F03C0]

/-- **Two to the 32 is not zero**, and the jump on their equality is not taken, but one is returned. -/
theorem sets_setsEqual :
    let m : Machine := { vars := ⟨[(.reg 1, 4294967296), (.reg 2, 0)]⟩ }
    (∃ s j, Lifting.insts {} {} (setsEqual.take 1) = .ok s ∧
      s.branch {} (some 2) (some 1) (.onFlags .eq 0x1020) = .ok [j] ∧ m.step j = .next m) ∧
    ∃ f, (ofInsts "f" setsEqual).lift {} = .ok f ∧
      ∀ limit : Int, 2 ≤ limit →
        ∃ e, f.run m.vars limit = .ok e ∧ e.error? = none ∧ e.trace.ret = 1 := by
  intro m
  let x0 := Operand.register 0 8
  let x1 := Operand.register 1 8
  let x2 := Operand.register 2 8
  let code : List Insn := [⟨.setz, x1, x2, .register 0 4⟩, .ret x0]
  have hvisit : Block.visit { serial := 0, code := some code, next := noBlock } m =
      .stops (m.assign x0 1) 2 (.returned 1) := by decide +kernel
  refine ⟨⟨{ flags? := some ⟨x1, x2⟩ }, .branch .jz x1 x2 2, by decide +kernel, rfl, rfl⟩,
    ofCode code, by decide +kernel, fun limit hlimit => run_ofCode (by decide +kernel) hvisit hlimit⟩

end MachineFunc

end Deflatten

import Deflatten.Proofs.Arm64.Meaning
import Deflatten.Proofs.Microcode.FixedWidth

/-!
# Proofs/Arm64/Sources — operands that have a value

The sources of lifted instructions are constants, registers, slots and operations on them.  Each has a
value in every machine, cut to its size (`Operand.Sized`), so a data instruction always sets its
destination (`Machine.step_data`).
-/

namespace Deflatten

/-! ## Operands with a value -/

namespace Opcode

variable {op : Opcode} {x y : UInt64} {size : Int}

/-- A data operation has a result, cut to its size. -/
theorem compute?_of_isData (h : op.isData = true) (x y : UInt64) (size : Int) :
    op.compute? x y size = some (op.result x y size) ∧
      truncate (op.result x y size) size = op.result x y size := by
  cases op <;> first | exact absurd h (by decide) | simp [result, compute?]

/-- A data operation writes its destination, and control goes on after it. -/
theorem writes_of_isData (h : op.isData = true) : op.definesDest = true ∧ op.endsBlock = false := by
  cases op <;> first | exact absurd h (by decide) | exact ⟨rfl, rfl⟩

end Opcode

namespace Machine

variable {m m' : Machine} {a b : Operand} {op : Opcode}

@[simp] theorem value_empty (m : Machine) : m.value .empty = 0 := rfl

@[simp] theorem value_imm (m : Machine) (x : UInt64) (size : Int) :
    m.value (.imm x size) = truncate x size := rfl

@[simp] theorem value_register (m : Machine) (n size : Int) :
    m.value (.register n size) = truncate (m.read (.reg n)) size := value_of_var? rfl m

theorem value_of_isImm (h : a.kind = .imm) : m.value a = a.fields.value := by
  cases a with
  | plain f => simp [value, Operand.value?, Fields.value?, show f.kind = .imm from h, Operand.fields]
  | nested f op l r d =>
    simp [value, Operand.value?, Fields.value?, show f.kind = .imm from h, Operand.fields]

theorem read_assign_register (m : Machine) (n size : Int) (x : UInt64) (v : Var) :
    (m.assign (.register n size) x).read v = if Var.reg n = v then truncate x size else m.read v := by
  rw [read_assign, show (Operand.register n size).var? = some (.reg n) from rfl]
  simp only [Option.some.injEq]
  rfl

/-- A register that instructions do not see can be set unnoticed. -/
theorem agree_assign_register {n : Int} (hn : ¬ Visible (.reg n)) (m : Machine) (size : Int)
    (x : UInt64) : Agree Visible m (m.assign (.register n size) x) := by
  refine ⟨fun v hv => ?_, mem_assign .., calls_assign ..⟩
  rw [read_assign_register, if_neg]
  rintro rfl
  exact hn hv

@[simp] theorem assign_truncate (m : Machine) (d : Operand) (x : UInt64) :
    m.assign d (truncate x d.size) = m.assign d x := by
  unfold assign
  split
  · rw [truncate_truncate]
  · rfl

end Machine

namespace Operand

variable {a b : Operand} {op : Opcode} {v : Var}

/-- **An operand with a value of its own size** in every machine. -/
structure Sized (a : Operand) : Prop where
  /-- There is a value. -/
  defined : ∀ m : Machine, a.value? (fun v => some (m.read v)) = some (m.value a)
  /-- It is cut to the size. -/
  cut : ∀ m : Machine, truncate (m.value a) a.size = m.value a

theorem sized_of_value? (h : ∀ m : Machine, ∃ x,
    a.value? (fun v => some (m.read v)) = some x ∧ truncate x a.size = x) : a.Sized := by
  refine ⟨fun m => ?_, fun m => ?_⟩ <;> obtain ⟨x, hx, hcut⟩ := h m
  · rw [Machine.value, hx, Option.getD_some]
  · rw [Machine.value, hx, Option.getD_some, hcut]

theorem sized_imm (x : UInt64) (size : Int) : (imm x size).Sized :=
  sized_of_value? fun _ => ⟨_, rfl, truncate_truncate x size⟩

theorem sized_of_var? (h : a.var? = some v) : a.Sized :=
  sized_of_value? fun m => ⟨truncate (m.read v) a.size, by rw [value?_of_var? h]; rfl, by simp⟩

/-- What has a value of its size can be kept in a register of that size. -/
theorem Sized.value_assign (h : a.Sized) (m : Machine) (n : Int) :
    (m.assign (register n a.size) (m.value a)).value (register n a.size) = m.value a := by
  rw [Machine.value_register, Machine.read_assign_register, if_pos rfl, truncate_truncate, h.cut]

theorem var?_of_stack (h : a.kind = .stack) : a.var? = some (.stack a.fields.reg a.fields.off) := by
  unfold var? Fields.var?
  rw [show a.fields.kind = .stack from h]

theorem reads_of_isImm (h : a.kind = .imm) : a.reads = [] := by
  cases a with
  | plain f => simp [reads, Fields.var?, show f.kind = .imm from h]
  | nested f op l r d => simp [reads, Fields.var?, show f.kind = .imm from h]

/-- The right source of an operation: nothing for one that has only a left source. -/
def Fills (P : Operand → Prop) (op : Opcode) (b : Operand) : Prop :=
  if op.isUnary then b = .empty else P b

theorem fills_empty {P : Operand → Prop} (hop : op.isUnary = true) : Fills P op .empty := by
  rw [Fills, if_pos hop]

theorem fills_of {P : Operand → Prop} (hop : op.isUnary = false) (h : P b) : Fills P op b := by
  rwa [Fills, hop, if_neg Bool.false_ne_true]

theorem Fills.mono {P Q : Operand → Prop} (h : Fills P op b) (hPQ : P b → Q b) : Fills Q op b := by
  unfold Fills at h ⊢
  split at h
  · rwa [if_pos ‹_›]
  · rw [if_neg ‹_›]
    exact hPQ h

/-- A data operation on operands with values has a value. -/
theorem compute?_of_sized (hop : op.isData = true) (ha : a.Sized) (hb : Fills Sized op b)
    (m : Machine) (size : Int) :
    ((a.value? fun v => some (m.read v)).bind fun x =>
      if op.isUnary then op.compute? x 0 size
      else (b.value? fun v => some (m.read v)).bind fun y => op.compute? x y size) =
      some (op.result (m.value a) (m.value b) size) := by
  unfold Fills at hb
  rw [ha.defined, Option.bind_some]
  split
  · rw [if_pos ‹_›] at hb
    rw [hb, Machine.value_empty, (Opcode.compute?_of_isData hop _ _ _).1]
  · rw [if_neg ‹_›] at hb
    rw [hb.defined, Option.bind_some, (Opcode.compute?_of_isData hop _ _ _).1]

theorem value?_derived (hop : op.isData = true) (ha : a.Sized) (hb : Fills Sized op b) (m : Machine) :
    (derived op a b .empty).value? (fun v => some (m.read v)) =
      some (op.result (m.value a) (m.value b) a.size) := by
  rw [← compute?_of_sized hop ha hb m a.size]
  rfl

theorem Sized.derived (hop : op.isData = true) (ha : a.Sized) (hb : Fills Sized op b) :
    (Operand.derived op a b .empty).Sized :=
  sized_of_value? fun m =>
    ⟨_, value?_derived hop ha hb m, (Opcode.compute?_of_isData hop _ _ a.size).2⟩

/-- **A source of an instruction**: it has a value and reads what is visible. -/
structure IsSource (a : Operand) : Prop where
  sized : a.Sized
  /-- It reads no saved comparison. -/
  visible : ∀ v ∈ a.reads, Visible v

theorem isSource_imm (x : UInt64) (size : Int) : (imm x size).IsSource := ⟨sized_imm x size, nofun⟩

theorem isSource_of_var? (h : a.var? = some v) (hv : Visible v) : a.IsSource :=
  ⟨sized_of_var? h, by rw [reads_of_var? h]; simpa using hv⟩

theorem isSource_register {n : Nat} (h : n < 32) (size : Int) : (register n size).IsSource :=
  isSource_of_var? rfl (visible_reg h)

theorem reads_derived : (derived op a b .empty).reads = a.reads ++ b.reads := by
  simp [derived, reads, kind, fields, empty]

theorem IsSource.derived (hop : op.isData = true) (ha : a.IsSource) (hb : Fills IsSource op b) :
    (Operand.derived op a b .empty).IsSource := by
  refine ⟨ha.sized.derived hop (hb.mono IsSource.sized), fun v hv => ?_⟩
  rw [reads_derived, List.mem_append] at hv
  rcases hv with hv | hv
  · exact ha.visible v hv
  · unfold Fills at hb
    split at hb
    · rw [hb] at hv
      cases hv
    · exact hb.visible v hv

end Operand

theorem Machine.value_derived {a b : Operand} {op : Opcode} (hop : op.isData = true) (ha : a.Sized)
    (hb : Operand.Fills Operand.Sized op b) (m : Machine) :
    m.value (.derived op a b .empty) = op.result (m.value a) (m.value b) a.size := by
  rw [Machine.value, Operand.value?_derived hop ha hb m, Option.getD_some]

/-- **A data instruction sets its destination to its result.** -/
theorem Machine.step_data {m : Machine} {op : Opcode} {l r d : Operand} {v : Var}
    (hop : op.isData = true) (hl : l.Sized) (hr : Operand.Fills Operand.Sized op r)
    (hd : d.var? = some v) :
    m.step ⟨op, l, r, d⟩ = .next (m.assign d (op.result (m.value l) (m.value r) d.size)) := by
  have hdef : Insn.def? ⟨op, l, r, d⟩ = some v := by
    simp [Insn.def?, (Opcode.writes_of_isData hop).1, hd]
  have hresult : Insn.result? (fun v => some (m.read v)) ⟨op, l, r, d⟩ =
      some (op.result (m.value l) (m.value r) d.size) := by
    rw [← Operand.compute?_of_sized hop hl hr m d.size, Insn.result?]
    cases op <;> first | rfl | exact absurd hop (by decide)
  have hstep : m.step ⟨op, l, r, d⟩ = .next { m with
      vars := m.vars.assign v (Insn.result? (fun v => some (m.read v)) ⟨op, l, r, d⟩) } := by
    unfold step
    cases op <;> first | exact absurd hop (by decide) | simp only [hdef, Opcode.test?]
  rw [hstep, hresult, assign, hd]
  simp only [Env.assign, (Opcode.compute?_of_isData hop _ _ _).2]

theorem Machine.step_mov {m : Machine} {a d : Operand} {v : Var} (ha : a.Sized) (hd : d.var? = some v) :
    m.step (.mov a d) = .next (m.assign d (m.value a)) := by
  rw [Insn.mov, step_data rfl ha (Operand.fills_empty rfl) hd]
  exact congrArg Effect.next (m.assign_truncate d (m.value a))

end Deflatten

import Deflatten.Proofs.Execution.Halting

/-!
# Proofs/Execution/Agreement — machines that differ only in what is not read

`Machine.Agree P` compares two machines on the variables in `P`, their memory and their calls.  An
instruction that reads only such variables does the same to both, and what it writes agrees as well
(`Machine.Agree.step`).
-/

namespace Deflatten

/-! ## Operands that name a variable -/

namespace Operand

variable {o : Operand} {v : Var}

theorem kind_of_var? (h : o.var? = some v) : o.kind ≠ .imm ∧ o.kind ≠ .expr := by
  have hf : o.fields.var? = some v := h
  unfold Fields.var? at hf
  constructor <;> intro hk <;> simp [show o.fields.kind = _ from hk] at hf

theorem value?_of_var? (h : o.var? = some v) {read : Var → Option UInt64} :
    o.value? read = (read v).map fun x => truncate x o.size := by
  obtain ⟨himm, hexpr⟩ := kind_of_var? h
  have hf : o.fields.var? = some v := h
  cases o with
  | plain f => simp_all [value?, Fields.value?, fields, size, kind]
  | nested f op l r d => simp_all [value?, Fields.value?, fields, size, kind]

theorem reads_of_var? (h : o.var? = some v) : o.reads = [v] := by
  obtain ⟨-, hexpr⟩ := kind_of_var? h
  have hf : o.fields.var? = some v := h
  cases o with
  | plain f => simp_all [reads, fields]
  | nested f op l r d => simp_all [reads, fields, kind]

end Operand

/-! ## Values depend on what is read -/

theorem Fields.value?_congr {r r' : Var → Option UInt64} {f : Fields}
    (h : ∀ v, f.var? = some v → r v = r' v) : f.value? r = f.value? r' := by
  unfold value?
  cases hv : f.var? with
  | none => rfl
  | some v => simp only [Option.bind_some, h v hv]

/-- **The value of an operand depends on the variables it reads.** -/
theorem Operand.value?_congr {r r' : Var → Option UInt64} : ∀ {o : Operand},
    (∀ v ∈ o.reads, r v = r' v) → o.value? r = o.value? r'
  | .plain f, h => Fields.value?_congr fun v hv => h v (by simp [reads, hv])
  | .nested f op l r₁ d, h => by
    unfold value?
    by_cases hk : f.kind = .expr
    · simp only [reads, hk, if_true, List.mem_append] at h
      have hl : l.value? r = l.value? r' := value?_congr fun v hv => h v (.inl (.inl hv))
      have hr : r₁.value? r = r₁.value? r' := value?_congr fun v hv => h v (.inl (.inr hv))
      simp only [hk, if_true, hl, hr]
    · simp only [reads, hk, if_false] at h
      simp only [hk, if_false]
      exact Fields.value?_congr fun v hv => h v (by simp [hv])

theorem Insn.result?_congr {r r' : Var → Option UInt64} {i : Insn}
    (h : ∀ v ∈ i.reads, r v = r' v) : i.result? r = i.result? r' := by
  have hl : i.l.value? r = i.l.value? r' :=
    Operand.value?_congr fun v hv => h v (by simp [reads, hv])
  have hr : i.r.value? r = i.r.value? r' :=
    Operand.value?_congr fun v hv => h v (by simp [reads, hv])
  unfold result?
  rw [hl, hr]

namespace Machine

theorem value_of_var? {o : Operand} {v : Var} (h : o.var? = some v) (m : Machine) :
    m.value o = truncate (m.read v) o.size := by
  rw [value, Operand.value?_of_var? h, Option.map_some, Option.getD_some]

theorem value_congr {m m' : Machine} {o : Operand} (h : ∀ v ∈ o.reads, m'.read v = m.read v) :
    m'.value o = m.value o := by
  unfold value
  rw [Operand.value?_congr fun v hv => congrArg some (h v hv)]

@[simp] theorem read_store (m : Machine) (addr v : UInt64) (x : Var) :
    (m.store addr v).read x = m.read x := rfl

@[simp] theorem read_record (m : Machine) (c : CallEvent) (x : Var) :
    (m.record c).read x = m.read x := rfl

/-- Setting a destination changes the variable it names, if it names one. -/
theorem read_assign (m : Machine) (dest : Operand) (v : UInt64) (x : Var) :
    (m.assign dest v).read x = if dest.var? = some x then truncate v dest.size else m.read x := by
  unfold assign
  cases hd : dest.var? with
  | none => simp
  | some y => by_cases h : y = x <;> simp [read, h]

@[simp] theorem mem_assign (m : Machine) (dest : Operand) (v : UInt64) :
    (m.assign dest v).mem = m.mem := by
  unfold assign
  split <;> rfl

@[simp] theorem calls_assign (m : Machine) (dest : Operand) (v : UInt64) :
    (m.assign dest v).calls = m.calls := by
  unfold assign
  split <;> rfl

end Machine

@[simp] theorem Env.get?_assign (e : Env) (v : Var) (x? : Option UInt64) (w : Var) :
    (e.assign v x?).get? w = if v = w then x? else e.get? w := by
  cases x? <;> simp [assign]

/-! ## What a plain instruction does -/

/-- Computes a destination from its operands. -/
def Opcode.isData : Opcode → Bool
  | mov | add | sub | mul | and | or | xor | shl | shr | bnot | neg | setz | setnz => true
  | _ => false

namespace Machine

/-- **The effect of a plain instruction**, by the kind of its operation. -/
theorem step_cases (m : Machine) {i : Insn} (h : i.op.endsBlock = false) :
    (i.op = .nop ∧ m.step i = .next m) ∨
    (i.op = .und ∧ m.step i = .undefined) ∨
    (i.op = .stx ∧ m.step i = .next (m.store (m.value i.r) (m.value i.l))) ∨
    (i.op = .call ∧ m.step i =
      .next ((m.record ⟨i.calleeName, m.value i.r⟩).assign i.d (m.value i.r + 1))) ∨
    (i.op = .ldx ∧ m.step i = .next (m.assign i.d (m.load (m.value i.l)))) ∨
    (i.op.isData = true ∧ i.def? = none ∧ m.step i = .next m) ∨
    (i.op.isData = true ∧ ∃ v, i.def? = some v ∧
      m.step i = .next { m with vars := m.vars.assign v (i.result? fun v => some (m.read v)) }) := by
  unfold step
  cases hop : i.op <;>
    simp_all [Opcode.endsBlock, Opcode.isJump, Opcode.isConditional, Opcode.isData,
      Opcode.test?] <;>
    cases hd : i.def? <;> simp

/-- **A plain instruction changes no variable but the one it writes.** -/
theorem read_of_step {m m' : Machine} {i : Insn} (hi : i.op.endsBlock = false)
    (h : m.step i = .next m') {v : Var} (hv : i.def? ≠ some v) : m'.read v = m.read v := by
  have hne : ∀ w, i.def? = some w → w ≠ v := fun w hw hwv => hv (hwv ▸ hw)
  have hset : ∀ {n : Machine} {w : UInt64}, i.op.definesDest = true →
      (n.assign i.d w).read v = n.read v := by
    intro n w hop
    have hd : i.d.var? ≠ some v := by simpa [Insn.def?, hop] using hv
    simp [read_assign, hd]
  rcases m.step_cases hi with ⟨_, h₁⟩ | ⟨_, h₁⟩ | ⟨_, h₁⟩ | ⟨hop, h₁⟩ | ⟨hop, h₁⟩ | ⟨_, _, h₁⟩ |
    ⟨_, w, hw, h₁⟩
  all_goals
    rw [h₁] at h
    cases h
  · rfl
  · rfl
  · exact hset (by rw [hop]; rfl)
  · exact hset (by rw [hop]; rfl)
  · rfl
  · simp [read, hne w hw]

/-! ## Agreement -/

/-- **Two machines agree** on the variables in `P`, on memory and on the calls made. -/
structure Agree (P : Var → Prop) (m m' : Machine) : Prop where
  /-- The variables in `P` have one value. -/
  read_eq : ∀ v, P v → m'.read v = m.read v
  mem_eq : m'.mem = m.mem
  calls_eq : m'.calls = m.calls

theorem Agree.refl (P : Var → Prop) (m : Machine) : Agree P m m := ⟨fun _ _ => rfl, rfl, rfl⟩

variable {P Q : Var → Prop} {m m' : Machine} {i : Insn}

theorem Agree.mono (h : Agree P m m') (hQ : ∀ v, Q v → P v) : Agree Q m m' :=
  ⟨fun v hv => h.read_eq v (hQ v hv), h.mem_eq, h.calls_eq⟩

theorem Agree.symm (h : Agree P m m') : Agree P m' m :=
  ⟨fun v hv => (h.read_eq v hv).symm, h.mem_eq.symm, h.calls_eq.symm⟩

theorem Agree.trans {m'' : Machine} (h : Agree P m m') (h' : Agree P m' m'') : Agree P m m'' :=
  ⟨fun v hv => (h'.read_eq v hv).trans (h.read_eq v hv), h'.mem_eq.trans h.mem_eq,
    h'.calls_eq.trans h.calls_eq⟩

theorem Agree.value_eq (h : Agree P m m') {o : Operand} (ho : ∀ v ∈ o.reads, P v) :
    m'.value o = m.value o := value_congr fun v hv => h.read_eq v (ho v hv)

theorem Agree.assign (h : Agree P m m') (d : Operand) (x : UInt64) :
    Agree P (m.assign d x) (m'.assign d x) := by
  refine ⟨fun v hv => ?_, by simpa using h.mem_eq, by simpa using h.calls_eq⟩
  rw [read_assign, read_assign, h.read_eq v hv]

theorem Agree.store (h : Agree P m m') (addr x : UInt64) :
    Agree P (m.store addr x) (m'.store addr x) :=
  ⟨h.read_eq, congrArg (fun t => Table.insert t addr x) h.mem_eq, h.calls_eq⟩

theorem Agree.record (h : Agree P m m') (c : CallEvent) : Agree P (m.record c) (m'.record c) :=
  ⟨h.read_eq, h.mem_eq, congrArg (· ++ [c]) h.calls_eq⟩

theorem Agree.load_eq (h : Agree P m m') (addr : UInt64) : m'.load addr = m.load addr := by
  rw [load, load, h.mem_eq]

/-- **An instruction that reads what two machines agree on does the same to both**, and leaves them
in agreement on what it writes too. -/
theorem Agree.step (h : Agree P m m') (hi : i.op.endsBlock = false) (hr : ∀ v ∈ i.reads, P v) :
    (m.step i = .undefined ∧ m'.step i = .undefined) ∨
      ∃ m₁ m₁', m.step i = .next m₁ ∧ m'.step i = .next m₁' ∧
        Agree (fun v => P v ∨ i.def? = some v) m₁ m₁' := by
  have hl : m'.value i.l = m.value i.l := h.value_eq fun v hv => hr v (by simp [Insn.reads, hv])
  have hrr : m'.value i.r = m.value i.r := h.value_eq fun v hv => hr v (by simp [Insn.reads, hv])
  have hres : (i.result? fun v => some (m'.read v)) = i.result? fun v => some (m.read v) :=
    Insn.result?_congr fun v hv => congrArg some (h.read_eq v (hr v hv))
  -- what is written agrees, whatever else is asked for was asked for before
  have hset : ∀ {n n' : Machine} {w : UInt64}, Agree P n n' → i.op.definesDest = true →
      Agree (fun v => P v ∨ i.def? = some v) (n.assign i.d w) (n'.assign i.d w) := by
    intro n n' w hn hop
    refine ⟨fun v hv => ?_, by simpa using hn.mem_eq, by simpa using hn.calls_eq⟩
    rw [read_assign, read_assign]
    by_cases hd : i.d.var? = some v
    · simp [hd]
    · simp only [hd, if_false]
      exact hn.read_eq v (hv.resolve_right (by simpa [Insn.def?, hop] using hd))
  have hmono : ∀ {n n' : Machine}, Agree P n n' → i.def? = none →
      Agree (fun v => P v ∨ i.def? = some v) n n' := fun hn hd =>
    hn.mono fun v hv => hv.resolve_right (by simp [hd])
  rcases m.step_cases hi with ⟨hop, h₁⟩ | ⟨hop, h₁⟩ | ⟨hop, h₁⟩ | ⟨hop, h₁⟩ | ⟨hop, h₁⟩ |
    ⟨hop, hd, h₁⟩ | ⟨hop, w, hd, h₁⟩
  · refine .inr ⟨m, m', h₁, by simp [Machine.step, hop], hmono h ?_⟩
    simp [Insn.def?, hop, Opcode.definesDest]
  · exact .inl ⟨h₁, by simp [Machine.step, hop]⟩
  · refine .inr ⟨_, m'.store (m'.value i.r) (m'.value i.l), h₁, by simp [Machine.step, hop],
      hmono ⟨h.read_eq, ?_, h.calls_eq⟩ ?_⟩
    · rw [hl, hrr]
      exact congrArg (fun t => Table.insert t _ _) h.mem_eq
    · simp [Insn.def?, hop, Opcode.definesDest]
  · refine .inr ⟨_, (m'.record ⟨i.calleeName, m'.value i.r⟩).assign i.d (m'.value i.r + 1), h₁,
      by simp [Machine.step, hop], ?_⟩
    rw [hrr]
    refine hset ⟨h.read_eq, h.mem_eq, ?_⟩ (by rw [hop]; rfl)
    exact congrArg (· ++ _) h.calls_eq
  · refine .inr ⟨_, m'.assign i.d (m'.load (m'.value i.l)), h₁, by simp [Machine.step, hop], ?_⟩
    have hload : m'.load (m'.value i.l) = m.load (m.value i.l) := by
      rw [hl, load, load, h.mem_eq]
    rw [hload]
    exact hset h (by rw [hop]; rfl)
  · rcases m'.step_cases hi with ⟨hop', _⟩ | ⟨hop', _⟩ | ⟨hop', _⟩ | ⟨hop', _⟩ | ⟨hop', _⟩ |
      ⟨_, _, h₁'⟩ | ⟨_, _, hd', _⟩
    all_goals first
      | exact .inr ⟨m, m', h₁, h₁', hmono h hd⟩
      | (rw [hop'] at hop; cases hop)
      | (rw [hd] at hd'; cases hd')
  · rcases m'.step_cases hi with ⟨hop', _⟩ | ⟨hop', _⟩ | ⟨hop', _⟩ | ⟨hop', _⟩ | ⟨hop', _⟩ |
      ⟨_, hd', _⟩ | ⟨_, w', hd', h₁'⟩
    all_goals first
      | (rw [hop'] at hop; cases hop)
      | (rw [hd] at hd'; cases hd')
    refine .inr ⟨_, _, h₁, h₁', ?_, h.mem_eq, h.calls_eq⟩
    intro v hv
    rw [hres]
    simp only [read, Env.get?_assign]
    by_cases hwv : w = v
    · simp [hwv]
    · simp only [hwv, if_false]
      exact h.read_eq v (hv.resolve_right (by rw [hd]; simpa using hwv))

/-- **Instructions that read what two machines agree on leave them in agreement**, or stop both. -/
theorem Agree.perform {is : List Insn} (h : Agree P m m') (hp : Plain is)
    (hr : ∀ i ∈ is, ∀ v ∈ i.reads, P v) :
    (∃ m₁ m₁', m.perform is = .done m₁ ∧ m'.perform is = .done m₁' ∧ Agree P m₁ m₁') ∨
      ∃ m₁ m₁' n, m.perform is = .undefined m₁ n ∧ m'.perform is = .undefined m₁' n ∧
        m₁'.calls = m₁.calls := by
  induction is generalizing m m' with
  | nil => exact .inl ⟨m, m', rfl, rfl, h⟩
  | cons i is ih =>
    rcases h.step (hp i (by simp)) (hr i (by simp)) with ⟨h₁, h₁'⟩ | ⟨m₁, m₁', h₁, h₁', ha⟩
    · exact .inr ⟨m, m', 1, by simp [Machine.perform, h₁], by simp [Machine.perform, h₁'],
        h.calls_eq⟩
    · have hrest := ih (ha.mono fun v hv => .inl hv) (fun j hj => hp j (by simp [hj]))
        fun j hj => hr j (by simp [hj])
      rcases hrest with ⟨m₂, m₂', h₂, h₂', ha₂⟩ | ⟨m₂, m₂', n, h₂, h₂', hcalls⟩
      · exact .inl ⟨m₂, m₂', by simp [Machine.perform, h₁, h₂],
          by simp [Machine.perform, h₁', h₂'], ha₂⟩
      · exact .inr ⟨m₂, m₂', 1 + n, by simp [Machine.perform, h₁, h₂],
          by simp [Machine.perform, h₁', h₂'], hcalls⟩

theorem Agree.perform_done {is : List Insn} {m₁ : Machine} (h : Agree P m m') (hp : Plain is)
    (hr : ∀ i ∈ is, ∀ v ∈ i.reads, P v) (hm : m.perform is = .done m₁) :
    ∃ m₁', m'.perform is = .done m₁' ∧ Agree P m₁ m₁' := by
  rcases h.perform hp hr with ⟨m₂, m₂', h₂, h₂', ha⟩ | ⟨m₂, m₂', n, h₂, -⟩
  · obtain rfl := Performed.done.inj (hm.symm.trans h₂)
    exact ⟨m₂', h₂', ha⟩
  · cases hm.symm.trans h₂

theorem Agree.perform_undefined {is : List Insn} {m₁ : Machine} {n : Nat} (h : Agree P m m')
    (hp : Plain is) (hr : ∀ i ∈ is, ∀ v ∈ i.reads, P v) (hm : m.perform is = .undefined m₁ n) :
    ∃ m₁', m'.perform is = .undefined m₁' n ∧ m₁'.calls = m₁.calls := by
  rcases h.perform hp hr with ⟨m₂, m₂', h₂, -⟩ | ⟨m₂, m₂', k, h₂, h₂', hcalls⟩
  · cases hm.symm.trans h₂
  · obtain ⟨rfl, rfl⟩ := Performed.undefined.inj (hm.symm.trans h₂)
    exact ⟨m₂', h₂', hcalls⟩

/-- **A block is left alike by machines that agree on what its terminator reads.** -/
theorem Agree.leave_eq (h : Agree P m m') {b b' : Block} (ht : b'.terminator? = b.terminator?)
    (hn : b'.next = b.next) (hr : ∀ t, b.terminator? = some t → ∀ v ∈ t.reads, P v) :
    b'.leave m' = b.leave m := by
  cases hb : b.terminator? with
  | none => rw [Block.leave_none hb, Block.leave_none (ht.trans hb), hn]
  | some t =>
    have hb' := ht.trans hb
    have hl : m'.value t.l = m.value t.l := h.value_eq fun v hv =>
      hr t hb v (by simp [Insn.reads, hv])
    have hrr : m'.value t.r = m.value t.r := h.value_eq fun v hv =>
      hr t hb v (by simp [Insn.reads, hv])
    rcases t.op.cases_of_endsBlock (Block.endsBlock_of_terminator? hb) with hop | hop | hop
    · rw [Block.leave_ret hb hop, Block.leave_ret hb' hop, hl]
    · rw [Block.leave_goto hb hop, Block.leave_goto hb' hop]
    · obtain ⟨taken, htest⟩ :=
        Opcode.test?_of_isConditional hop (m.value t.l) (m.value t.r) (max t.l.size t.r.size)
      rw [Block.leave_conditional hb htest, Block.leave_conditional hb' (by rw [hl, hrr, htest]), hn]

end Machine

end Deflatten

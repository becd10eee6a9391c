import Deflatten.Proofs.Editing.Shape

/-!
# Proofs/Editing/Retarget — blocks that differ in where they go

`Block.Retargets φ b b'` says that `b'` is `b` with every serial it can go to sent through `φ`.  Moving
an edge, threading jumps and renumbering all change blocks in this way only, and then a visit of `b'`
is the visit of `b` with its end sent through `φ` (`Retargets.visit_eq`).
-/

namespace Deflatten

namespace Insn

variable {t : Insn} {φ : Int → Int}

@[simp] theorem op_withTarget (t : Insn) (s : Int) : (t.withTarget s).op = t.op := rfl

@[simp] theorem l_withTarget (t : Insn) (s : Int) : (t.withTarget s).l = t.l := rfl

@[simp] theorem r_withTarget (t : Insn) (s : Int) : (t.withTarget s).r = t.r := rfl

@[simp] theorem block_withTarget (t : Insn) (s : Int) : (t.withTarget s).d.block = s := by
  cases t with
  | mk op l r d => cases d <;> rfl

@[simp] theorem kind_withTarget (t : Insn) (s : Int) : (t.withTarget s).d.kind = t.d.kind := by
  cases t with
  | mk op l r d => cases d <;> rfl

@[simp] theorem withTarget_self (t : Insn) : t.withTarget t.d.block = t := by
  cases t with
  | mk op l r d => cases d <;> rfl

/-- A jump with its target sent through `φ`; any other instruction as it is. -/
def retarget (φ : Int → Int) (t : Insn) : Insn :=
  if t.op.isJump then t.withTarget (φ t.d.block) else t

@[simp] theorem op_retarget (φ : Int → Int) (t : Insn) : (t.retarget φ).op = t.op := by
  unfold retarget
  split <;> rfl

@[simp] theorem l_retarget (φ : Int → Int) (t : Insn) : (t.retarget φ).l = t.l := by
  unfold retarget
  split <;> rfl

@[simp] theorem r_retarget (φ : Int → Int) (t : Insn) : (t.retarget φ).r = t.r := by
  unfold retarget
  split <;> rfl

@[simp] theorem kind_retarget (φ : Int → Int) (t : Insn) : (t.retarget φ).d.kind = t.d.kind := by
  unfold retarget
  split <;> simp

theorem retarget_of_isJump (h : t.op.isJump = true) : t.retarget φ = t.withTarget (φ t.d.block) :=
  if_pos h

theorem retarget_of_ret (h : t.op = .ret) : t.retarget φ = t := by
  simp [retarget, h, Opcode.isJump, Opcode.isConditional]

end Insn

theorem Opcode.isJump_of_isConditional {op : Opcode} (h : op.isConditional = true) :
    op.isJump = true := by simp [isJump, h]

/-! ## Visits that end elsewhere -/

/-- A way out with its serial sent through `φ`. -/
def Leaving.mapTarget (φ : Int → Int) : Leaving → Leaving
  | toward s => toward (φ s)
  | ret v => ret v

/-- A visit with its end sent through `φ`. -/
def Visit.mapTarget (φ : Int → Int) : Visit → Visit
  | goes m n s => goes m n (φ s)
  | stops m n o => stops m n o

namespace Block

/-- Whether control can fall through. -/
def falls (b : Block) : Bool := b.terminator?.all fun t => t.op.isConditional

theorem falls_of_none {b : Block} (h : b.terminator? = none) : b.falls = true := by
  simp [falls, h]

theorem falls_of_conditional {b : Block} {t : Insn} (h : b.terminator? = some t)
    (hc : t.op.isConditional = true) : b.falls = true := by
  simp [falls, h, hc]

/-- **The block `b'` is `b` with everything it can go to sent through `φ`.** -/
structure Retargets (φ : Int → Int) (b b' : Block) : Prop where
  body_eq : b'.body = b.body
  /-- The same terminator, but for its target. -/
  terminator_eq : b'.terminator? = b.terminator?.map (Insn.retarget φ)
  /-- The fall-through, where it counts. -/
  next_eq : b.falls = true → b'.next = φ b.next

variable {φ : Int → Int} {b b' : Block} {n n' : Nat} {s : Int}

namespace Retargets

theorem congr {b₁ : Block} (h : Retargets φ b₁ b') (hc : b₁.content = b.content) :
    Retargets φ b b' := by
  have hf : b.falls = b₁.falls := by simp only [falls, terminator?_congr hc]
  exact ⟨h.body_eq.trans (body_congr hc), by rw [h.terminator_eq, terminator?_congr hc],
    fun hfalls => (h.next_eq (hf ▸ hfalls)).trans (congrArg (φ ·.2) hc)⟩

theorem congr_right {b₁ : Block} (h : Retargets φ b b₁) (hc : b'.content = b₁.content) :
    Retargets φ b b' :=
  ⟨(body_congr hc).trans h.body_eq, (terminator?_congr hc).trans h.terminator_eq,
    fun hfalls => (congrArg Prod.snd hc).trans (h.next_eq hfalls)⟩

theorem length_insns (h : Retargets φ b b') : b'.insns.length = b.insns.length := by
  rw [b'.insns_eq, b.insns_eq, h.body_eq, h.terminator_eq]
  cases b.terminator? <;> simp

theorem leave_eq (h : Retargets φ b b') (m : Machine) : b'.leave m = (b.leave m).mapTarget φ := by
  have hterm := h.terminator_eq
  cases ht : b.terminator? with
  | none =>
    rw [ht] at hterm
    rw [leave_none hterm, leave_none ht, h.next_eq (falls_of_none ht)]
    rfl
  | some t =>
    rw [ht, Option.map_some] at hterm
    rcases t.op.cases_of_endsBlock (endsBlock_of_terminator? ht) with hr | hg | hc
    · rw [leave_ret hterm (by simpa using hr), leave_ret ht hr]
      simp [Leaving.mapTarget]
    · rw [leave_goto hterm (by simpa using hg), leave_goto ht hg,
        Insn.retarget_of_isJump (by rw [hg]; rfl), Insn.block_withTarget]
      rfl
    · obtain ⟨taken, htest⟩ := t.op.test?_of_isConditional hc (m.value t.l) (m.value t.r)
        (max t.l.size t.r.size)
      have htest' : (t.retarget φ).op.test? (m.value (t.retarget φ).l) (m.value (t.retarget φ).r)
          (max (t.retarget φ).l.size (t.retarget φ).r.size) = some taken := by simpa using htest
      rw [leave_conditional hterm htest', leave_conditional ht htest,
        h.next_eq (falls_of_conditional ht hc),
        Insn.retarget_of_isJump (Opcode.isJump_of_isConditional hc), Insn.block_withTarget]
      cases taken <;> rfl

/-- **A visit of the changed block is the visit of the other, with its end sent through `φ`.** -/
theorem visit_eq (h : Retargets φ b b') (h₀ : φ noBlock = noBlock)
    (hφ : ∀ s ∈ b.exits, φ s ≠ noBlock) (m : Machine) : b'.visit m = (b.visit m).mapTarget φ := by
  have hexit : ∀ m' c s, b.visit m = .goes m' c s → s ∈ b.exits := fun _ _ _ =>
    mem_exits_of_visit
  unfold visit at hexit ⊢
  rw [h.body_eq]
  cases hm : m.perform b.body with
  | undefined m' c => rfl
  | done m' =>
    rw [hm] at hexit
    simp only [h.leave_eq, h.length_insns] at hexit ⊢
    cases hl : b.leave m' with
    | ret v => rfl
    | toward s =>
      rw [hl] at hexit
      by_cases hs : s = noBlock
      · simp [Leaving.mapTarget, Visit.mapTarget, hs, h₀]
      · have := hφ s (hexit m' b.insns.length s (by simp [hs]))
        simp [Leaving.mapTarget, Visit.mapTarget, hs, this]

/-- **The exits of the changed block are those of the other, sent through `φ`.** -/
theorem mem_exits (h : Retargets φ b b') (h₀ : φ noBlock = noBlock)
    (hφ : ∀ s ∈ b.exits, φ s ≠ noBlock) {x : Int} : x ∈ b'.exits ↔ ∃ s ∈ b.exits, φ s = x := by
  have hterm := h.terminator_eq
  cases ht : b.terminator? with
  | none =>
    rw [ht] at hterm
    have hnext := h.next_eq (falls_of_none ht)
    rw [exits_none hterm, exits_none ht]
    by_cases hn : b.next = noBlock
    · simp [hnext, hn, h₀]
    · have : φ b.next ≠ noBlock := hφ _ (by simp [exits_none ht, hn])
      simp [hnext, hn, this, eq_comm]
  | some t =>
    rw [ht, Option.map_some] at hterm
    rcases t.op.cases_of_endsBlock (endsBlock_of_terminator? ht) with hr | hg | hc
    · rw [exits_ret hterm (by simpa using hr), exits_ret ht hr]
      simp
    · rw [exits_goto hterm (by simpa using hg), exits_goto ht hg,
        Insn.retarget_of_isJump (by rw [hg]; rfl), Insn.block_withTarget]
      simp [eq_comm]
    · rw [mem_exits_conditional hterm (by simpa using hc),
        Insn.retarget_of_isJump (Opcode.isJump_of_isConditional hc), Insn.block_withTarget,
        h.next_eq (falls_of_conditional ht hc)]
      simp only [mem_exits_conditional ht hc, or_and_right, exists_or, exists_eq_left, eq_comm]

theorem fits (h : Retargets φ b b') (hb : b.Fits n) (h₀ : φ noBlock = noBlock)
    (hφ : ∀ s ∈ b.exits, 0 ≤ φ s ∧ φ s < n') : b'.Fits n' := by
  have hne : ∀ s ∈ b.exits, φ s ≠ noBlock := fun s hs => ne_noBlock (hφ s hs).1
  refine ⟨h.body_eq ▸ hb.plain, ?_, ?_, ?_⟩
  · intro t' ht' hr
    rw [h.terminator_eq, Option.map_eq_some_iff] at ht'
    obtain ⟨t, ht, rfl⟩ := ht'
    rw [Insn.kind_retarget]
    exact hb.aims t ht (by simpa using hr)
  · intro t' ht' hc
    rw [h.terminator_eq, Option.map_eq_some_iff] at ht'
    obtain ⟨t, ht, rfl⟩ := ht'
    have hc : t.op.isConditional = true := by simpa using hc
    rw [h.next_eq (falls_of_conditional ht hc)]
    exact hne _ ((mem_exits_conditional ht hc).mpr (.inr rfl))
  · intro x hx
    obtain ⟨s, hs, rfl⟩ := (h.mem_exits h₀ hne).mp hx
    exact hφ s hs

/-- A change that leaves the exits where they are is none. -/
theorem fixed (h : Retargets φ b b') (h₀ : φ noBlock = noBlock) (hφ : ∀ s ∈ b.exits, φ s = s) :
    Retargets id b b' := by
  refine ⟨h.body_eq, ?_, fun hfalls => ?_⟩
  · rw [h.terminator_eq]
    cases ht : b.terminator? with
    | none => rfl
    | some t =>
      have htarget : t.op.isJump = true → φ t.d.block = t.d.block := by
        intro hj
        rcases t.op.cases_of_endsBlock (endsBlock_of_terminator? ht) with hr | hg | hc
        · simp [hr, Opcode.isJump, Opcode.isConditional] at hj
        · exact hφ _ (by simp [exits_goto ht hg])
        · exact hφ _ ((mem_exits_conditional ht hc).mpr (.inl rfl))
      simp only [Option.map_some, Insn.retarget, id]
      split
      · next hj => rw [htarget hj]
      · rfl
  · rw [h.next_eq hfalls]
    cases ht : b.terminator? with
    | none =>
      by_cases hn : b.next = noBlock
      · rw [hn, h₀, id]
      · exact hφ _ (by simp [exits_none ht, hn])
    | some t =>
      have hc : t.op.isConditional = true := by simpa [falls, ht] using hfalls
      exact hφ _ ((mem_exits_conditional ht hc).mpr (.inr rfl))

theorem terminator?_id (h : Retargets id b b') : b'.terminator? = b.terminator? := by
  rw [h.terminator_eq]
  cases b.terminator? with
  | none => rfl
  | some t =>
    simp only [Option.map_some, Insn.retarget, id, Insn.withTarget_self, ite_self]

theorem insns_id (h : Retargets id b b') : b'.insns = b.insns := by
  rw [b'.insns_eq, b.insns_eq, h.body_eq, h.terminator?_id]

theorem exits_id (h : Retargets id b b') : b'.exits = b.exits := by
  have hterm := h.terminator?_id
  cases ht : b.terminator? with
  | none => rw [exits_none (hterm.trans ht), exits_none ht, h.next_eq (falls_of_none ht), id]
  | some t =>
    rcases t.op.cases_of_endsBlock (endsBlock_of_terminator? ht) with hr | hg | hc
    · rw [exits_ret (hterm.trans ht) hr, exits_ret ht hr]
    · rw [exits_goto (hterm.trans ht) hg, exits_goto ht hg]
    · rw [exits_conditional (hterm.trans ht) hc, exits_conditional ht hc,
        h.next_eq (falls_of_conditional ht hc), id]

end Retargets

/-! ## Changing the last instruction -/

theorem insns_mapTail {t : Insn} (h : b.terminator? = some t) (g : Insn → Insn) :
    (b.mapTail g).insns = b.body ++ [g t] := by
  have hi := insns_eq_append h
  simp [mapTail, hi]

@[simp] theorem next_mapTail (b : Block) (g : Insn → Insn) : (b.mapTail g).next = b.next := by
  unfold mapTail
  split <;> rfl

@[simp] theorem serial_mapTail (b : Block) (g : Insn → Insn) :
    (b.mapTail g).serial = b.serial := by
  unfold mapTail
  split <;> rfl

/-- A block is changed as told by `φ` if its body stays, its jump is sent through `φ`, and so is its
fall-through. -/
theorem retargets_of_insns {t : Insn} (ht : b.terminator? = some t)
    (hi : b'.insns = b.body ++ [t.retarget φ])
    (hn : t.op.isConditional = true → b'.next = φ b.next) : Retargets φ b b' := by
  have hends : (t.retarget φ).op.endsBlock = true := by
    simpa using endsBlock_of_terminator? ht
  refine ⟨body_of_append hi hends, ?_, fun hf => hn ?_⟩
  · rw [terminator?_of_append hi hends, ht]
    rfl
  · simpa [falls, ht] using hf

theorem retargets_of_none (ht : b.terminator? = none) (hi : b'.insns = b.insns)
    (hn : b'.next = φ b.next) : Retargets φ b b' := by
  have ht' : b'.terminator? = none := by
    rw [← ht]
    simp only [terminator?, tail?, hi]
  exact ⟨by rw [body_eq_insns ht', body_eq_insns ht, hi], by rw [ht', ht]; rfl, fun _ => hn⟩

end Block

end Deflatten

import Deflatten.Proofs.Arm64.Sources

/-!
# Proofs/Arm64/Tracking — what is known while a block is lifted

A register that holds a constant or a slot is read as that, and a pending comparison is saved before
its variables change.  `Lifting.Sound` says what both mean in a machine that has run the code so far:
the register has the value of what it holds, and the comparison reads only what is visible or only
what is saved.  An instruction that is appended does to the machine what it would have done without
the saving, and leaves the comparison as it stood (`Lifting.Sound.computes_emit`).
-/

namespace Deflatten

/-! ## Comparisons -/

namespace Compare

variable {c : Compare} {m m' : Machine} {v : Var}

/-- The variables that a comparison reads. -/
def reads (c : Compare) : List Var := c.l.reads ++ c.r.reads

theorem readsVar_iff : c.readsVar v = true ↔ v ∈ c.reads := by
  simp [readsVar, reads]

/-- The sides of a comparison as they stand in a machine. -/
def sides (m : Machine) (c : Compare) : Sides := ⟨m.value c.l, m.value c.r, c.l.size, c.r.size⟩

theorem sides_congr (h : ∀ v ∈ c.reads, m'.read v = m.read v) : c.sides m' = c.sides m := by
  have hl : m'.value c.l = m.value c.l :=
    Machine.value_congr fun v hv => h v (List.mem_append_left _ hv)
  have hr : m'.value c.r = m.value c.r :=
    Machine.value_congr fun v hv => h v (List.mem_append_right _ hv)
  rw [sides, sides, hl, hr]

/-- **A comparison that can be kept**: its sides have values, and it reads only what is visible or
only what is saved. -/
structure Kept (c : Compare) : Prop where
  left : c.l.Sized
  right : c.r.Sized
  /-- What is visible and what is saved do not mix. -/
  apart : (∀ v ∈ c.reads, Visible v) ∨ ∀ v ∈ c.reads, ¬ Visible v

theorem kept_of_isSource {a b : Operand} (ha : a.IsSource) (hb : b.IsSource) : Kept ⟨a, b⟩ :=
  ⟨ha.sized, hb.sized, .inl fun v hv => (List.mem_append.mp hv).elim (ha.visible v) (hb.visible v)⟩

end Compare

namespace Lifting

open Machine (Agree)

variable {o : LiftOptions} {s t u : Lifting} {m m' m₁ : Machine} {v w : Var} {p q : Option Sides}

/-! ## What a lifted block knows -/

/-- **What is tracked is true of a machine.** -/
structure Sound (s : Lifting) (m : Machine) : Prop where
  /-- Only general registers hold something. -/
  general : ∀ {n x}, (n, x) ∈ s.held.bindings → 0 ≤ n ∧ n ≤ 30
  /-- They hold constants and slots. -/
  simple : ∀ {n x}, (n, x) ∈ s.held.bindings → x.kind = .imm ∨ x.kind = .stack
  /-- They have the value of what they hold. -/
  held : ∀ {n x}, (n, x) ∈ s.held.bindings → m.read (.reg n) = m.value x
  kept : ∀ {c}, s.flags? = some c → c.Kept

/-- **What is tracked makes sense in every machine**, whether it is true there or not. -/
structure Orderly (s : Lifting) : Prop where
  simple : ∀ {n x}, (n, x) ∈ s.held.bindings → x.kind = .imm ∨ x.kind = .stack
  kept : ∀ {c}, s.flags? = some c → c.Kept

theorem Sound.orderly (h : s.Sound m) : s.Orderly := ⟨h.simple, h.kept⟩

/-- The pending comparison as it stands in a machine. -/
def pending (s : Lifting) (m : Machine) : Option Sides := s.flags?.map (Compare.sides m)

/-- No comparison is left to be saved. -/
def Settled (s : Lifting) : Prop := ∀ c, s.flags? = some c → ∀ v ∈ c.reads, ¬ Visible v

/-- **What saving the pending comparison leaves as it is.** -/
def Steady (s : Lifting) (v : Var) : Prop := Visible v ∨ s.Settled

theorem sound_empty (m : Machine) : ({} : Lifting).Sound m := ⟨nofun, nofun, nofun, nofun⟩

theorem Sound.visible_key (h : s.Sound m) {n : Int} {x : Operand} (hx : (n, x) ∈ s.held.bindings) :
    Visible (.reg n) := by
  obtain ⟨h₀, h₁⟩ := h.general hx
  simp only [Visible, Reg.flagLeft, Reg.flagRight, ne_eq, Var.reg.injEq]
  omega

theorem Sound.var_of_mem (h : s.Sound m) {n : Int} {x : Operand} (hx : (n, x) ∈ s.held.bindings)
    (hv : x.var? = some v) : ∃ base off, v = .stack base off := by
  rcases h.simple hx with hk | hk
  · exact absurd hk (Operand.kind_of_var? hv).1
  · exact ⟨_, _, Option.mem_unique hv (Operand.var?_of_stack hk)⟩

theorem Sound.reads_of_mem (h : s.Sound m) {n : Int} {x : Operand} (hx : (n, x) ∈ s.held.bindings)
    (hv : v ∈ x.reads) : x.var? = some v := by
  rcases h.simple hx with hk | hk
  · rw [Operand.reads_of_isImm hk] at hv
    cases hv
  · rw [Operand.reads_of_var? (Operand.var?_of_stack hk)] at hv
    rw [Operand.var?_of_stack hk, List.mem_singleton.mp hv]

/-- What is known stays true where no variable that it is about changes. -/
theorem Sound.of_read (h : s.Sound m)
    (hkey : ∀ {n x}, (n, x) ∈ s.held.bindings → m'.read (.reg n) = m.read (.reg n))
    (hvar : ∀ {n x v}, (n, x) ∈ s.held.bindings → x.var? = some v → m'.read v = m.read v) :
    s.Sound m' where
  general := h.general
  simple := h.simple
  held hx := by
    rw [hkey hx, h.held hx]
    exact (Machine.value_congr fun v hv => hvar hx (h.reads_of_mem hx hv)).symm
  kept := h.kept

theorem Sound.of_agree (h : s.Sound m) (ha : Agree Visible m m') : s.Sound m' :=
  h.of_read (fun hx => ha.read_eq _ (h.visible_key hx)) fun hx hv => by
    obtain ⟨base, off, rfl⟩ := h.var_of_mem hx hv
    exact ha.read_eq _ (visible_stack base off)

theorem pending_congr (h : ∀ c, s.flags? = some c → ∀ v ∈ c.reads, m'.read v = m.read v) :
    s.pending m' = s.pending m := by
  unfold pending
  cases hc : s.flags? with
  | none => rfl
  | some c => exact congrArg some (Compare.sides_congr (h c hc))

theorem Sound.steady_flags (h : s.Sound m) {c : Compare} (hc : s.flags? = some c) (hv : v ∈ c.reads) :
    s.Steady v := by
  rcases (h.kept hc).apart with hvis | hhid
  · exact .inl (hvis v hv)
  · refine .inr fun c' hc' => ?_
    obtain rfl := Option.mem_unique hc hc'
    exact hhid

/-! ## Reading registers -/

theorem mem_of_find? {k : Int} {x : Operand} :
    ∀ {bs : List (Int × Operand)}, Table.find? k bs = some x → (k, x) ∈ bs
  | (k', y) :: bs, h => by
    unfold Table.find? at h
    split at h
    · next hk =>
      cases h
      rw [hk]
      exact .head _
    · exact .tail _ (mem_of_find? h)

theorem mem_of_lookup? {n : Nat} {x : Operand} (h : s.lookup? o n = some x) :
    ((n : Int), x) ∈ s.held.bindings := by
  unfold lookup? at h
  split at h
  · exact mem_of_find? h
  · cases h

/-- **A register is read as its value**, whatever it is read as. -/
theorem Sound.value_read (h : s.Sound m) (o : LiftOptions) (n : Nat) (size : Int) :
    m.value (s.read o n size) = m.reg n size := by
  unfold read Machine.reg
  split
  · simp [truncate]
  split
  · next x hx =>
    have hmem := mem_of_lookup? hx
    rw [h.held hmem]
    split
    · next himm =>
      rw [Machine.value_imm, Machine.value_of_isImm (by simpa [Operand.isImm] using himm)]
    · next himm =>
      have hk : x.kind = .stack := (h.simple hmem).resolve_left (by simpa [Operand.isImm] using himm)
      split
      · next hsize => rw [← hsize, (Operand.sized_of_var? (Operand.var?_of_stack hk)).cut]
      · rw [Machine.value_register, h.held hmem]
  · exact Machine.value_register ..

theorem Orderly.isSource_read (h : s.Orderly) (o : LiftOptions) {n : Nat} (hn : n < 32) (size : Int) :
    (s.read o n size).IsSource ∧ (s.read o n size).size = size := by
  unfold read
  split
  · exact ⟨Operand.isSource_imm _ _, rfl⟩
  split
  · next x hx =>
    have hmem := mem_of_lookup? hx
    split
    · exact ⟨Operand.isSource_imm _ _, rfl⟩
    · next himm =>
      split
      · next hsize =>
        refine ⟨?_, hsize⟩
        have hk : x.kind = .stack := (h.simple hmem).resolve_left (by simpa [Operand.isImm] using himm)
        exact Operand.isSource_of_var? (Operand.var?_of_stack hk) (visible_stack _ _)
      · exact ⟨Operand.isSource_register hn _, rfl⟩
  · exact ⟨Operand.isSource_register hn _, rfl⟩

theorem Sound.isSource_read (h : s.Sound m) (o : LiftOptions) {n : Nat} (hn : n < 32) (size : Int) :
    (s.read o n size).IsSource ∧ (s.read o n size).size = size :=
  h.orderly.isSource_read o hn size

/-! ## Saving the pending comparison -/

/-- **Saving a comparison keeps its sides** and changes nothing visible. -/
theorem exists_perform_saveCode {c : Compare} (hc : c.Kept) (hvis : ∀ v ∈ c.reads, Visible v)
    (m : Machine) : ∃ m₁, m.perform (saveCode c) = .done m₁ ∧ Agree Visible m m₁ ∧
      (savedCompare c).sides m₁ = c.sides m := by
  have hleft : ¬ Visible (.reg Reg.flagLeft) := fun h => h.1 rfl
  have hright : ¬ Visible (.reg Reg.flagRight) := fun h => h.2 rfl
  have hl := Machine.step_mov (m := m) (d := .register Reg.flagLeft c.l.size) hc.left rfl
  have hagree := Machine.agree_assign_register hleft m c.l.size (m.value c.l)
  have hvalue : (m.assign (.register Reg.flagLeft c.l.size) (m.value c.l)).value c.r = m.value c.r :=
    hagree.value_eq fun v hv => hvis v (List.mem_append_right _ hv)
  by_cases himm : c.r.isImm = true
  · have hcode : saveCode c = [.mov c.l (.register Reg.flagLeft c.l.size)] := by
      simp [saveCode, savedCompare, himm]
    rw [hcode]
    refine ⟨_, Machine.perform_cons_eq_done.mpr ⟨_, hl, rfl⟩, hagree, ?_⟩
    simp only [Compare.sides, savedCompare, if_pos himm, hvalue, hc.left.value_assign]
    rfl
  · have hcode : saveCode c = [.mov c.l (.register Reg.flagLeft c.l.size),
        .mov c.r (.register Reg.flagRight c.r.size)] := by
      simp [saveCode, savedCompare, himm]
    have hr := Machine.step_mov (d := .register Reg.flagRight c.r.size)
      (m := m.assign (.register Reg.flagLeft c.l.size) (m.value c.l)) hc.right rfl
    rw [hcode]
    refine ⟨_, Machine.perform_cons_eq_done.mpr
      ⟨_, hl, Machine.perform_cons_eq_done.mpr ⟨_, hr, rfl⟩⟩,
      hagree.trans (Machine.agree_assign_register hright _ _ _), ?_⟩
    -- the right side is saved in another register than the left
    have hkeep : ∀ x, ((m.assign (.register Reg.flagLeft c.l.size) (m.value c.l)).assign
        (.register Reg.flagRight c.r.size) x).value (.register Reg.flagLeft c.l.size) =
        m.value c.l := fun x => by
      rw [Machine.value_register, Machine.read_assign_register, if_neg (by decide),
        ← Machine.value_register, hc.left.value_assign]
    have hself := hc.right.value_assign (m.assign (.register Reg.flagLeft c.l.size) (m.value c.l))
      Reg.flagRight
    rw [hvalue] at hself
    simp only [Compare.sides, savedCompare, if_neg himm, hkeep, hvalue, hself]
    rfl

/-- The saved comparison can be kept. -/
theorem kept_savedCompare {c : Compare} (hc : c.Kept) :
    (savedCompare c).Kept ∧ ∀ v ∈ (savedCompare c).reads, ¬ Visible v := by
  have hhid : ∀ v ∈ (savedCompare c).reads, ¬ Visible v := by
    intro v hv hvis
    unfold Compare.reads savedCompare at hv
    rcases List.mem_append.mp hv with hv | hv
    · exact hvis.1 (List.mem_singleton.mp hv)
    · dsimp only at hv
      split at hv
      · next himm =>
        rw [Operand.reads_of_isImm (by simpa [Operand.isImm] using himm)] at hv
        cases hv
      · exact hvis.2 (List.mem_singleton.mp hv)
  refine ⟨⟨Operand.sized_of_var? rfl, ?_, .inr hhid⟩, hhid⟩
  unfold savedCompare
  dsimp only
  split
  · exact hc.right
  · exact Operand.sized_of_var? rfl

/-! ## Preparing for a change -/

theorem bindings_forget (s : Lifting) (v : Var) :
    ∀ b ∈ (s.forget v).held.bindings, b ∈ s.held.bindings := by
  intro b hb
  unfold forget at hb
  split at hb
  · exact (List.mem_filter.mp hb).1
  · exact (List.mem_filter.mp hb).1
  · exact hb

theorem flags?_forget (s : Lifting) (v : Var) : (s.forget v).flags? = s.flags? := by
  unfold forget
  split <;> rfl

theorem Sound.forget (h : s.Sound m) (v : Var) : (s.forget v).Sound m where
  general hx := h.general (bindings_forget s v _ hx)
  simple hx := h.simple (bindings_forget s v _ hx)
  held hx := h.held (bindings_forget s v _ hx)
  kept hc := h.kept (flags?_forget s v ▸ hc)

/-- What is forgotten is everything that is about the variable. -/
theorem Sound.ne_of_forget (h : s.Sound m) {n : Int} {x : Operand}
    (hx : (n, x) ∈ (s.forget v).held.bindings) : Var.reg n ≠ v ∧ x.var? ≠ some v := by
  have hmem := bindings_forget s v _ hx
  unfold Lifting.forget at hx
  split at hx
  · refine ⟨fun heq => ?_, fun heq => ?_⟩
    · exact absurd (Var.reg.inj heq) (by simpa using (List.mem_filter.mp hx).2)
    · obtain ⟨base, off, hv⟩ := h.var_of_mem hmem heq
      cases hv
  · exact ⟨nofun, by simpa using (List.mem_filter.mp hx).2⟩
  · refine ⟨nofun, fun heq => ?_⟩
    obtain ⟨base, off, hv⟩ := h.var_of_mem hmem heq
    cases hv

/-- **A block that is prepared for a change of `v`**, and the machine that has run the code for it. -/
structure Cleared (s : Lifting) (m : Machine) (v : Var) (m₁ : Machine) : Prop where
  /-- The code runs. -/
  runs : ∃ is, (s.clobber v).code = s.code ++ is ∧ m.perform is = .done m₁
  /-- What is known is true. -/
  sound : (s.clobber v).Sound m₁
  /-- The comparison stands as it did. -/
  pending_eq : (s.clobber v).pending m₁ = s.pending m
  /-- What is steady is unchanged. -/
  agree : Agree s.Steady m m₁
  /-- Nothing is known about `v`. -/
  ne_of_held : ∀ {n x}, (n, x) ∈ (s.clobber v).held.bindings → Var.reg n ≠ v ∧ x.var? ≠ some v
  /-- The comparison does not read it. -/
  not_mem_reads : ∀ {c}, (s.clobber v).flags? = some c → v ∉ c.reads

theorem Sound.exists_cleared (h : s.Sound m) (hv : Visible v) : ∃ m₁, s.Cleared m v m₁ := by
  have hforget := h.forget v
  by_cases hsave : ∃ c, s.flags? = some c ∧ v ∈ c.reads
  · obtain ⟨c, hc, hmem⟩ := hsave
    have hkept := h.kept hc
    have hvis : ∀ w ∈ c.reads, Visible w :=
      hkept.apart.resolve_right fun hhid => hhid v hmem hv
    obtain ⟨m₁, hrun, hagree, hsides⟩ := exists_perform_saveCode hkept hvis m
    have heq : s.clobber v = { s.forget v with
        code := (s.forget v).code ++ saveCode c, flags? := some (savedCompare c) } := by
      rw [clobber, saveFlags, flags?_forget, hc]
      exact if_pos (Compare.readsVar_iff.mpr hmem)
    refine ⟨m₁, ⟨saveCode c, by rw [heq, code_forget], hrun⟩, ?_, ?_, ?_, ?_, ?_⟩
    · have hsound := hforget.of_agree hagree
      rw [heq]
      refine ⟨hsound.general, hsound.simple, hsound.held, fun hc' => ?_⟩
      exact Option.some.inj hc' ▸ (kept_savedCompare hkept).1
    · rw [heq, pending, pending, hc]
      exact congrArg some hsides
    · refine hagree.mono fun w hw => hw.resolve_right fun hsettled => ?_
      exact hsettled c hc v hmem hv
    · rw [heq]
      exact h.ne_of_forget
    · rw [heq]
      intro c' hc' hmem'
      exact (kept_savedCompare hkept).2 v (Option.some.inj hc' ▸ hmem') hv
  · have heq : s.clobber v = s.forget v := by
      rw [clobber, saveFlags, flags?_forget]
      split
      · next c hc => exact if_neg fun hmem => hsave ⟨c, hc, Compare.readsVar_iff.mp hmem⟩
      · rfl
    refine ⟨m, ⟨[], by rw [heq, code_forget, List.append_nil], rfl⟩, heq ▸ hforget, ?_, .refl _ m, ?_, ?_⟩
    · rw [heq, pending, pending, flags?_forget]
    · rw [heq]
      exact h.ne_of_forget
    · rw [heq, flags?_forget]
      exact fun {c} hc hmem => hsave ⟨c, hc, hmem⟩

/-! ## Code and meaning -/

/-- **The code appended from `s` to `t` takes `m` to `m'`**, up to the registers of saved comparisons,
and then `p` is the pending comparison. -/
def Computes (s : Lifting) (m : Machine) (t : Lifting) (m' : Machine) (p : Option Sides) : Prop :=
  ∃ is m₁, t.code = s.code ++ is ∧ m.perform is = .done m₁ ∧ t.Sound m₁ ∧ Agree Visible m' m₁ ∧
    t.pending m₁ = p

/-- **The code appended from `s` to `t` comes to an undefined value** when the calls `cs` are made. -/
def Stops (s : Lifting) (m : Machine) (t : Lifting) (cs : List CallEvent) : Prop :=
  ∃ is m₁ n, t.code = s.code ++ is ∧ m.perform is = .undefined m₁ n ∧ m₁.calls = cs

theorem Computes.refl (h : s.Sound m) : s.Computes m s m (s.pending m) :=
  ⟨[], m, by simp, rfl, h, .refl _ m, rfl⟩

/-- Code in a row. -/
theorem Computes.trans {m'' : Machine} (h : s.Computes m t m' p)
    (h' : ∀ m₁, t.Sound m₁ → Agree Visible m' m₁ → t.pending m₁ = p → t.Computes m₁ u m'' q) :
    s.Computes m u m'' q := by
  obtain ⟨is, m₁, hcode, hrun, hsound, hagree, hp⟩ := h
  obtain ⟨is', m₂, hcode', hrun', hrest⟩ := h' m₁ hsound hagree hp
  exact ⟨is ++ is', m₂, by rw [hcode', hcode, List.append_assoc],
    Machine.perform_append_eq_done.mpr ⟨m₁, hrun, hrun'⟩, hrest⟩

theorem Computes.congr {m'' : Machine} (h : s.Computes m t m' p) (ha : Agree Visible m'' m') :
    s.Computes m t m'' p := by
  obtain ⟨is, m₁, hcode, hrun, hsound, hagree, hp⟩ := h
  exact ⟨is, m₁, hcode, hrun, hsound, ha.trans hagree, hp⟩

theorem Computes.of_code_eq (h : t.Computes m u m' p) (hcode : t.code = s.code) :
    s.Computes m u m' p := by
  obtain ⟨is, m₁, hu, hrest⟩ := h
  exact ⟨is, m₁, hcode ▸ hu, hrest⟩

theorem Computes.stops {cs : List CallEvent} (h : s.Computes m t m' p)
    (h' : ∀ m₁, t.Sound m₁ → Agree Visible m' m₁ → t.pending m₁ = p → t.Stops m₁ u cs) :
    s.Stops m u cs := by
  obtain ⟨is, m₁, hcode, hrun, hsound, hagree, hp⟩ := h
  obtain ⟨is', m₂, n, hcode', hrun', hcalls⟩ := h' m₁ hsound hagree hp
  refine ⟨is ++ is', m₂, is.length + n, by rw [hcode', hcode, List.append_assoc], ?_, hcalls⟩
  rw [Machine.perform_append_of_done is' hrun, hrun', Performed.later_undefined]

theorem Stops.grows {cs : List CallEvent} (h : s.Stops m t cs) (hg : t.Grows u) : s.Stops m u cs := by
  obtain ⟨is, m₁, n, hcode, hrun, hcalls⟩ := h
  obtain ⟨is', hcode', -⟩ := hg
  exact ⟨is ++ is', m₁, n, by rw [hcode', hcode, List.append_assoc],
    Machine.perform_append_of_undefined is' hrun, hcalls⟩

/-- **Appending an instruction does what the instruction does.** -/
theorem Sound.computes_emit {i : Insn} (h : s.Sound m) (hi : i.op.endsBlock = false)
    (hdef : ∀ v, i.def? = some v → Visible v) (hr : ∀ v ∈ i.reads, s.Steady v)
    (hstep : m.step i = .next m') : s.Computes m (s.emit i) m' (s.pending m) := by
  cases hd : i.def? with
  | none =>
    have hread : ∀ v, m'.read v = m.read v := fun v => Machine.read_of_step hi hstep (by simp [hd])
    have hsound : s.Sound m' := h.of_read (fun _ => hread _) fun _ _ => hread _
    rw [emit_of_def?_none hd]
    exact ⟨[i], m', rfl, Machine.perform_cons_eq_done.mpr ⟨m', hstep, rfl⟩,
      ⟨hsound.general, hsound.simple, hsound.held, hsound.kept⟩, .refl _ m',
      pending_congr (s := s) fun _ _ v _ => hread v⟩
  | some v =>
    obtain ⟨m₁, hcleared⟩ := h.exists_cleared (hdef v hd)
    obtain ⟨is, hcode, hrun⟩ := hcleared.runs
    have hagree := hcleared.agree
    obtain ⟨m₂, hstep₁, hagree₁⟩ : ∃ m₂, m₁.step i = .next m₂ ∧ Agree Visible m' m₂ := by
      rcases hagree.step hi hr with ⟨hno, -⟩ | ⟨n, n', hn, hn', ha⟩
      · cases hstep.symm.trans hno
      · obtain rfl := Effect.next.inj (hstep.symm.trans hn)
        exact ⟨n', hn', ha.mono fun w hw => .inl (.inl hw)⟩
    have hread : ∀ w, w ≠ v → m₂.read w = m₁.read w := fun w hw =>
      Machine.read_of_step hi hstep₁ fun heq => hw (Option.mem_unique heq hd)
    have hsound : (s.clobber v).Sound m₂ := hcleared.sound.of_read
      (fun hx => hread _ (hcleared.ne_of_held hx).1)
      fun hx hw => hread _ fun heq => (hcleared.ne_of_held hx).2 (heq ▸ hw)
    rw [emit_of_def? hd]
    refine ⟨is ++ [i], m₂, by rw [code_push, hcode, List.append_assoc],
      Machine.perform_append_eq_done.mpr ⟨m₁, hrun, Machine.perform_cons_eq_done.mpr ⟨m₂, hstep₁, rfl⟩⟩,
      ⟨hsound.general, hsound.simple, hsound.held, hsound.kept⟩, hagree₁, ?_⟩
    rw [← hcleared.pending_eq]
    exact pending_congr (s := s.clobber v) fun c hc w hw =>
      hread w fun heq => hcleared.not_mem_reads hc (heq ▸ hw)

end Lifting

end Deflatten

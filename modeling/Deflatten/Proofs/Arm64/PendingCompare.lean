import Deflatten.Proofs.Arm64.Order
import Deflatten.Proofs.Arm64.Transparency

/-!
# Proofs/Arm64/PendingCompare — a recorded comparison outlives its operands

A comparison that is recorded while a block is lifted stands for the values that its sides have there.
What is appended later may overwrite the registers and slots that it reads; it is then saved first.
So at every later point, until it is replaced or dropped, the pending comparison has the sides that
were recorded (`Lifting.sides_of_replay`).  One action keeps them (`Lifting.carries_act`), and so does
every run of actions (`Lifting.carries_replay`).
-/

namespace Deflatten

namespace Lifting

variable {o : LiftOptions} {s t u : Lifting} {m : Machine} {c : Compare} {a : Action}
  {as : List Action} {i : Insn}

/-- **The comparison `c` is carried from `s` to `t`**: the code appended between the two is performed to
its end, and the pending comparison then has the sides that `c` had in `m`. -/
def Carries (s : Lifting) (m : Machine) (c : Compare) (t : Lifting) : Prop :=
  ∃ is m' c', t.code = s.code ++ is ∧ m.perform is = .done m' ∧ t.flags? = some c' ∧
    c'.sides m' = c.sides m

theorem carries_of_eq (hcode : t.code = s.code) (hc : t.flags? = some c) : s.Carries m c t :=
  ⟨[], m, c, by rw [hcode, List.append_nil], rfl, hc, rfl⟩

theorem Carries.trans (h : s.Carries m c t)
    (h' : ∀ m' c', t.flags? = some c' → t.Carries m' c' u) : s.Carries m c u := by
  obtain ⟨is, m₁, c₁, hcode, hrun, hc, hsides⟩ := h
  obtain ⟨js, m₂, c₂, hcode', hrun', hc', hsides'⟩ := h' m₁ c₁ hc
  exact ⟨is ++ js, m₂, c₂, by rw [hcode', hcode, List.append_assoc],
    Machine.perform_append_eq_done.mpr ⟨m₁, hrun, hrun'⟩, hc', hsides'.trans hsides⟩

/-! ## One action -/

theorem SparesCompare.exists_step (h : SparesCompare i) (m : Machine) : ∃ m', m.step i = .next m' := by
  obtain ⟨hends, hund⟩ := h.plain
  rcases m.step_cases hends with ⟨-, hstep⟩ | ⟨heq, -⟩ | ⟨-, hstep⟩ | ⟨-, hstep⟩ | ⟨-, hstep⟩ |
    ⟨-, -, hstep⟩ | ⟨-, _, _, hstep⟩
  · exact ⟨_, hstep⟩
  · exact absurd heq hund
  all_goals exact ⟨_, hstep⟩

/-- What registers hold plays no part in saving a comparison. -/
theorem clobber_held (s : Lifting) (k : Holdings) (v : Var) :
    (({ s with held := k } : Lifting).clobber v).code = (s.clobber v).code ∧
      (({ s with held := k } : Lifting).clobber v).flags? = (s.clobber v).flags? := by
  simp only [clobber, saveFlags, flags?_forget]
  cases hc : s.flags? with
  | none => simp only [code_forget, flags?_forget, hc, and_self]
  | some c =>
    dsimp only
    split <;> simp only [code_forget, flags?_forget, hc, and_self]

/-- **An instruction that is appended keeps the comparison**, saved or not. -/
theorem SparesCompare.carries (h : SparesCompare i) (hc : s.flags? = some c) (hkept : c.Kept)
    (m : Machine) : s.Carries m c (s.emit i) := by
  obtain ⟨hends, -⟩ := h.plain
  cases hd : i.def? with
  | none =>
    obtain ⟨m', hstep⟩ := h.exists_step m
    rw [emit_of_def?_none hd]
    exact ⟨[i], m', c, rfl, Machine.perform_cons_eq_done.mpr ⟨m', hstep, rfl⟩, hc,
      Compare.sides_congr fun v _ => Machine.read_of_step hends hstep (by simp [hd])⟩
  | some v =>
    -- with no register tracked, what is known is true of any machine
    let bare : Lifting := { s with held := .empty }
    have hsound : bare.Sound m :=
      ⟨nofun, nofun, nofun, fun hc' => Option.mem_unique hc hc' ▸ hkept⟩
    obtain ⟨m₁, hcleared⟩ := hsound.exists_cleared (h.visible v hd)
    obtain ⟨hcodeEq, hflagsEq⟩ := s.clobber_held .empty v
    obtain ⟨is, hcode, hrun⟩ := hcleared.runs
    obtain ⟨m₂, hstep⟩ := h.exists_step m₁
    have hpending : (bare.clobber v).pending m₁ = some (c.sides m) :=
      hcleared.pending_eq.trans (congrArg (Option.map (Compare.sides m)) hc)
    obtain ⟨c₁, hc₁, hsides⟩ := Option.map_eq_some_iff.mp hpending
    have hread : ∀ w ∈ c₁.reads, m₂.read w = m₁.read w := fun w hw =>
      Machine.read_of_step hends hstep fun heq =>
        hcleared.not_mem_reads hc₁ (Option.mem_unique heq hd ▸ hw)
    rw [emit_of_def? hd]
    refine ⟨is ++ [i], m₂, c₁, ?_, Machine.perform_append_eq_done.mpr
      ⟨m₁, hrun, Machine.perform_cons_eq_done.mpr ⟨m₂, hstep, rfl⟩⟩, hflagsEq.symm.trans hc₁,
      (Compare.sides_congr hread).trans hsides⟩
    rw [code_push, ← hcodeEq, ← List.append_assoc]
    exact congrArg (· ++ [i]) hcode

/-- **An action keeps the comparison**, unless it replaces or drops it. -/
theorem carries_act (ho : s.Orderly) (ha : s.Admits a) (hkeep : a.keeps = true)
    (hc : s.flags? = some c) (m : Machine) : s.Carries m c (s.act a) := by
  cases a with
  | record c' => cases hkeep
  | drop => cases hkeep
  | append i =>
    have hspares : SparesCompare i := ha.resolve_left (by simp [hc])
    exact hspares.carries hc (ho.kept hc) m
  | hold rd src => exact carries_of_eq rfl hc
  | release => exact carries_of_eq rfl hc

/-! ## Every later point -/

/-- **Actions in order keep the comparison**, unless one replaces or drops it. -/
theorem carries_replay (ho : s.Orderly) (hs : s.Suits as) (hkeep : ∀ a ∈ as, a.keeps = true)
    (hc : s.flags? = some c) (m : Machine) : s.Carries m c (s.replay as) := by
  induction as generalizing s c m with
  | nil => exact carries_of_eq rfl hc
  | cons a as ih =>
    have hstep := carries_act ho hs.1 (hkeep a (.head _)) hc m
    exact hstep.trans fun m' c' hc' =>
      ih (ho.act hs.1) hs.2 (fun b hb => hkeep b (.tail _ hb)) hc' m'

/-- **A pending comparison is never corrupted.**  Lifting is a list of actions, and wherever one of them
records a comparison, the code appended from there to any later point, before the comparison is replaced
or dropped, takes every machine to one in which the pending comparison has the two values that were
compared, at the same widths. -/
theorem sides_of_replay (o : LiftOptions) (xs : List Inst) :
    Lifting.insts o {} xs = (logAll o {} xs).map (replay {}) ∧
    ∀ as bs cs c, logAll o {} xs = .ok (as ++ .record c :: (bs ++ cs)) →
      (∀ a ∈ bs, a.keeps = true) →
      ∀ m : Machine, ∃ is m' c',
        (replay {} (as ++ .record c :: bs)).code = (replay {} as).code ++ is ∧
        m.perform is = .done m' ∧
        (replay {} (as ++ .record c :: bs)).flags? = some c' ∧
        m'.value c'.l = m.value c.l ∧ m'.value c'.r = m.value c.r ∧
        c'.l.size = c.l.size ∧ c'.r.size = c.r.size := by
  refine ⟨insts_eq_logAll o {} xs, fun as bs cs c hlog hkeep m => ?_⟩
  have hsuits := suits_append.mp (suits_logAll orderly_empty hlog)
  have hbefore := orderly_empty.replay hsuits.1
  have hafter := (suits_append.mp hsuits.2.2).1
  obtain ⟨is, m', c', hcode, hrun, hc', hsides⟩ :=
    carries_replay (hbefore.act hsuits.2.1) hafter hkeep (c := c) rfl m
  refine ⟨is, m', c', ?_, hrun, ?_, ?_⟩
  · rw [replay_append, replay_cons, hcode]
    rfl
  · rw [replay_append, replay_cons, hc']
  · simp only [Compare.sides, Sides.mk.injEq] at hsides
    exact hsides

/-- A slot is compared, read as what a register holds, and then overwritten. -/
theorem sides_of_replay_comparesSlot :
    let slot := Operand.stackAt 31 8 8
    let as := [Action.append (.mov (.imm 5 8) (.register 1 8)), .hold 1 (.imm 5 8),
      .append (.mov (.imm 5 8) slot), .append (.mov slot (.register 2 8)), .hold 2 slot]
    let bs := [Action.append (.mov (.imm 7 8) (.register 3 8)), .hold 3 (.imm 7 8),
      .append (.mov (.imm 7 8) slot)]
    let m := ({} : Machine).assign slot 5
    logAll {} {} (MachineFunc.comparesSlot.take 6) = .ok (as ++ .record ⟨slot, .imm 5 8⟩ :: bs) ∧
    ∃ is m' c', (replay {} (as ++ .record ⟨slot, .imm 5 8⟩ :: bs)).code = (replay {} as).code ++ is ∧
      m.perform is = .done m' ∧
      (replay {} (as ++ .record ⟨slot, .imm 5 8⟩ :: bs)).flags? = some c' ∧
      m'.value c'.l = m.value slot ∧ m'.value c'.r = m.value (.imm 5 8) := by
  intro slot as bs m
  have hlog : logAll {} {} (MachineFunc.comparesSlot.take 6) =
      .ok (as ++ .record ⟨slot, .imm 5 8⟩ :: bs) := by decide +kernel
  obtain ⟨is, m', c', hcode, hrun, hc', hl, hr, -⟩ :=
    (sides_of_replay {} (MachineFunc.comparesSlot.take 6)).2 as bs [] _ hlog (by decide) m
  exact ⟨hlog, is, m', c', hcode, hrun, hc', hl, hr⟩

end Lifting

end Deflatten

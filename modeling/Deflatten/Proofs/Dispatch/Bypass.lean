import Deflatten.Proofs.Dispatch.Resolution
import Deflatten.Proofs.Editing.Edits

/-!
# Proofs/Dispatch/Bypass — moving one edge past a region

`Func.Detour` lists the three forms that an edge takes when it is led past a region: the instructions
of the way stand at the end of the block, there are none, or they have a block of their own.  If they
stand for the way that executions take there (`Func.Stands`), the function returns what it did
(`Detour.refines`), and comes to no place where it did not come before (`Detour.covers`).
-/

namespace Deflatten

namespace Block

/-- Ends in a conditional jump. -/
def IsBranch (b : Block) : Prop := ∃ t, b.terminator? = some t ∧ t.op.isConditional = true

theorem IsBranch.congr {b b' : Block} (h : b.IsBranch) (hc : b'.content = b.content) :
    b'.IsBranch := by
  obtain ⟨t, ht, hop⟩ := h
  exact ⟨t, by rw [terminator?_congr hc, ht], hop⟩

theorem IsBranch.retargets {b b' : Block} {φ : Int → Int} (h : b.IsBranch)
    (hr : b.Retargets φ b') : b'.IsBranch := by
  obtain ⟨t, ht, hop⟩ := h
  exact ⟨t.retarget φ, by rw [hr.terminator_eq, ht]; rfl, by simpa using hop⟩

/-- Falls through or jumps to `e`, and can do nothing else. -/
def OnlyGoes (b : Block) (e : Int) : Prop :=
  match b.terminator? with
  | none => b.next = e
  | some t => t.op = .goto ∧ t.d.block = e

theorem OnlyGoes.leave {b : Block} {e : Int} (h : b.OnlyGoes e) (m : Machine) :
    b.leave m = .toward e := by
  unfold OnlyGoes at h
  cases ht : b.terminator? with
  | none =>
    rw [ht] at h
    rw [leave_none ht, h]
  | some t =>
    rw [ht] at h
    rw [leave_goto ht h.1, h.2]

theorem OnlyGoes.not_isBranch {b : Block} {e : Int} (h : b.OnlyGoes e) : ¬ b.IsBranch := by
  rintro ⟨t, ht, hc⟩
  simp only [OnlyGoes, ht] at h
  exact (t.op.ne_of_isConditional hc).2 h.1

/-- A block that jumps at most goes to its exit only. -/
theorem onlyGoes_of_mem_exits {b : Block} {e : Int} (h : b.terminator?.all fun t => t.op == .goto)
    (he : e ∈ b.exits) : b.OnlyGoes e := by
  unfold OnlyGoes
  cases ht : b.terminator? with
  | none =>
    rw [exits_none ht] at he
    split at he
    · simp at he
    · simpa [eq_comm] using he
  | some t =>
    have hg : t.op = .goto := by simpa [ht] using h
    rw [exits_goto ht hg, List.mem_singleton] at he
    exact ⟨hg, he.symm⟩

/-! ## Instructions in front of the terminator -/

section InsertBeforeEnd

variable {b : Block} {is : List Insn}

theorem insns_insertBeforeEnd (b : Block) (is : List Insn) :
    (b.insertBeforeEnd is).insns = b.body ++ is ++ b.terminator?.toList := by
  have hdrop : b.insns.drop b.body.length = b.terminator?.toList := by
    conv_lhs => rw [b.insns_eq]
    exact List.drop_left
  rw [insertBeforeEnd, insns_withInsns, hdrop]

/-- **They end the body**, and the block is left as before. -/
theorem insertBeforeEnd_spec (hb : Plain b.body) (hp : Plain is) :
    (b.insertBeforeEnd is).terminator? = b.terminator? ∧
      (b.insertBeforeEnd is).body = b.body ++ is := by
  have hins := insns_insertBeforeEnd b is
  cases ht : b.terminator? with
  | none =>
    rw [ht, Option.toList_none, List.append_nil] at hins
    have hplain : Plain (b.insertBeforeEnd is).insns := hins ▸ hb.append hp
    exact ⟨terminator?_of_plain hplain, (body_of_plain hplain).trans hins⟩
  | some t =>
    rw [ht, Option.toList_some] at hins
    have hends := endsBlock_of_terminator? ht
    exact ⟨terminator?_of_append hins hends, body_of_append hins hends⟩

theorem exits_insertBeforeEnd (hb : Plain b.body) (hp : Plain is) :
    (b.insertBeforeEnd is).exits = b.exits := by
  have hnext : (b.insertBeforeEnd is).next = b.next := rfl
  simp only [exits, (insertBeforeEnd_spec hb hp).1, hnext]

theorem Fits.insertBeforeEnd {n : Nat} (h : b.Fits n) (hp : Plain is) :
    (b.insertBeforeEnd is).Fits n := by
  obtain ⟨hterm, hbody⟩ := insertBeforeEnd_spec h.plain hp
  exact ⟨hbody ▸ h.plain.append hp, hterm ▸ h.aims, hterm ▸ h.falls,
    exits_insertBeforeEnd h.plain hp ▸ h.inside⟩

end InsertBeforeEnd

end Block

namespace Func

/-- **The edge from `src` to `e` is led to `target` instead**, performing `is` on the way. -/
inductive Detour (f g : Func) (src : Int) (b : Block) (e target : Int) : List Insn → Prop
  /-- At the end of the block, which goes nowhere else. -/
  | inline {is : List Insn} {b' : Block} {j : Insn} (hg : f.Alters g src)
      (hb' : g.block? src = some b') (hall : b.OnlyGoes e)
      (hi : b'.insns = b.body ++ is ++ [j]) (hj : j.op = .goto) (ht : j.d.block = target) :
      Detour f g src b e target is
  /-- With nothing to perform. -/
  | moved {b' : Block} (hg : f.Alters g src) (hb' : g.block? src = some b')
      (hr : b.Retargets (moved e target) b') : Detour f g src b e target []
  /-- In a block of their own. -/
  | aside {is : List Insn} {b' t : Block} (hwf : g.WellFormed)
      (hlen : g.blocks.length = f.blocks.length + 1)
      (hcont : ∀ x : Int, x ≠ src → x ≠ f.blocks.length → g.content? x = f.content? x)
      (hb' : g.block? src = some b') (hr : b.Retargets (Func.moved e f.blocks.length) b')
      (ht : g.block? f.blocks.length = some t) (hc : t.content = (is ++ [.goto target], noBlock)) :
      Detour f g src b e target is

namespace Detour

variable {f g : Func} {src e target : Int} {b : Block} {is : List Insn}
  (h : Detour f g src b e target is)
include h

theorem wellFormed : g.WellFormed := by
  cases h with
  | inline hg => exact hg.wellFormed
  | moved hg => exact hg.wellFormed
  | aside hwf => exact hwf

theorem length_le : f.blocks.length ≤ g.blocks.length := by
  cases h with
  | inline hg => exact Nat.le_of_eq hg.length_eq.symm
  | moved hg => exact Nat.le_of_eq hg.length_eq.symm
  | aside _ hlen => omega

theorem content_eq {s : Int} (hs : s ≠ src) (hlt : s < f.blocks.length) :
    g.content? s = f.content? s := by
  cases h with
  | inline hg => exact hg.content_eq hs
  | moved hg => exact hg.content_eq hs
  | aside _ _ hcont => exact hcont s hs (Int.ne_of_lt hlt)

/-! ## Visits of the changed block -/

section Visits

variable {m m' : Machine} {n c : Nat} {o : Halt} {s : Int}

/-- **A visit that ends, ends as before.** -/
theorem stops {N : Nat} (hfit : b.Fits N) (he : e ∈ b.exits) (htgt : 0 ≤ target)
    (hv : b.visit m = .stops m' n o) :
    ∃ b', g.block? src = some b' ∧ b'.visit m = .stops m' n o := by
  have hne : e ≠ noBlock := ne_noBlock (hfit.inside e he).1
  cases h with
  | @inline is b' j hg hb' hall hi hj ht =>
    refine ⟨b', hb', ?_⟩
    unfold Block.visit at hv
    cases hm : m.perform b.body with
    | done m₁ => simp [hm, hall.leave, hne] at hv
    | undefined m₁ c =>
      simp only [hm, Visit.stops.injEq] at hv
      obtain ⟨rfl, rfl, rfl⟩ := hv
      rw [Block.visit_of_goto hi hj (ht ▸ ne_noBlock htgt),
        Machine.perform_append_of_undefined is hm]
  | moved hg hb' hr => exact ⟨_, hb', by rw [visit_moved hfit he htgt hr, hv]; rfl⟩
  | aside _ _ _ hb' hr =>
    exact ⟨_, hb', by rw [visit_moved hfit he (Int.natCast_nonneg _) hr, hv]; rfl⟩

/-- **A visit that goes elsewhere goes there as before.** -/
theorem goes {N : Nat} (hfit : b.Fits N) (he : e ∈ b.exits) (htgt : 0 ≤ target)
    (hv : b.visit m = .goes m' n s) (hs : s ≠ e) :
    ∃ b', g.block? src = some b' ∧ b'.visit m = .goes m' n s := by
  cases h with
  | inline _ _ hall =>
    obtain ⟨-, hl, -, -⟩ := Block.visit_eq_goes.mp hv
    rw [hall.leave] at hl
    exact absurd (Leaving.toward.inj hl).symm hs
  | moved hg hb' hr =>
    refine ⟨_, hb', ?_⟩
    rw [visit_moved hfit he htgt hr, hv, Visit.mapTarget, moved_of_ne hs]
  | aside _ _ _ hb' hr =>
    refine ⟨_, hb', ?_⟩
    rw [visit_moved hfit he (Int.natCast_nonneg _) hr, hv, Visit.mapTarget, moved_of_ne hs]

/-- **A visit that would go to `e` comes to `target`**, having performed the instructions. -/
theorem skips {N : Nat} (hfit : b.Fits N) (he : e ∈ b.exits) (htgt : 0 ≤ target)
    (hv : b.visit m = .goes m' n e) {m'' : Machine} (hm : m'.perform is = .done m'') :
    ∃ k c, g.Reaches m src k c m'' target ∧ c ≤ n + is.length + 1 := by
  have hnb := ne_noBlock htgt
  obtain ⟨hm', -, -, hn⟩ := Block.visit_eq_goes.mp hv
  cases h with
  | @inline is b' j hg hb' hall hi hj ht =>
    subst ht
    have hvis := Block.visit_of_goto hi hj hnb m
    rw [Machine.perform_append_eq_done.mpr ⟨m', hm', hm⟩] at hvis
    refine ⟨1, _, .single hb' hvis, ?_⟩
    have := b.length_body_le
    simp only [List.length_append]
    omega
  | moved hg hb' hr =>
    obtain rfl := Performed.done.inj hm
    have hvis := visit_moved hfit he htgt hr m
    rw [hv, Visit.mapTarget, moved_self] at hvis
    exact ⟨1, n, .single hb' hvis, by omega⟩
  | @aside is b' t _ _ _ hb' hr ht hc =>
    have hvis := visit_moved hfit he (Int.natCast_nonneg _) hr m
    rw [hv, Visit.mapTarget, moved_self] at hvis
    have hi : t.insns = is ++ [.goto target] := congrArg Prod.fst hc
    have htv := Block.visit_of_goto hi rfl hnb m'
    rw [hm] at htv
    exact ⟨2, _, (Reaches.single hb' hvis).goes ht htv, by omega⟩

/-- **Where a visit of the changed block comes from.** -/
theorem cases_src {N : Nat} (hfit : b.Fits N) (he : e ∈ b.exits) (htgt : 0 ≤ target) {b' : Block}
    (hb' : g.block? src = some b') (hv : b'.visit m = .goes m' c s) :
    (∃ n, b.visit m = .goes m' n s) ∨
      (s = target ∧ ∃ m₁ n, b.visit m = .goes m₁ n e ∧ m₁.perform is = .done m') ∨
      (s = f.blocks.length ∧ ∃ n, b.visit m = .goes m' n e) := by
  have hmoved : ∀ {x : Int}, 0 ≤ x → b.Retargets (Func.moved e x) b' →
      (∃ n, b.visit m = .goes m' n s) ∨ (s = x ∧ ∃ n, b.visit m = .goes m' n e) := by
    intro x hx hr
    rw [visit_moved hfit he hx hr] at hv
    cases hvb : b.visit m with
    | stops m₁ n o => simp [hvb, Visit.mapTarget] at hv
    | goes m₁ n s₁ =>
      simp only [hvb, Visit.mapTarget, Visit.goes.injEq] at hv
      obtain ⟨rfl, rfl, rfl⟩ := hv
      by_cases hs : s₁ = e
      · exact .inr ⟨by rw [hs, moved_self], _, by rw [hs]⟩
      · exact .inl ⟨_, by rw [moved_of_ne hs]⟩
  cases h with
  | @inline is b₁ j hg hb₁ hall hi hj ht =>
    obtain rfl := Option.mem_unique hb' hb₁
    have hne : e ≠ noBlock := ne_noBlock (hfit.inside e he).1
    rw [Block.visit_of_goto hi hj (ht ▸ ne_noBlock htgt)] at hv
    cases hm : m.perform (b.body ++ is) with
    | undefined m₁ n => simp [hm] at hv
    | done m₁ =>
      simp only [hm, Visit.goes.injEq] at hv
      obtain ⟨rfl, -, rfl⟩ := hv
      obtain ⟨m₂, hm₂, hm⟩ := Machine.perform_append_eq_done.mp hm
      exact .inr (.inl ⟨ht, m₂, _, Block.visit_eq_goes.mpr ⟨hm₂, hall.leave m₂, hne, rfl⟩, hm⟩)
  | moved hg hb₁ hr =>
    obtain rfl := Option.mem_unique hb' hb₁
    rcases hmoved htgt hr with h | ⟨h, n, hn⟩
    · exact .inl h
    · exact .inr (.inl ⟨h, m', n, hn, rfl⟩)
  | aside _ _ _ hb₁ hr =>
    obtain rfl := Option.mem_unique hb' hb₁
    rcases hmoved (Int.natCast_nonneg _) hr with h | ⟨h, n, hn⟩
    · exact .inl h
    · exact .inr (.inr ⟨h, n, hn⟩)

/-- **A block that was not there performs the instructions and goes to `target`.** -/
theorem cases_new (htgt : 0 ≤ target) (hs : (f.blocks.length : Int) ≤ s) {t : Block}
    (ht : g.block? s = some t) {s' : Int} (hv : t.visit m = .goes m' c s') :
    s' = target ∧ m.perform is = .done m' := by
  have hlt := (lt_of_block? ht).2
  cases h with
  | inline hg =>
    have := hg.length_eq
    omega
  | moved hg =>
    have := hg.length_eq
    omega
  | @aside is b' t' _ hlen _ _ _ ht' hc =>
    obtain rfl : s = f.blocks.length := by omega
    obtain rfl := Option.mem_unique ht ht'
    have hnb := ne_noBlock htgt
    have hi : t.insns = is ++ [.goto target] := congrArg Prod.fst hc
    rw [Block.visit_of_goto hi rfl hnb] at hv
    cases hm : m.perform is with
    | undefined m₁ n => simp [hm] at hv
    | done m₁ =>
      simp only [hm, Visit.goes.injEq] at hv
      obtain ⟨rfl, -, rfl⟩ := hv
      exact ⟨rfl, rfl⟩

end Visits

/-! ## The whole function -/

/-- **No edge is new but those to `target` and to a block that was not there.** -/
theorem edge (hf : f.Shaped) (hb : f.block? src = some b) (he : e ∈ b.exits) (htgt : 0 ≤ target)
    {p s : Int} (hps : g.Edge p s) : f.Edge p s ∨ s = target ∨ s = f.blocks.length := by
  obtain ⟨b₁, hb₁, hs⟩ := hps
  have hfit := hf.fits hb
  have hother : g.content? p = f.content? p → f.Edge p s := fun hc =>
    (edge_congr hc).mp ⟨b₁, hb₁, hs⟩
  have hmoved : ∀ {x : Int}, 0 ≤ x → p = src → b.Retargets (Func.moved e x) b₁ →
      f.Edge p s ∨ s = x := by
    rintro x hx rfl hr
    rcases mem_exits_moved hfit he hx hr hs with ⟨hs, -⟩ | hs
    · exact .inl ⟨b, hb, hs⟩
    · exact .inr hs
  cases h with
  | @inline is b' j hg hb' hall hi hj ht =>
    by_cases hp : p = src
    · subst hp
      obtain rfl := Option.mem_unique hb₁ hb'
      rw [Block.exits_goto (Block.terminator?_of_append hi (by rw [hj]; rfl)) hj] at hs
      exact .inr (.inl ((List.mem_singleton.mp hs).trans ht))
    · exact .inl (hother (hg.content_eq hp))
  | moved hg hb' hr =>
    by_cases hp : p = src
    · obtain rfl := Option.mem_unique hb₁ (hp ▸ hb')
      exact (hmoved htgt hp hr).imp id .inl
    · exact .inl (hother (hg.content_eq hp))
  | @aside is b' t _ _ hcont hb' hr ht hc =>
    by_cases hp : p = src
    · obtain rfl := Option.mem_unique hb₁ (hp ▸ hb')
      exact (hmoved (Int.natCast_nonneg _) hp hr).imp id .inr
    · by_cases hpn : p = f.blocks.length
      · obtain rfl := Option.mem_unique hb₁ (hpn ▸ ht)
        have hi : b₁.insns = is ++ [.goto target] := congrArg Prod.fst hc
        rw [Block.exits_goto (Block.terminator?_of_append hi rfl) rfl] at hs
        exact .inr (.inl (List.mem_singleton.mp hs))
      · exact .inl (hother (hcont p hp hpn))

/-- Conditional jumps stay conditional jumps. -/
theorem isBranch (hb : f.block? src = some b) {s : Int} {b₁ : Block} (hb₁ : f.block? s = some b₁)
    (hbr : b₁.IsBranch) : ∃ b₂, g.block? s = some b₂ ∧ b₂.IsBranch := by
  by_cases hs : s = src
  · subst hs
    obtain rfl := Option.mem_unique hb hb₁
    cases h with
    | inline _ _ hall => exact absurd hbr hall.not_isBranch
    | moved _ hb' hr => exact ⟨_, hb', hbr.retargets hr⟩
    | aside _ _ _ hb' hr => exact ⟨_, hb', hbr.retargets hr⟩
  · obtain ⟨b₂, hb₂, hc⟩ := exists_of_content? (h.content_eq hs (lt_of_block? hb₁).2) hb₁
    exact ⟨b₂, hb₂, hbr.congr hc⟩

/-- **A function with an edge led past a region returns what it did**, in no more steps, if what is
performed on the new edge stands for the way that executions took. -/
theorem refines (hf : f.Shaped) (hb : f.block? src = some b) (he : e ∈ b.exits) (htgt : 0 ≤ target)
    (hst : ∀ {m m' n}, f.Reachable m src → b.visit m = .goes m' n e → f.Stands e is target m') :
    f.Refines g := by
  have hfit := hf.fits hb
  rintro m n v cs ⟨k, n', hn', hf'⟩
  refine EndsWithin.mono (HaltsIn.simulate
    (R := fun m s m' s' => m = m' ∧ s = s' ∧ f.Reachable m s) ?_ ⟨rfl, rfl, .entry m⟩ hf') hn'
  rintro m s _ _ k n cs ⟨rfl, rfl, hr⟩ hh
  by_cases hs : s = src
  · subst hs
    cases hv : b.visit m with
    | stops m₁ c o =>
      obtain ⟨rfl, rfl, rfl, rfl⟩ := hh.of_stops hb hv
      obtain ⟨b', hb', hv'⟩ := h.stops hfit he htgt hv
      exact .inl (HaltsIn.stops hb' hv').endsWithin
    | goes m₁ c s₁ =>
      obtain ⟨k₁, n₁, rfl, rfl, hh₁⟩ := hh.of_goes hb hv
      by_cases hse : s₁ = e
      · subst hse
        rcases hst hr hv with ⟨m₂, k₂, n₂, hm₂, hr₂, hlt⟩ | ⟨-, k₂, n₂, cs₂, hund⟩
        · obtain ⟨k₃, n₃, rfl, rfl, hh₃⟩ := hh₁.rest hr₂
          obtain ⟨j, c', hg, hc'⟩ := h.skips hfit he htgt hv hm₂
          exact .inr ⟨k₃, n₃, m₂, target, j, c', m₂, target, by omega, hh₃, hg, by omega, rfl, rfl,
            (hr.goes hb hv).of_reaches hr₂⟩
        · -- the other execution is undefined, this one returns
          have := (hh₁.unique hund).2.2.1
          cases this
      · obtain ⟨b', hb', hv'⟩ := h.goes hfit he htgt hv hse
        exact .inr ⟨k₁, n₁, m₁, s₁, 1, c, m₁, s₁, by omega, hh₁, .single hb' hv', Nat.le_refl _,
          rfl, rfl, hr.goes hb hv⟩
  · obtain ⟨b₁, hb₁⟩ := hh.exists_block
    obtain ⟨b₂, hb₂, hc⟩ := exists_of_content? (h.content_eq hs (lt_of_block? hb₁).2) hb₁
    cases hv : b₁.visit m with
    | stops m₁ c o =>
      obtain ⟨rfl, rfl, rfl, rfl⟩ := hh.of_stops hb₁ hv
      exact .inl (HaltsIn.stops hb₂ ((Block.visit_of_content hc m).trans hv)).endsWithin
    | goes m₁ c s₁ =>
      obtain ⟨k₁, n₁, rfl, rfl, hh₁⟩ := hh.of_goes hb₁ hv
      exact .inr ⟨k₁, n₁, m₁, s₁, 1, c, m₁, s₁, by omega, hh₁,
        .single hb₂ ((Block.visit_of_content hc m).trans hv), Nat.le_refl _, rfl, rfl,
        hr.goes hb₁ hv⟩

/-- **…and comes to no place of the function where it did not come before.** -/
theorem covers (hf : f.Shaped) (hb : f.block? src = some b) (he : e ∈ b.exits)
    (htgt : 0 ≤ target ∧ target < f.blocks.length)
    (hst : ∀ {m m' n}, f.Reachable m src → b.visit m = .goes m' n e → f.Stands e is target m') :
    f.Covers g := by
  have hfit := hf.fits hb
  have hpos : (0 : Int) < f.blocks.length := by
    have := lt_of_block? hb
    omega
  -- the instructions are performed from where executions left for `e`
  have harrive : ∀ {m m₁ m' n}, f.Reachable m src → b.visit m = .goes m₁ n e →
      m₁.perform is = .done m' → f.Reachable m' target := by
    intro m m₁ m' n hr hv hm
    rcases hst hr hv with ⟨m₂, k₂, n₂, hm₂, hr₂, -⟩ | ⟨hne, -⟩
    · obtain rfl := Performed.done.inj (hm.symm.trans hm₂)
      exact (hr.goes hb hv).of_reaches hr₂
    · exact absurd hm (hne m')
  intro m s hlt hr
  have key : (s < f.blocks.length → f.Reachable m s) ∧ ((f.blocks.length : Int) ≤ s →
      ∃ m₀ n, f.Reachable m₀ src ∧ b.visit m₀ = .goes m n e) := by
    refine Reachable.induct (P := fun m s => (s < f.blocks.length → f.Reachable m s) ∧
      ((f.blocks.length : Int) ≤ s → ∃ m₀ n, f.Reachable m₀ src ∧ b.visit m₀ = .goes m n e))
      (fun m => ⟨fun _ => .entry m, fun h => by omega⟩) ?_ hr
    intro m s b₁ m' c s' _ ⟨hold, hnew⟩ hb₁ hv
    by_cases hs : (f.blocks.length : Int) ≤ s
    · obtain ⟨m₀, n, hr₀, hv₀⟩ := hnew hs
      obtain ⟨rfl, hm⟩ := h.cases_new htgt.1 hs hb₁ hv
      exact ⟨fun _ => harrive hr₀ hv₀ hm, fun hge => by omega⟩
    · have hrs := hold (by omega)
      by_cases hsrc : s = src
      · subst hsrc
        rcases h.cases_src hfit he htgt.1 hb₁ hv with ⟨n, hvb⟩ | ⟨rfl, m₁, n, hvb, hm⟩ | ⟨rfl, n, hvb⟩
        · have := hfit.inside s' (Block.mem_exits_of_visit hvb)
          exact ⟨fun _ => hrs.goes hb hvb, fun hge => by omega⟩
        · exact ⟨fun _ => harrive hrs hvb hm, fun hge => by omega⟩
        · exact ⟨fun hlt => by omega, fun _ => ⟨m, n, hrs, hvb⟩⟩
      · obtain ⟨b₂, hb₂, hc⟩ := exists_of_content? (h.content_eq hsrc (by omega)).symm hb₁
        have hv₂ := (Block.visit_of_content hc m).trans hv
        have := (hf.fits hb₂).inside s' (Block.mem_exits_of_visit hv₂)
        exact ⟨fun _ => hrs.goes hb₂ hv₂, fun hge => by omega⟩
  exact key.1 hlt

end Detour

/-! ## Making the detour -/

variable {f : Func} {src e target : Int} {b : Block} {is : List Insn}

/-- The last part of a bypass: the edge itself. -/
def turn (src e target : Int) : Edit Unit := do
  let b ← Edit.ofExcept ((← get).getBlock src)
  if b.terminator?.isNone && b.next == e then Func.appendGoto src target
  else Func.redirect src e target

theorem bypass_eq (hb : f.block? src = some b) :
    bypass src e target is f =
      if is.isEmpty then turn src e target f
      else if b.terminator?.all fun t => t.op == .goto then
        turn src e target (f.modifyBlock src fun b => b.insertBeforeEnd is)
      else match appendBlock (is ++ [.goto target]) f with
        | .ok x g => turn src e x g
        | .error err g => .error err g := by
  have hget : f.getBlock src = .ok b := by simp [getBlock, hb]
  by_cases h₁ : is.isEmpty
  · simp only [bypass, turn, h₁, if_true, bind, EStateM.bind, get_apply, hget, Edit.ofExcept, pure,
      EStateM.pure]
  · by_cases h₂ : b.terminator?.all fun t => t.op == .goto
    · simp only [bypass, turn, h₁, h₂, if_true, if_false, bind, EStateM.bind, get_apply, set_apply,
        hget, Edit.ofExcept, pure, EStateM.pure, Bool.false_eq_true]
    · simp only [bypass, turn, h₁, h₂, if_false, bind, EStateM.bind, get_apply, hget,
        Edit.ofExcept, pure, EStateM.pure, Bool.false_eq_true]
      cases appendBlock (is ++ [.goto target]) f <;> rfl

/-- The edge of a block that only falls through becomes a jump, any other is moved. -/
theorem turn_spec (hf : f.Shaped) (hb : f.block? src = some b) (he : e ∈ b.exits)
    (htgt : ∃ t, f.block? target = some t) :
    ∃ g b', turn src e target f = .ok () g ∧ f.Alters g src ∧ g.block? src = some b' ∧
      ((b.terminator? = none ∧ b.next = e ∧ b'.content = (b.insns ++ [.goto target], noBlock)) ∨
        (b.terminator? ≠ none ∧ b.Retargets (moved e target) b')) := by
  have hget : f.getBlock src = .ok b := by simp [getBlock, hb]
  have hrun : turn src e target f = (if b.terminator?.isNone && b.next == e then
      appendGoto src target else redirect src e target) f := by
    simp only [turn, hget, bind, EStateM.bind, get_apply, Edit.ofExcept, pure, EStateM.pure]
  cases ht : b.terminator? with
  | none =>
    have hnext : b.next = e := by
      simpa [Block.OnlyGoes, ht] using Block.onlyGoes_of_mem_exits (by simp [ht]) he
    obtain ⟨g, b', hg, halt, hb', hc⟩ := appendGoto_spec hf hb ht htgt
    refine ⟨g, b', ?_, halt, hb', .inl ⟨rfl, hnext, hc⟩⟩
    rw [hrun, if_pos (by simp [ht, hnext])]
    exact hg
  | some t =>
    obtain ⟨g, b', hg, halt, hb', hr⟩ := redirect_spec hf hb he htgt
    refine ⟨g, b', ?_, halt, hb', .inr ⟨by simp, hr⟩⟩
    rw [hrun, if_neg (by simp [ht])]
    exact hg

/-- Instructions at the end of a block that goes to `e` only. -/
theorem bypass_inline (hf : f.Shaped) (hb : f.block? src = some b) (he : e ∈ b.exits)
    (htgt : ∃ t, f.block? target = some t) (hp : Plain is)
    (hgoto : b.terminator?.all fun t => t.op == .goto) :
    ∃ g, turn src e target (f.modifyBlock src fun b => b.insertBeforeEnd is) = .ok () g ∧
      f.Detour g src b e target is := by
  have hfit := hf.fits hb
  have honly := Block.onlyGoes_of_mem_exits hgoto he
  obtain ⟨hterm, hbody⟩ := Block.insertBeforeEnd_spec hfit.plain hp
  have hmid : (f.modifyBlock src fun b => b.insertBeforeEnd is).Shaped := by
    rw [modifyBlock_congr (v := fun _ => b.insertBeforeEnd is) hb rfl]
    exact hf.modifyBlock hb rfl (hfit.insertBeforeEnd hp)
  have hb₁ : (f.modifyBlock src fun b => b.insertBeforeEnd is).block? src =
      some (b.insertBeforeEnd is) := by simp [block?_modifyBlock, hb]
  obtain ⟨g, b', hg, halt, hb', hcase⟩ := turn_spec hmid hb₁
    (Block.exits_insertBeforeEnd hfit.plain hp ▸ he) (exists_block?_modifyBlock htgt)
  have halters : f.Alters g src :=
    ⟨halt.wellFormed, halt.length_eq.trans (length_blocks_modifyBlock ..), fun hx =>
      (halt.content_eq hx).trans (content?_modifyBlock_of_ne hx)⟩
  refine ⟨g, hg, ?_⟩
  rcases hcase with ⟨ht, -, hc⟩ | ⟨ht, hr⟩
  · refine .inline (j := .goto target) halters hb' honly ?_ rfl rfl
    rw [← hbody, Block.body_eq_insns ht]
    exact congrArg Prod.fst hc
  · rw [hterm] at ht
    obtain ⟨t, ht⟩ := Option.ne_none_iff_exists'.mp ht
    obtain ⟨hgo, hblk⟩ : t.op = .goto ∧ t.d.block = e := by
      simpa [Block.OnlyGoes, ht] using honly
    refine .inline (j := t.retarget (moved e target)) halters hb' honly ?_ (by simpa using hgo) ?_
    · rw [b'.insns_eq, hr.body_eq, hr.terminator_eq, hterm, hbody, ht]
      rfl
    · rw [Insn.retarget_of_isJump (by rw [hgo]; rfl), Insn.block_withTarget, hblk, moved_self]

/-- Instructions in a block of their own, for an edge that is taken only sometimes. -/
theorem bypass_aside (hf : f.Shaped) (hb : f.block? src = some b) (he : e ∈ b.exits)
    (htgt : ∃ t, f.block? target = some t) (hp : Plain is) (hterm : b.terminator? ≠ none) :
    ∃ x g₁ g, appendBlock (is ++ [.goto target]) f = .ok x g₁ ∧ turn src e x g₁ = .ok () g ∧
      f.Detour g src b e target is := by
  have hlt := lt_of_block? hb
  have hne : src ≠ f.blocks.length := Int.ne_of_lt hlt.2
  obtain ⟨g₁, t, hg₁, hext, ht, hc⟩ := appendBlock_spec hf hp htgt
  obtain ⟨b₁, hb₁, hc₁⟩ := exists_of_content? (hext.content_eq hne) hb
  obtain ⟨g, b', hg, halt, hb', hcase⟩ :=
    turn_spec hext.wellFormed.toShaped hb₁ (Block.exits_congr hc₁ ▸ he) ⟨t, ht⟩
  obtain ⟨t', ht', hc'⟩ := exists_of_content? (halt.content_eq hne.symm) ht
  refine ⟨_, g₁, g, hg₁, hg, ?_⟩
  rcases hcase with ⟨hnone, -⟩ | ⟨-, hr⟩
  · exact absurd ((Block.terminator?_congr hc₁).symm.trans hnone) hterm
  · refine .aside halt.wellFormed (halt.length_eq.trans hext.length_eq) (fun x hx hxn => ?_) hb' ?_
      ht' (hc'.trans hc)
    · rw [halt.content_eq hx, hext.content_eq hxn]
    · exact hr.congr hc₁

/-- **An edge that is there can be led past a region.** -/
theorem bypass_spec (hf : f.Shaped) (hb : f.block? src = some b) (he : e ∈ b.exits)
    (htgt : ∃ t, f.block? target = some t) (hp : Plain is) :
    ∃ g, bypass src e target is f = .ok () g ∧ f.Detour g src b e target is := by
  rw [bypass_eq hb]
  by_cases hnil : is = []
  · obtain ⟨g, b', hg, halt, hb', hcase⟩ := turn_spec hf hb he htgt
    subst hnil
    refine ⟨g, hg, ?_⟩
    rcases hcase with ⟨ht, hn, hc⟩ | ⟨-, hr⟩
    · refine .inline (j := .goto target) halt hb' (by simpa [Block.OnlyGoes, ht] using hn) ?_ rfl rfl
      rw [List.append_nil, Block.body_eq_insns ht]
      exact congrArg Prod.fst hc
    · exact .moved halt hb' hr
  · rw [if_neg (by simpa using hnil)]
    by_cases hgoto : b.terminator?.all fun t => t.op == .goto
    · rw [if_pos hgoto]
      exact bypass_inline hf hb he htgt hp hgoto
    · rw [if_neg hgoto]
      have hterm : b.terminator? ≠ none := fun ht => hgoto (by simp [ht])
      obtain ⟨x, g₁, g, hg₁, hg, hd⟩ := bypass_aside hf hb he htgt hp hterm
      exact ⟨g, by rw [hg₁]; exact hg, hd⟩

end Func

end Deflatten

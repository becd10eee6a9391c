import Deflatten.Proofs.Dispatch.Bypass

/-!
# Proofs/Dispatch/Split — a copy of a block for one of its predecessors

`Func.Split f g p s` says that the edge from `p` to `s` leads to a copy of `s` in `g`.  Executions do
not notice (`Split.refines`, `Split.covers`), and whoever comes to the copy has come from `p`
(`Split.exists_pred`).
-/

namespace Deflatten

namespace Func

/-- **The edge from `p` to `s` leads to a copy of `s`**, which is the block after the last. -/
structure Split (f g : Func) (p s : Int) : Prop where
  wellFormed : g.WellFormed
  length_eq : g.blocks.length = f.blocks.length + 1
  /-- The other blocks do what they did. -/
  content_eq : ∀ {x : Int}, x ≠ p → x ≠ f.blocks.length → g.content? x = f.content? x
  /-- The copy does what its original does. -/
  copy_eq : g.content? f.blocks.length = f.content? s
  /-- The edge is moved. -/
  pred : ∃ b b', f.block? p = some b ∧ g.block? p = some b' ∧ s ∈ b.exits ∧
    b.Retargets (moved s f.blocks.length) b'

variable {f g : Func} {p s : Int}

/-- **An edge that is there can be split off.** -/
theorem split_spec (hf : f.Shaped) (hps : f.Edge p s) :
    ∃ h g, duplicate s f = .ok (f.blocks.length : Int) h ∧
      redirect p s f.blocks.length h = .ok () g ∧ f.Split g p s := by
  obtain ⟨bs, hbs⟩ := hf.exists_of_edge hps
  obtain ⟨bp, hbp, hs⟩ := hps
  have hne : p ≠ f.blocks.length := Int.ne_of_lt (lt_of_block? hbp).2
  obtain ⟨h, t, hh, hext, ht, hct⟩ := duplicate_spec hf hbs
  obtain ⟨b₁, hb₁, hc₁⟩ := exists_of_content? (hext.content_eq hne) hbp
  obtain ⟨g, b', hg, halt, hb', hr⟩ :=
    redirect_spec hext.wellFormed.toShaped hb₁ (Block.exits_congr hc₁ ▸ hs) ⟨t, ht⟩
  refine ⟨h, g, hh, hg, halt.wellFormed, halt.length_eq.trans hext.length_eq, ?_, ?_, ?_⟩
  · intro x hx hxn
    rw [halt.content_eq hx, hext.content_eq hxn]
  · rw [halt.content_eq hne.symm, content?_of_block? ht, hct, content?_of_block? hbs]
  · exact ⟨bp, b', hbp, hb', hs, hr.congr hc₁⟩

namespace Split

theorem length_le (h : f.Split g p s) : f.blocks.length ≤ g.blocks.length := by
  have := h.length_eq
  omega

/-- The visits of the block whose edge is moved. -/
theorem visit_pred (h : f.Split g p s) (hf : f.Shaped) {b b' : Block} (hb : f.block? p = some b)
    (hb' : g.block? p = some b') (m : Machine) :
    b'.visit m = (b.visit m).mapTarget (moved s f.blocks.length) := by
  obtain ⟨b₁, b₂, hb₁, hb₂, hs, hr⟩ := h.pred
  obtain rfl := Option.mem_unique hb hb₁
  obtain rfl := Option.mem_unique hb' hb₂
  exact visit_moved (hf.fits hb) hs (Int.natCast_nonneg _) hr m

/-- **No edge is new but those of the copy and the one to it, and the moved one is gone.** -/
theorem edge (h : f.Split g p s) (hf : f.Shaped) {x y : Int} (hxy : g.Edge x y) :
    (f.Edge x y ∧ ¬ (x = p ∧ y = s)) ∨ (x = f.blocks.length ∧ f.Edge s y) ∨
      (x = p ∧ y = f.blocks.length) := by
  obtain ⟨b₁, hb₁, hy⟩ := hxy
  by_cases hxp : x = p
  · subst hxp
    obtain ⟨b, b', hb, hb', hs, hr⟩ := h.pred
    obtain rfl := Option.mem_unique hb₁ hb'
    rcases mem_exits_moved (hf.fits hb) hs (Int.natCast_nonneg _) hr hy with ⟨hy, hys⟩ | hy
    · exact .inl ⟨⟨b, hb, hy⟩, fun hand => hys hand.2⟩
    · exact .inr (.inr ⟨rfl, hy⟩)
  · by_cases hxn : x = f.blocks.length
    · subst hxn
      obtain ⟨b₂, hb₂, hc⟩ := exists_of_content? h.copy_eq.symm hb₁
      exact .inr (.inl ⟨rfl, b₂, hb₂, Block.exits_congr hc ▸ hy⟩)
    · exact .inl ⟨(edge_congr (h.content_eq hxp hxn)).mp ⟨b₁, hb₁, hy⟩, fun hand => hxp hand.1⟩

/-- Conditional jumps stay conditional jumps. -/
theorem isBranch (h : f.Split g p s) {x : Int} {b : Block} (hb : f.block? x = some b)
    (hbr : b.IsBranch) : ∃ b', g.block? x = some b' ∧ b'.IsBranch := by
  by_cases hxp : x = p
  · subst hxp
    obtain ⟨b₁, b', hb₁, hb', -, hr⟩ := h.pred
    obtain rfl := Option.mem_unique hb hb₁
    exact ⟨b', hb', hbr.retargets hr⟩
  · obtain ⟨b', hb', hc⟩ :=
      exists_of_content? (h.content_eq hxp (Int.ne_of_lt (lt_of_block? hb).2)) hb
    exact ⟨b', hb', hbr.congr hc⟩

/-- **A function with a block split off returns what it did**, in as many steps. -/
theorem refines (h : f.Split g p s) (hf : f.Shaped) : f.Refines g := by
  rintro m n v cs ⟨k, n', hn', hf'⟩
  refine EndsWithin.mono (HaltsIn.simulate (R := fun m x m' x' => m = m' ∧
    (x' = x ∨ (x = s ∧ x' = f.blocks.length))) ?_ ⟨rfl, .inl rfl⟩ hf') hn'
  rintro m x _ x' k n cs ⟨rfl, hx'⟩ hh
  obtain ⟨b, hb⟩ := hh.exists_block
  -- the other block goes the same way, or to the copy where this one goes to the original
  obtain ⟨b', hb', hvis⟩ : ∃ b', g.block? x' = some b' ∧ (b'.visit m = b.visit m ∨
      b'.visit m = (b.visit m).mapTarget (moved s f.blocks.length)) := by
    rcases hx' with rfl | ⟨rfl, rfl⟩
    · by_cases hxp : x' = p
      · subst hxp
        obtain ⟨b₁, b', hb₁, hb', -⟩ := h.pred
        exact ⟨b', hb', .inr (h.visit_pred hf hb hb' m)⟩
      · obtain ⟨b', hb', hc⟩ :=
          exists_of_content? (h.content_eq hxp (Int.ne_of_lt (lt_of_block? hb).2)) hb
        exact ⟨b', hb', .inl (Block.visit_of_content hc m)⟩
    · obtain ⟨b', hb', hc⟩ := exists_of_content? h.copy_eq hb
      exact ⟨b', hb', .inl (Block.visit_of_content hc m)⟩
  cases hv : b.visit m with
  | stops m₁ c o =>
    obtain ⟨rfl, rfl, rfl, rfl⟩ := hh.of_stops hb hv
    have hv' : b'.visit m = b.visit m := by
      rcases hvis with h | h
      · exact h
      · rw [h, hv]
        rfl
    exact .inl (HaltsIn.stops hb' (hv'.trans hv)).endsWithin
  | goes m₁ c x₁ =>
    obtain ⟨k₁, n₁, rfl, rfl, hh₁⟩ := hh.of_goes hb hv
    obtain ⟨x₂, hv', hx₂⟩ : ∃ x₂, b'.visit m = .goes m₁ c x₂ ∧
        (x₂ = x₁ ∨ (x₁ = s ∧ x₂ = f.blocks.length)) := by
      rcases hvis with h | h
      · exact ⟨x₁, h.trans hv, .inl rfl⟩
      · rw [hv, Visit.mapTarget] at h
        refine ⟨_, h, ?_⟩
        unfold moved
        split
        · next hxs => exact .inr ⟨hxs, rfl⟩
        · exact .inl rfl
    exact .inr ⟨k₁, n₁, m₁, x₁, 1, c, m₁, x₂, by omega, hh₁, .single hb' hv', Nat.le_refl _, rfl, hx₂⟩

/-- Where the function comes: to old places as before, to the copy by the edge that was moved. -/
theorem reachable (h : f.Split g p s) (hf : f.Shaped) {m : Machine} {x : Int}
    (hr : g.Reachable m x) : (x < f.blocks.length → f.Reachable m x) ∧
      (x = f.blocks.length → ∃ m₀ c b, f.Reachable m₀ p ∧ f.block? p = some b ∧
        b.visit m₀ = .goes m c s) := by
  obtain ⟨bp, bp', hbp, hbp', hs, -⟩ := h.pred
  have hpos : (0 : Int) < f.blocks.length := by
    have := lt_of_block? hbp
    omega
  obtain ⟨bs, hbs⟩ := hf.exists_of_edge ⟨bp, hbp, hs⟩
  refine Reachable.induct (P := fun m x => (x < f.blocks.length → f.Reachable m x) ∧
    (x = f.blocks.length → ∃ m₀ c b, f.Reachable m₀ p ∧ f.block? p = some b ∧
      b.visit m₀ = .goes m c s)) (fun m => ⟨fun _ => .entry m, fun h => by omega⟩) ?_ hr
  intro m x b' m' c x' _ ⟨hold, hcopy⟩ hb' hv
  have hlast := (lt_of_block? hb').2
  rw [h.length_eq] at hlast
  -- a visit of a block of `f` that stays inside
  have hinside : ∀ {y b}, f.Reachable m y → f.block? y = some b → b.visit m = .goes m' c x' →
      (x' < f.blocks.length → f.Reachable m' x') ∧ (x' = f.blocks.length → ∃ m₀ c b,
        f.Reachable m₀ p ∧ f.block? p = some b ∧ b.visit m₀ = .goes m' c s) := by
    intro y b hry hb hvb
    have := (hf.fits hb).inside x' (Block.mem_exits_of_visit hvb)
    exact ⟨fun _ => hry.goes hb hvb, fun hx => by omega⟩
  by_cases hxn : x = f.blocks.length
  · obtain ⟨m₀, c₀, b₀, hr₀, hb₀, hv₀⟩ := hcopy hxn
    obtain ⟨b, hb, hc⟩ := exists_of_content? h.copy_eq.symm (hxn ▸ hb')
    exact hinside (hr₀.goes hb₀ hv₀) hb ((Block.visit_of_content hc m).trans hv)
  · have hrx := hold (by omega)
    by_cases hxp : x = p
    · subst hxp
      rw [h.visit_pred hf hbp hb' m] at hv
      cases hvb : bp.visit m with
      | stops m₁ n o => simp [hvb, Visit.mapTarget] at hv
      | goes m₁ n y =>
        simp only [hvb, Visit.mapTarget, Visit.goes.injEq] at hv
        obtain ⟨rfl, rfl, rfl⟩ := hv
        by_cases hys : y = s
        · subst hys
          rw [moved_self]
          exact ⟨fun hlt => by omega, fun _ => ⟨m, _, bp, hrx, hbp, hvb⟩⟩
        · rw [moved_of_ne hys] at hinside ⊢
          exact hinside hrx hbp hvb
    · obtain ⟨b, hb, hc⟩ := exists_of_content? (h.content_eq hxp hxn).symm hb'
      exact hinside hrx hb ((Block.visit_of_content hc m).trans hv)

theorem covers (h : f.Split g p s) (hf : f.Shaped) : f.Covers g :=
  fun _ _ hx hr => (h.reachable hf hr).1 hx

/-- **Whoever comes to the copy has come from `p`.** -/
theorem exists_pred (h : f.Split g p s) (hf : f.Shaped) {m : Machine}
    (hr : g.Reachable m f.blocks.length) : ∃ m₀ c b, f.Reachable m₀ p ∧ f.block? p = some b ∧
      b.visit m₀ = .goes m c s := (h.reachable hf hr).2 rfl

end Split

end Func

end Deflatten

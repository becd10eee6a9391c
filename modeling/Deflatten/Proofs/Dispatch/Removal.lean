import Deflatten.Proofs.Dispatch.Collection
import Deflatten.Proofs.Dispatch.Split
import Deflatten.Proofs.Dispatch.Tracking

/-!
# Proofs/Dispatch/Removal — leading every edge past the dispatchers

`Func.Reshapes f g` is what a step of the removal does to the shape of a function: branches are still
branches.  `Func.Improves f g` adds that `g` may stand in for `f`.  One edge whose state is known is
led past its region (`Region.Rooted.bypass`); a father whose predecessors know the state is split off
for each of them in turn, all along in a function that comes nowhere else (`Removal.Splitting`).
-/

namespace Deflatten

namespace Func

/-- **`g` has the blocks of `f`, in order**, perhaps more of them, and every branch is still a
branch. -/
structure Reshapes (f g : Func) : Prop where
  wellFormed : g.WellFormed
  length_le : f.blocks.length ≤ g.blocks.length
  /-- Branches stay branches. -/
  isBranch : ∀ {s b}, f.block? s = some b → b.IsBranch → ∃ b', g.block? s = some b' ∧ b'.IsBranch

/-- **`g` is `f` a step further**: it has its blocks, and may stand in for it. -/
structure Improves (f g : Func) : Prop extends f.Reshapes g, f.Preserves g

variable {f g h : Func} {src e target p s father : Int} {b : Block} {is : List Insn}

theorem Reshapes.refl (hf : f.WellFormed) : f.Reshapes f :=
  ⟨hf, Nat.le_refl _, fun hb hbr => ⟨_, hb, hbr⟩⟩

theorem Reshapes.trans (hfg : f.Reshapes g) (hgh : g.Reshapes h) : f.Reshapes h := by
  refine ⟨hgh.wellFormed, Nat.le_trans hfg.length_le hgh.length_le, fun hb hbr => ?_⟩
  obtain ⟨b', hb', hbr'⟩ := hfg.isBranch hb hbr
  exact hgh.isBranch hb' hbr'

theorem Reshapes.exists_block? (h : f.Reshapes g) (hb : ∃ b, f.block? s = some b) :
    ∃ b, g.block? s = some b := by
  obtain ⟨b, hb⟩ := hb
  have := lt_of_block? hb
  have := h.length_le
  exact Func.exists_block? (by omega) (by omega)

theorem Improves.refl (hf : f.WellFormed) (h₀ : f.EnteredOnce) : f.Improves f :=
  ⟨.refl hf, h₀, .refl f⟩

theorem Improves.trans (hfg : f.Improves g) (hgh : g.Improves h) : f.Improves h :=
  ⟨hfg.toReshapes.trans hgh.toReshapes, hgh.enteredOnce, hfg.refines.trans hgh.refines⟩

theorem Detour.reshapes (hd : f.Detour g src b e target is) (hb : f.block? src = some b) :
    f.Reshapes g := ⟨hd.wellFormed, hd.length_le, fun hb₁ => hd.isBranch hb hb₁⟩

theorem Detour.improves (hd : f.Detour g src b e target is) (hf : f.Shaped) (h₀ : f.EnteredOnce)
    (hb : f.block? src = some b) (he : e ∈ b.exits) (htgt : 0 < target)
    (hst : ∀ {m m' n}, f.Reachable m src → b.visit m = .goes m' n e → f.Stands e is target m') :
    f.Improves g := by
  refine ⟨hd.reshapes hb, fun p hp => ?_, hd.refines hf hb he (Int.le_of_lt htgt) hst⟩
  have := (lt_of_block? hb)
  rcases hd.edge hf hb he (Int.le_of_lt htgt) hp with h | h | h
  · exact h₀ p h
  · omega
  · omega

theorem Split.reshapes (hs : f.Split g p s) : f.Reshapes g :=
  ⟨hs.wellFormed, hs.length_le, hs.isBranch⟩

theorem Split.improves (hs : f.Split g p s) (hf : f.Shaped) (h₀ : f.EnteredOnce) :
    f.Improves g := by
  refine ⟨hs.reshapes, fun x hx => ?_, hs.refines hf⟩
  obtain ⟨b, -, hb, -⟩ := hs.pred
  have := lt_of_block? hb
  rcases hs.edge hf hx with ⟨h, -⟩ | ⟨-, h⟩ | ⟨-, h⟩
  · exact h₀ x h
  · exact h₀ s h
  · omega

end Func

namespace Region

variable {d : Region} {f g : Func} {env : Env} {state : Var} {v : UInt64} {target : Int}
  {path : List Int} {m : Machine}

theorem Rooted.reshapes (hd : d.Rooted f) (h : f.Reshapes g) : d.Rooted g := by
  obtain ⟨b, hb, hbr⟩ := hd.branch
  exact ⟨hd.entry, h.isBranch hb hbr, hd.not_exit, fun x hx => h.exists_block? (hd.blocks x hx)⟩

/-- A walk from the entry of a rooted region passes the entry. -/
theorem Rooted.exists_cons (hd : d.Rooted f) (hw : d.Walks f env d.entrySerial path target) :
    ∃ q, path = d.entrySerial :: q := by
  generalize hs : d.entrySerial = s at hw
  cases hw with
  | here hx =>
    rw [← hs, hd.not_exit] at hx
    cases hx
  | goes => exact ⟨_, rfl⟩

/-- **With the state's value known, the carried instructions stand for the dispatcher.** -/
theorem Rooted.stands (hd : d.Rooted f) (hf : f.Shaped)
    (hw : d.Walks f (Table.ofList [(state, v)]) d.entrySerial path target)
    (hm : m.read state = v) : f.Stands d.entrySerial (f.bodies path) target m := by
  obtain ⟨q, rfl⟩ := hd.exists_cons hw
  obtain ⟨b, hb, t, ht, -⟩ := hd.branch
  exact hw.stands hf (Env.holds_ofList_singleton hm) hb ht

/-- A walk from the entry arrives at a block. -/
theorem Rooted.exists_target (hd : d.Rooted f) (hf : f.Shaped)
    (hw : d.Walks f env d.entrySerial path target) : ∃ p t, f.Edge p target ∧ f.block? target = some t := by
  obtain ⟨q, rfl⟩ := hd.exists_cons hw
  obtain ⟨p, -, hp⟩ := hw.exists_edge (by simp)
  obtain ⟨t, ht⟩ := hf.exists_of_edge hp
  exact ⟨p, t, hp, ht⟩

/-- It is not the function's entry, if nothing goes back there. -/
theorem Rooted.target_pos (hd : d.Rooted f) (hf : f.Shaped) (h₀ : f.EnteredOnce)
    (hw : d.Walks f env d.entrySerial path target) : 0 < target := by
  obtain ⟨p, t, hp, ht⟩ := hd.exists_target hf hw
  have hne : target ≠ 0 := fun h => h₀ p (h ▸ hp)
  have := (Func.lt_of_block? ht).1
  omega

end Region

/-- **An edge is led past the blocks on a path**, what they hold being carried. -/
def Func.Diverts (f : Func) (src entry target : Int) (path : List Int) (g : Func) : Prop :=
  ∃ is, f.carried path = .ok is ∧ Func.bypass src entry target is f = .ok () g

/-- **An edge can be led past blocks to a block.** -/
theorem Func.Shaped.exists_diverts {f : Func} {src entry target : Int} {b : Block} {path : List Int}
    (hf : f.Shaped) (hb : f.block? src = some b) (he : entry ∈ b.exits)
    (htgt : ∃ t, f.block? target = some t) (hpath : ∀ s ∈ path, ∃ b, f.block? s = some b) :
    ∃ g, f.Diverts src entry target path g ∧ f.Detour g src b entry target (f.bodies path) := by
  obtain ⟨g, hg, hdet⟩ := bypass_spec hf hb he htgt (hf.plain_bodies path)
  exact ⟨g, ⟨_, carried_eq hpath, hg⟩, hdet⟩

/-- **Leading an edge into a region past it, where the state is known**, takes the function a step
further, and it comes nowhere else. -/
theorem Region.Rooted.improves {d : Region} {f g : Func} {src target : Int} {b : Block} {state : Var}
    {v : UInt64} {path : List Int} (hd : d.Rooted f) (hf : f.WellFormed) (h₀ : f.EnteredOnce)
    (hb : f.block? src = some b) (he : d.entrySerial ∈ b.exits)
    (hw : d.Walks f (Table.ofList [(state, v)]) d.entrySerial path target)
    (hknown : ∀ {m m'}, f.Reachable m src → m.perform b.body = .done m' → m'.read state = v)
    (hdet : f.Detour g src b d.entrySerial target (f.bodies path)) : f.Improves g ∧ f.Covers g := by
  obtain ⟨-, t, -, ht⟩ := hd.exists_target hf.toShaped hw
  have hst : ∀ {m m' n}, f.Reachable m src → b.visit m = .goes m' n d.entrySerial →
      f.Stands d.entrySerial (f.bodies path) target m' := fun hr hv =>
    hd.stands hf.toShaped hw (hknown hr (Block.visit_eq_goes.mp hv).1)
  exact ⟨hdet.improves hf.toShaped h₀ hb he (hd.target_pos hf.toShaped h₀ hw) hst,
    hdet.covers hf.toShaped hb he (Func.lt_of_block? ht) hst⟩

/-- An edge into a region whose state is known can be led past it. -/
theorem Region.Rooted.bypass {d : Region} {f : Func} {src target : Int} {b : Block} {state : Var}
    {v : UInt64} {path : List Int} (hd : d.Rooted f) (hf : f.WellFormed) (h₀ : f.EnteredOnce)
    (hb : f.block? src = some b) (he : d.entrySerial ∈ b.exits)
    (hw : d.Walks f (Table.ofList [(state, v)]) d.entrySerial path target)
    (hknown : ∀ {m m'}, f.Reachable m src → m.perform b.body = .done m' → m'.read state = v) :
    ∃ g, f.Diverts src d.entrySerial target path g ∧ f.Improves g := by
  obtain ⟨-, t, -, ht⟩ := hd.exists_target hf.toShaped hw
  obtain ⟨g, hg, hdet⟩ := hf.toShaped.exists_diverts hb he ⟨t, ht⟩ fun x hx => (hw.mem x hx).2
  exact ⟨g, hg, (hd.improves hf h₀ hb he hw hknown hdet).1⟩

/-! ## Steps of a removal -/

/-- The work after an edge was moved, which leaves `g` and is counted. -/
def Work.diverted (w : Work) (g : Func) : Work :=
  { w with
    func := g
    report := { w.report with redirected := w.report.redirected + 1 }
    changed := true }

namespace Removal

section Steps

variable {α β : Type} {w w' : Work} {P : α → Work → Prop} {Q : β → Work → Prop}
  {E : EngineError → Work → Prop}

/-- A change to the function goes as it goes alone. -/
theorem concludes_edit {e : Edit α} (h : Concludes e w.func (fun a g => P a { w with func := g })
    fun err g => E (.flow err) { w with func := g }) : Concludes (edit e) w P E := by
  unfold Concludes edit at *
  split at h <;> simp_all

theorem concludes_inPass {x : Removal α} {pass : Nat}
    (h : Concludes x w P fun e w' => E (.inPass w'.func.name pass e) w') :
    Concludes (inPass pass x) w P E := by
  unfold Concludes inPass at *
  split at h <;> simp_all

/-- What is looked up is there, or the removal ends as it was. -/
theorem concludes_lookup_bind {r : Except FlowError α} {k : α → Removal β}
    (hE : ∀ e, r = .error e → E (.flow e) w) (hk : ∀ a, r = .ok a → Concludes (k a) w Q E) :
    Concludes (ofExcept r >>= k) w Q E := by
  cases r with
  | error e => exact hE e rfl
  | ok a => exact hk a rfl

theorem concludes_lookup_bind_of_ok {r : Except FlowError α} {a : α} {k : α → Removal β}
    (hr : r = .ok a) (hk : Concludes (k a) w Q E) : Concludes (ofExcept r >>= k) w Q E := by
  subst hr
  exact hk

/-- **An edge that is moved is counted**, and it is moved whenever it can be. -/
theorem bypass_eq_ok_iff {src entry target : Int} {path : List Int} :
    bypass src entry target path w = .ok () w' ↔
      ∃ g, w.func.Diverts src entry target path g ∧ w' = w.diverted g := by
  constructor
  · have hyields : Yields (bypass src entry target path) w fun _ w' =>
        ∃ g, w.func.Diverts src entry target path g ∧ w' = w.diverted g := by
      refine concludes_get_bind (concludes_lookup_bind (fun _ _ => trivial) fun is his => ?_)
      refine Concludes.bind (P := fun _ w' => ∃ g, Func.bypass src entry target is w.func = .ok () g ∧
        w' = { w with func := g }) (concludes_edit (yields_iff.mpr fun _ g hg => ⟨g, hg, rfl⟩)) ?_
      rintro _ _ ⟨g, hg, rfl⟩
      exact concludes_modify ⟨g, ⟨is, his, hg⟩, rfl⟩
    exact hyields.of_eq_ok
  · rintro ⟨g, ⟨is, his, hg⟩, rfl⟩
    have hends : Succeeds (bypass src entry target path) w fun _ w' => w' = w.diverted g := by
      refine concludes_get_bind (concludes_lookup_bind (by simp [his]) fun is' his' => ?_)
      obtain rfl := Except.ok.inj (his.symm.trans his')
      refine Concludes.bind (P := fun _ w' => w' = { w with func := g })
        (concludes_edit (concludes_of_ok hg rfl)) ?_
      rintro _ _ rfl
      exact concludes_modify rfl
    obtain ⟨_, w', hrun, rfl⟩ := succeeds_iff.mp hends
    exact hrun

end Steps

/-! ## Splitting a father -/

/-- **A route that can be taken**: it starts at a predecessor, and not at the father, and passes and
ends at blocks. -/
structure Route.Passable (f : Func) (father : Int) (r : Route) : Prop where
  edge : f.Edge r.pred father
  ne : r.pred ≠ father
  target : ∃ t, f.block? r.target = some t
  path : ∀ s ∈ r.path, ∃ b, f.block? s = some b

theorem Route.Passable.lt {f : Func} {father : Int} {r : Route} (h : r.Passable f father) :
    r.pred < f.blocks.length := by
  obtain ⟨b, hb, -⟩ := h.edge
  exact (Func.lt_of_block? hb).2

/-- **A route that is right**: it starts at a predecessor outside the region, and whoever comes from
there through the father has the state that the way was resolved with. -/
structure Route.Right (d : Region) (f : Func) (father : Int) (fb : Block) (r : Route) : Prop
    extends r.Passable f father where
  outside : d.isInternal r.pred = false
  /-- The state is known on it, and selects its target. -/
  known : ∃ state v, d.Walks f (Table.ofList [(state, v)]) d.entrySerial r.path r.target ∧
    ∀ {m b m₁ c m'}, f.Reachable m r.pred → f.block? r.pred = some b →
      b.visit m = .goes m₁ c father → m₁.perform fb.body = .done m' → m'.read state = v

section Routes

variable {cfg : Config} {d : Region} {f : Func} {state : Var} {father p : Int} {preds : List Int}
  {r : Route} {rs : List Route}

theorem mem_routesThrough (h : routesThrough cfg d f state father preds = .ok rs) :
    r ∈ rs ↔ ∃ p ∈ preds, routeFrom? cfg d f state father p = .ok (some r) := by
  obtain ⟨routes, hroutes, rfl⟩ := map_eq_ok_iff.mp h
  rw [List.mem_filterMap]
  simp only [id, exists_eq_right]
  exact mem_iff_of_mapM_eq_ok hroutes

/-- **What a route says**: the state that the path through the father leaves selects its target. -/
theorem routeFrom?_eq_some (h : routeFrom? cfg d f state father p = .ok (some r)) :
    r.pred = p ∧ p ≠ father ∧ d.isInternal p = false ∧
      ∃ v, d.stateOn? cfg f state [p, father] = .ok (some v) ∧
        d.resolvePath? f v = .ok (some (r.target, r.path)) := by
  unfold routeFrom? at h
  split at h
  · cases h
  · next hne =>
    simp only [Bool.or_eq_true, decide_eq_true_eq, not_or, Bool.not_eq_true] at hne
    obtain ⟨known, hv, h⟩ := bind_eq_ok_iff.mp h
    cases known with
    | none => cases h
    | some v =>
      obtain ⟨way, hway, h⟩ := map_eq_ok_iff.mp h
      obtain ⟨⟨target, path⟩, rfl, rfl⟩ := Option.map_eq_some_iff.mp h
      exact ⟨rfl, hne.1, hne.2, v, hv, hway⟩

/-- **Routes ask for blocks only.** -/
theorem exists_routesThrough (cfg : Config) (state : Var) (hf : f.Verified) (hd : d.Rooted f)
    {fb : Block} (hfb : f.block? father = some fb) (hpreds : ∀ p ∈ preds, f.Edge p father) :
    ∃ rs, routesThrough cfg d f state father preds = .ok rs := by
  have hall : ∀ p ∈ preds, ∃ r, routeFrom? cfg d f state father p = .ok r := by
    intro p hp
    obtain ⟨b, hb, -⟩ := hpreds p hp
    obtain ⟨known, hknown⟩ := Func.exists_stateOn? hf cfg d state
      (show ∀ x ∈ [p, father], _ by simpa using ⟨⟨b, hb⟩, fb, hfb⟩)
    unfold routeFrom?
    split
    · exact ⟨none, rfl⟩
    rw [hknown]
    cases known with
    | none => exact ⟨none, rfl⟩
    | some v =>
      obtain ⟨way, hway⟩ := Region.exists_resolvePath? hd.blocks v
      exact ⟨_, map_eq_ok_iff.mpr ⟨way, hway, rfl⟩⟩
  obtain ⟨routes, hroutes⟩ := exists_mapM_eq_ok hall
  exact ⟨_, map_eq_ok_iff.mpr ⟨routes, hroutes, rfl⟩⟩

/-- There is one route at most from each predecessor, in their order. -/
theorem sublist_routesThrough (h : routesThrough cfg d f state father preds = .ok rs) :
    (rs.map Route.pred).Sublist preds := by
  obtain ⟨routes, hroutes, rfl⟩ := map_eq_ok_iff.mp h
  have hmap := mapM_eq_ok_iff.mp hroutes
  clear h hroutes
  induction preds generalizing routes with
  | nil =>
    obtain rfl : routes = [] := by simpa using hmap.symm
    exact .slnil
  | cons p ps ih =>
    cases routes with
    | nil => simp at hmap
    | cons route routes =>
      obtain ⟨hroute, hrest⟩ := List.cons.inj hmap
      cases route with
      | none => exact (ih routes hrest).cons p
      | some r =>
        obtain ⟨rfl, -⟩ := routeFrom?_eq_some hroute
        exact (ih routes hrest).cons_cons r.pred

end Routes

section Found

variable {cfg : Config} {d : Region} {f : Func} {state : Var} {father : Int} {fb : Block}
  {preds : List Int} {r : Route} {rs : List Route}

/-- **Every route that is found can be taken.** -/
theorem Route.passable_of_mem (hf : f.Verified) (hd : d.Rooted f)
    (hpreds : ∀ p ∈ preds, f.Edge p father)
    (hrs : routesThrough cfg d f state father preds = .ok rs) (hr : r ∈ rs) : r.Passable f father := by
  obtain ⟨p, hp, hr⟩ := (mem_routesThrough hrs).mp hr
  obtain ⟨rfl, hne, -, v, -, hres⟩ := routeFrom?_eq_some hr
  obtain ⟨state', -, hw⟩ := Region.walks_of_resolvePath? hres
  obtain ⟨-, t, -, ht⟩ := hd.exists_target hf.toShaped hw
  exact ⟨hpreds _ hp, hne, ⟨t, ht⟩, fun x hx => (hw.mem x hx).2⟩

/-- **Every route that is found is right.** -/
theorem Route.right_of_mem (hf : f.Verified) (hd : d.Rooted f) (h₀ : f.EnteredOnce)
    (hst : d.state? = some state) (hfb : f.block? father = some fb)
    (hpreds : ∀ p ∈ preds, f.Edge p father)
    (hrs : routesThrough cfg d f state father preds = .ok rs) (hr : r ∈ rs) :
    r.Right d f father fb := by
  have hpassable := Route.passable_of_mem hf hd hpreds hrs hr
  obtain ⟨p, hp, hr⟩ := (mem_routesThrough hrs).mp hr
  obtain ⟨rfl, -, hout, v, hv, hres⟩ := routeFrom?_eq_some hr
  obtain ⟨state', hst', hw⟩ := Region.walks_of_resolvePath? hres
  obtain rfl := Option.mem_unique hst hst'
  refine ⟨hpassable, hout, state, v, hw, ?_⟩
  intro m b m₁ c m' hr hb hvis hm
  exact Func.read_of_stateOn? hf h₀ hv hr (.goes hb hvis (.last hfb hm))

end Found

/-- **A splitting under way leaves alone what the routes still need**: the father, and the
predecessors they start at. -/
structure Spares (f : Func) (father : Int) (h : Func) (rs : List Route) : Prop where
  father_eq : h.content? father = f.content? father
  preds_eq : ∀ r ∈ rs, h.content? r.pred = f.content? r.pred

/-- **One route more gets a copy of the father.** -/
theorem Spares.copy {f h : Func} {father entry : Int} {fb : Block} {r : Route} {rs : List Route}
    (S : Spares f father h (r :: rs)) (hre : f.Reshapes h)
    (hpassable : ∀ r' ∈ r :: rs, r'.Passable f father) (hfb : f.block? father = some fb)
    (he : entry ∈ fb.exits) (hnodup : ((r :: rs).map Route.pred).Nodup) :
    ∃ h₁ h₂ h₃ cb, Func.duplicate father h = .ok (h.blocks.length : Int) h₁ ∧
      Func.redirect r.pred father h.blocks.length h₁ = .ok () h₂ ∧
      h₂.Diverts h.blocks.length entry r.target r.path h₃ ∧ Spares f father h₃ rs ∧
      h.Split h₂ r.pred father ∧ h₂.block? h.blocks.length = some cb ∧ cb.content = fb.content ∧
      h₂.Detour h₃ h.blocks.length cb entry r.target (h₂.bodies r.path) := by
  have hlen := hre.length_le
  have hR := hpassable r (by simp)
  -- the edge to the father is still there
  have hedge : h.Edge r.pred father := (Func.edge_congr (S.preds_eq r (by simp))).mpr hR.edge
  obtain ⟨h₁, h₂, hdup, hred, hsplit⟩ := Func.split_spec hre.wellFormed.toShaped hedge
  have hshape₂ := hre.trans hsplit.reshapes
  obtain ⟨cb, hcb, hcc⟩ := Func.exists_of_content? (hsplit.copy_eq.trans S.father_eq) hfb
  obtain ⟨h₃, hby, hdet⟩ := hsplit.wellFormed.toShaped.exists_diverts hcb
    (Block.exits_congr hcc ▸ he) (hshape₂.exists_block? hR.target)
    fun s hs => hshape₂.exists_block? (hR.path s hs)
  -- a block of the first function that does not start the route is left alone
  have hcont : ∀ {s : Int}, s < f.blocks.length → s ≠ r.pred → h₃.content? s = h.content? s := by
    intro s hs hne
    have := hsplit.length_le
    rw [hdet.content_eq (by omega) (by omega), hsplit.content_eq hne (by omega)]
  refine ⟨h₁, h₂, h₃, cb, hdup, hred, hby, ⟨?_, fun r' hr' => ?_⟩, hsplit, hcb, hcc, hdet⟩
  · rw [hcont (Func.lt_of_block? hfb).2 hR.ne.symm, S.father_eq]
  · have hne : r'.pred ≠ r.pred := fun heq =>
      (List.nodup_cons.mp hnodup).1 (heq ▸ List.mem_map_of_mem hr')
    rw [hcont (hpassable r' (by simp [hr'])).lt hne, S.preds_eq r' (by simp [hr'])]

/-- **A splitting under way**: the function is a step further and comes nowhere else, and nothing has
been changed that the routes still to be taken depend on.  If the father is kept for the last route,
it is entered by the routes that are left only. -/
structure Splitting (d : Region) (f : Func) (father : Int) (keep : Bool) (h : Func)
    (rs : List Route) : Prop extends Spares f father h rs where
  improves : f.Improves h
  /-- It comes nowhere else. -/
  covers : f.Covers h
  /-- The region is as it was. -/
  internal_eq : ∀ {s : Int}, s < f.blocks.length → d.isInternal s = true →
    h.content? s = f.content? s
  /-- The father is entered from the predecessors that are left only, if it is kept. -/
  sole : keep = true → ∀ s, h.Edge s father → s ∈ rs.map Route.pred

namespace Splitting

variable {d : Region} {f h : Func} {father : Int} {fb : Block} {keep : Bool} {r : Route}
  {rs : List Route} {state : Var} {v : UInt64}

/-- A function with the region as it was is walked as before. -/
theorem walks {g : Func} (hg : ∀ {s : Int}, s < f.blocks.length → d.isInternal s = true →
    g.content? s = f.content? s) {env : Env} {e target : Int} {path : List Int}
    (hw : d.Walks f env e path target) : d.Walks g env e path target :=
  hw.congr fun x hx => by
    obtain ⟨hin, b, hb⟩ := hw.mem x hx
    exact hg (Func.lt_of_block? hb).2 hin

/-- **The state is known to whoever comes from the predecessor in the function as it stands.** -/
theorem read_eq (S : Splitting d f father keep h rs) (hr : h.content? r.pred = f.content? r.pred)
    (hedge : f.Edge r.pred father)
    (hknown : ∀ {m b m₁ c m'}, f.Reachable m r.pred → f.block? r.pred = some b →
      b.visit m = .goes m₁ c father → m₁.perform fb.body = .done m' → m'.read state = v)
    {m m₁ m' : Machine} {c : Nat} {b : Block} (hm : h.Reachable m r.pred)
    (hb : h.block? r.pred = some b) (hv : b.visit m = .goes m₁ c father)
    (hbody : m₁.perform fb.body = .done m') : m'.read state = v := by
  obtain ⟨b₀, hb₀, -⟩ := hedge
  obtain ⟨b₁, hb₁, hc⟩ := Func.exists_of_content? hr.symm hb
  exact hknown (S.covers (Func.lt_of_block? hb₀).2 hm) hb₁
    ((Block.visit_of_content hc m).trans hv) hbody

/-- A father that is kept is no target: what leads to it starts outside the region. -/
theorem target_ne (hd : d.Rooted f) (hR : r.Right d f father fb)
    (hkeep : ∀ p, f.Edge p father → d.isInternal p = false) : father ≠ r.target := by
  rintro rfl
  obtain ⟨state, v, hw, -⟩ := hR.known
  obtain ⟨q, hq⟩ := hd.exists_cons hw
  obtain ⟨p, hp, hedge⟩ := hw.exists_edge (by simp [hq])
  have := (hw.mem p hp).1
  rw [hkeep p hedge] at this
  cases this

/-- A copy for one route takes it off those that enter the father. -/
theorem sole_of_split {g k : Func} {cb : Block} {is : List Insn}
    (S : Splitting d f father keep h (r :: rs)) (hR : ∀ r' ∈ r :: rs, r'.Right d f father fb)
    (hfather : father < f.blocks.length) (hne : father ≠ r.target) (hk : keep = true)
    (hsplit : h.Split g r.pred father)
    (hdet : g.Detour k h.blocks.length cb d.entrySerial r.target is)
    (hcb : g.block? h.blocks.length = some cb) (he : d.entrySerial ∈ cb.exits)
    (htgt : 0 ≤ r.target) {s : Int} (hs : k.Edge s father) : s ∈ rs.map Route.pred := by
  have hlen := S.improves.length_le
  have hg := hsplit.length_eq
  rcases hdet.edge hsplit.wellFormed.toShaped hcb he htgt hs with hs | hs | hs
  · rcases hsplit.edge S.improves.wellFormed.toShaped hs with ⟨hs, hnot⟩ | ⟨-, hs⟩ | ⟨-, hs⟩
    · have hmem := S.sole hk s hs
      rw [List.map_cons, List.mem_cons] at hmem
      exact hmem.resolve_left fun hsr => hnot ⟨hsr, rfl⟩
    · -- the father does not enter itself
      obtain ⟨r', hr', heq⟩ := List.mem_map.mp (S.sole hk father hs)
      exact absurd heq (hR r' hr').ne
    · omega
  · exact absurd hs hne
  · omega

/-- **One route more gets a copy of the father.** -/
theorem copy (S : Splitting d f father keep h (r :: rs)) (hd : d.Rooted f)
    (hRs : ∀ r' ∈ r :: rs, r'.Right d f father fb) (hfb : f.block? father = some fb)
    (he : d.entrySerial ∈ fb.exits) (hnodup : ((r :: rs).map Route.pred).Nodup)
    (hkeep : keep = true → ∀ p, f.Edge p father → d.isInternal p = false) :
    ∃ h₁ h₂ h₃, Func.duplicate father h = .ok (h.blocks.length : Int) h₁ ∧
      Func.redirect r.pred father h.blocks.length h₁ = .ok () h₂ ∧
      h₂.Diverts h.blocks.length d.entrySerial r.target r.path h₃ ∧
      Splitting d f father keep h₃ rs := by
  have hlen := S.improves.length_le
  have hh := S.improves.wellFormed
  have hR := hRs r (by simp)
  obtain ⟨state, v, hw, hknown⟩ := hR.known
  obtain ⟨h₁, h₂, h₃, cb, hdup, hred, hby, S', hsplit, hcb, hcc, hdet⟩ :=
    S.toSpares.copy S.improves.toReshapes (fun r' hr' => (hRs r' hr').toPassable) hfb he hnodup
  have hlen₂ := hsplit.length_le
  have himp₂ := hsplit.improves hh.toShaped S.improves.enteredOnce
  have hd₂ := hd.reshapes (S.improves.trans himp₂).toReshapes
  have he₂ : d.entrySerial ∈ cb.exits := Block.exits_congr hcc ▸ he
  have hint₂ : ∀ {s : Int}, s < f.blocks.length → d.isInternal s = true →
      h₂.content? s = f.content? s := by
    intro s hs hin
    have hne : s ≠ r.pred := by
      rintro rfl
      rw [hR.outside] at hin
      cases hin
    rw [hsplit.content_eq hne (by omega), S.internal_eq hs hin]
  obtain ⟨himp₃, hcov₃⟩ := hd₂.improves himp₂.wellFormed himp₂.enteredOnce hcb he₂ (walks hint₂ hw)
    (fun {m m'} hr hm => by
      obtain ⟨m₀, c, b, hr₀, hb₀, hv₀⟩ := hsplit.exists_pred hh.toShaped hr
      rw [Block.body_congr hcc] at hm
      exact S.read_eq (S.preds_eq r (by simp)) hR.edge hknown hr₀ hb₀ hv₀ hm) hdet
  refine ⟨h₁, h₂, h₃, hdup, hred, hby, S', (S.improves.trans himp₂).trans himp₃, ?_, ?_, ?_⟩
  · exact (S.covers.trans (hsplit.covers hh.toShaped) hlen).trans hcov₃ (Nat.le_trans hlen hlen₂)
  · intro s hs hin
    rw [hdet.content_eq (by omega) (by omega), hint₂ hs hin]
  · intro hk s hs
    have hpos := hd₂.target_pos himp₂.wellFormed.toShaped himp₂.enteredOnce (walks hint₂ hw)
    exact S.sole_of_split hRs (Func.lt_of_block? hfb).2 (target_ne hd hR (hkeep hk)) hk hsplit hdet hcb
      he₂ (Int.le_of_lt hpos) hs

/-- **The last route has the father itself**, which nothing else enters any more. -/
theorem last (S : Splitting d f father true h [r]) (hd : d.Rooted f)
    (hR : r.Right d f father fb) (hfb : f.block? father = some fb)
    (he : d.entrySerial ∈ fb.exits) (h₀ : f.EnteredOnce) :
    ∃ g, h.Diverts father d.entrySerial r.target r.path g ∧
      f.Improves g := by
  obtain ⟨state, v, hw, hknown⟩ := hR.known
  obtain ⟨b, hb, hc⟩ := Func.exists_of_content? S.father_eq hfb
  have hne : father ≠ 0 := by
    rintro rfl
    exact h₀ _ hR.edge
  obtain ⟨g, hg, himp⟩ :=
    (hd.reshapes S.improves.toReshapes).bypass S.improves.wellFormed S.improves.enteredOnce hb
      (Block.exits_congr hc ▸ he) (walks S.internal_eq hw) (fun {m m'} hr hm => by
        obtain ⟨m₀, p, bp, c, hr₀, hbp, hv₀⟩ := hr.exists_pred hne
        obtain rfl : p = r.pred := by simpa using S.sole rfl p (.of_visit hbp hv₀)
        rw [Block.body_congr hc] at hm
        exact S.read_eq (S.preds_eq r (by simp)) hR.edge hknown hr₀ hbp hv₀ hm)
  exact ⟨g, hg, S.improves.trans himp⟩

end Splitting

end Removal

end Deflatten

import Deflatten.Flattening.Samples
import Deflatten.Proofs.Dispatch.Removal
import Deflatten.Proofs.Editing.Compaction

/-!
# Proofs/Dispatch/Passes — the removal, run to its end

Leading an edge past a region and splitting a father succeed and each leave the function a step
further, and so do regions in turn
(`Removal.Moves`); a pass compacts the function besides.  What passes keep (`Removal.PassInvariant`,
`Removal.Invariant`) a removal keeps, and it has no error to report; that the function may stand in
for the one it was is such an invariant (`Removal.invariant_preserves`).
-/

namespace Deflatten

open Samples (block branching function lit reg symbol)

namespace Removal

variable {α : Type} {x : Removal α} {w : Work} {P : α → Work → Prop}

theorem succeeds_edit {e : Edit α} {a : α} {g : Func} (he : e w.func = .ok a g)
    (h : P a { w with func := g }) : Succeeds (edit e) w P := concludes_edit (concludes_of_ok he h)

theorem succeeds_bypass {src entry target : Int} {path : List Int} {g : Func}
    (hg : w.func.Diverts src entry target path g) :
    Succeeds (bypass src entry target path) w
      fun _ w' => w'.func = g ∧ w'.changed = true ∧ w'.copies = w.copies :=
  concludes_of_ok (bypass_eq_ok_iff.mpr ⟨g, hg, rfl⟩) ⟨rfl, rfl, rfl⟩

theorem succeeds_countUnresolved :
    Succeeds countUnresolved w fun _ w' => w'.func = w.func ∧ w'.changed = w.changed :=
  concludes_modify ⟨rfl, rfl⟩

theorem succeeds_tell (e : Event) : Succeeds (tell e) w fun _ w' => w'.func = w.func := concludes_modify rfl

/-! ## Routes and fathers -/

variable {cfg : Config} {d : Region} {f : Func} {father : Int} {fb : Block} {keep : Bool}
  {state : Var}

/-- **Routes are taken one by one**: each but a last one that has the father itself gets a copy of it,
as long as there are copies. -/
theorem succeeds_takeRoutes {S : Work → List Route → Prop} {Q : Work → Prop} {entry : Int}
    {rs : List Route} (hdone : ∀ {w}, S w [] → Q w)
    (hspent : ∀ {w r rs}, S w (r :: rs) → ¬ (keep = true ∧ rs = []) →
      cfg.maxDuplications ≤ w.copies → Q { w with exhausted := true })
    (hlast : ∀ {w r}, keep = true → S w [r] →
      ∃ g, w.func.Diverts father entry r.target r.path g ∧
        ∀ w' : Work, w'.func = g → w'.changed = true → Q w')
    (hcopy : ∀ {w r rs}, S w (r :: rs) → ¬ (keep = true ∧ rs = []) → ∃ h₁ h₂ h₃,
      Func.duplicate father w.func = .ok (w.func.blocks.length : Int) h₁ ∧
      Func.redirect r.pred father w.func.blocks.length h₁ = .ok () h₂ ∧
      h₂.Diverts w.func.blocks.length entry r.target r.path h₃ ∧
      ∀ w' : Work, w'.func = h₃ → w'.changed = true → w'.copies = w.copies + 1 → S w' rs)
    (hS : S w rs) : Succeeds (takeRoutes cfg entry father keep rs) w fun _ w' => Q w' := by
  induction rs generalizing w with
  | nil => exact concludes_pure (hdone hS)
  | cons r rs ih =>
    rw [takeRoutes]
    split
    · next hkept =>
      obtain ⟨hkeep, hnil⟩ := (Bool.and_eq_true ..).mp hkept
      obtain rfl := List.isEmpty_iff.mp hnil
      obtain ⟨g, hg, hQ⟩ := hlast hkeep hS
      exact (succeeds_bypass hg).weaken fun _ w' h => hQ w' h.1 h.2.1
    · next hkept =>
      have hmore : ¬ (keep = true ∧ rs = []) := by simpa using hkept
      refine concludes_get_bind ?_
      split
      · next hcopies => exact concludes_modify (hspent hS hmore hcopies)
      · obtain ⟨h₁, h₂, h₃, hdup, hred, hby, hS'⟩ := hcopy hS hmore
        refine (succeeds_edit (P := fun a w' => a = (w.func.blocks.length : Int) ∧ w'.func = h₁ ∧
          w'.copies = w.copies) hdup ⟨rfl, rfl, rfl⟩).bind ?_
        rintro _ w₁ ⟨rfl, hw₁, hc₁⟩
        refine (concludes_modify (Q := fun _ w' => w'.func = h₁ ∧ w'.copies = w.copies + 1)
          ⟨hw₁, by rw [hc₁]⟩).bind ?_
        rintro _ w₂ ⟨hw₂, hc₂⟩
        refine (succeeds_edit (P := fun _ w' => w'.func = h₂ ∧ w'.copies = w.copies + 1) (hw₂ ▸ hred)
          ⟨rfl, hc₂⟩).bind ?_
        rintro _ w₃ ⟨hw₃, hc₃⟩
        refine (succeeds_bypass (g := h₃) (hw₃ ▸ hby)).bind ?_
        rintro _ w₄ ⟨hw₄, hch, hc₄⟩
        exact ih (hS' w₄ hw₄ hch (hc₄.trans hc₃))

theorem takeRoutes_spec {rs : List Route} (S : Splitting d f father keep w.func rs)
    (hd : d.Rooted f) (h₀ : f.EnteredOnce) (hR : ∀ r ∈ rs, r.Right d f father fb)
    (hfb : f.block? father = some fb) (he : d.entrySerial ∈ fb.exits)
    (hnodup : (rs.map Route.pred).Nodup)
    (hkeep : keep = true → ∀ p, f.Edge p father → d.isInternal p = false) :
    Succeeds (takeRoutes cfg d.entrySerial father keep rs) w fun _ w' => f.Improves w'.func := by
  refine succeeds_takeRoutes (S := fun w rs => Splitting d f father keep w.func rs ∧
      (∀ r ∈ rs, r.Right d f father fb) ∧ (rs.map Route.pred).Nodup) (fun h => h.1.improves)
    (fun h _ _ => h.1.improves) ?_ ?_ ⟨S, hR, hnodup⟩
  · rintro w r rfl ⟨S, hR, -⟩
    obtain ⟨g, hg, himp⟩ := S.last hd (hR r (by simp)) hfb he h₀
    exact ⟨g, hg, fun _ hw' _ => hw' ▸ himp⟩
  · rintro w r rs ⟨S, hR, hnodup⟩ -
    obtain ⟨h₁, h₂, h₃, hdup, hred, hby, S'⟩ := S.copy hd hR hfb he hnodup hkeep
    exact ⟨h₁, h₂, h₃, hdup, hred, hby, fun _ hw' _ _ => ⟨hw' ▸ S', fun r' hr' => hR r' (by simp [hr']),
      (List.nodup_cons.mp hnodup).2⟩⟩

/-- Before the first route is taken, nothing has changed. -/
theorem Splitting.start (hf : f.WellFormed) (h₀ : f.EnteredOnce) {rs : List Route}
    (hsole : keep = true → ∀ s, f.Edge s father → s ∈ rs.map Route.pred) :
    Splitting d f father keep f rs :=
  ⟨⟨rfl, fun _ _ => rfl⟩, .refl hf h₀, .refl f, fun _ _ => rfl, hsole⟩

/-- **A father is split as its routes are taken**, or an edge stays. -/
theorem concludes_splitFather {Q : Unit → Work → Prop} {E : EngineError → Work → Prop}
    {rs : List Route} (hfb : w.func.block? father = some fb)
    (hrs : routesThrough cfg d w.func state father fb.preds = .ok rs)
    (hstays : Concludes countUnresolved w Q E)
    (htake : ∀ w' : Work, w'.func = w.func → w'.changed = w.changed →
      Concludes (takeRoutes cfg d.entrySerial father (rs.length == fb.preds.length) rs) w' Q E) :
    Concludes (splitFather cfg d state father) w Q E := by
  refine concludes_get_bind (concludes_lookup_bind_of_ok (Func.getBlock_of_block? hfb) ?_)
  dsimp only
  split
  · exact hstays
  refine concludes_lookup_bind_of_ok hrs ?_
  split
  · exact hstays
  split
  · exact Concludes.bind (concludes_modify (Q := fun _ w' => w'.func = w.func ∧
      w'.changed = w.changed) ⟨rfl, rfl⟩) fun _ w' h => htake w' h.1 h.2
  · exact htake w rfl rfl

theorem splitFather_spec (hf : w.func.WellFormed) (h₀ : w.func.EnteredOnce)
    (hd : d.Rooted w.func) (hst : d.state? = some state) (hfb : w.func.block? father = some fb)
    (he : d.entrySerial ∈ fb.exits) :
    Succeeds (splitFather cfg d state father) w fun _ w' => w.func.Improves w'.func := by
  have hpreds : ∀ p ∈ fb.preds, w.func.Edge p father := fun p hp => (hf.mem_preds hfb p).mp hp
  obtain ⟨rs, hrs⟩ := exists_routesThrough cfg state hf.toVerified hd hfb hpreds
  refine concludes_splitFather hfb hrs
    (succeeds_countUnresolved.weaken fun _ _ h => h.1.symm ▸ .refl hf h₀) fun w' hw' _ => ?_
  -- the routes start at predecessors, each at one of its own
  have hsub : (rs.map Route.pred).Sublist fb.preds := sublist_routesThrough hrs
  have hR : ∀ r ∈ rs, r.Right d w.func father fb := fun r hr =>
    Route.right_of_mem hf.toVerified hd h₀ hst hfb hpreds hrs hr
  have hnodup := (hf.nodup_preds hfb).sublist hsub
  have hsole : (rs.length == fb.preds.length) = true → ∀ s, w.func.Edge s father →
      s ∈ rs.map Route.pred := by
    intro hlen s hs
    rw [hsub.eq_of_length (by simpa using hlen)]
    exact (hf.mem_preds hfb s).mpr hs
  have hkeep : (rs.length == fb.preds.length) = true → ∀ p, w.func.Edge p father →
      d.isInternal p = false := by
    intro hlen p hp
    obtain ⟨r, hr, rfl⟩ := List.mem_map.mp (hsole hlen p hp)
    exact (hR r hr).outside
  exact takeRoutes_spec (hw'.symm ▸ Splitting.start hf h₀ hsole) hd h₀ hR hfb he hnodup hkeep

/-! ## Regions -/

/-- **What steps make of the work**: `R` holds of leading an edge past a region and of splitting a
father, and steps can be made in turn. -/
structure Moves (cfg : Config) (R : Work → Work → Prop) : Prop where
  /-- No step is a step. -/
  refl : ∀ {w w'}, R w w' → R w' w'
  /-- Two steps are one. -/
  trans : ∀ {w₁ w₂ w₃}, R w₁ w₂ → R w₂ w₃ → R w₁ w₃
  /-- The record does not matter. -/
  congr : ∀ {w w' w''}, R w w' → w''.func = w'.func → w''.changed = w'.changed → R w w''
  wellFormed : ∀ {w w'}, R w w' → w'.func.WellFormed
  length_le : ∀ {w w'}, R w w' → w.func.blocks.length ≤ w'.func.blocks.length
  /-- Regions stay rooted. -/
  rooted : ∀ {w w'} {d : Region}, R w w' → d.Rooted w.func → d.Rooted w'.func
  /-- An edge whose state is known is led past its region. -/
  lead : ∀ {w : Work} {d : Region} {state : Var} {father : Int} {b : Block} {v : UInt64}
    {target : Int} {path : List Int}, R w w → d.Rooted w.func → d.state? = some state →
    w.func.block? father = some b → d.entrySerial ∈ b.exits →
    d.stateOn? cfg w.func state [father] = .ok (some v) →
    d.resolvePath? w.func v = .ok (some (target, path)) →
    Succeeds (bypass father d.entrySerial target path) w fun _ w' => R w w'
  /-- A father whose predecessors may know the state is split. -/
  split : ∀ {w : Work} {d : Region} {state : Var} {father : Int} {b : Block}, R w w →
    d.Rooted w.func → d.state? = some state → w.func.block? father = some b →
    d.entrySerial ∈ b.exits → Succeeds (splitFather cfg d state father) w fun _ w' => R w w'

namespace Moves

variable {R : Work → Work → Prop} {w₀ : Work}

theorem redirectFathers (hR : Moves cfg R) {fathers : List Int} (hw : R w₀ w)
    (hd : d.Rooted w₀.func) (hst : d.state? = some state)
    (hfathers : ∀ x ∈ fathers, ∃ b, w₀.func.block? x = some b) :
    Succeeds (redirectFathers cfg d state fathers) w fun _ w' => R w₀ w' := by
  induction fathers generalizing w with
  | nil => exact concludes_pure hw
  | cons father rest ih =>
    have hrest : ∀ {w' : Work}, R w₀ w' →
        Succeeds (Removal.redirectFathers cfg d state rest) w' fun _ w' => R w₀ w' := fun hw' =>
      ih hw' fun x hx => hfathers x (by simp [hx])
    obtain ⟨b, hb⟩ : ∃ b, w.func.block? father = some b := by
      obtain ⟨b, hb⟩ := hfathers father (by simp)
      have := Func.lt_of_block? hb
      have := hR.length_le hw
      exact Func.exists_block? (by omega) (by omega)
    have hdw := hR.rooted hw hd
    rw [Removal.redirectFathers]
    refine concludes_get_bind ?_
    refine concludes_lookup_bind_of_ok (Func.getBlock_of_block? hb) ?_
    simp only [(hR.wellFormed hw).succs_eq hb]
    split
    · exact hrest hw
    next he =>
    have he : d.entrySerial ∈ b.exits := by simpa using he
    obtain ⟨known, hknown⟩ := Func.exists_stateOn? (hR.wellFormed hw).toVerified cfg d state
      (show ∀ x ∈ [father], _ by simpa using ⟨b, hb⟩)
    refine concludes_lookup_bind_of_ok hknown ?_
    cases known with
    | some v =>
      obtain ⟨way, hway⟩ := Region.exists_resolvePath? hdw.blocks v
      refine concludes_lookup_bind_of_ok hway ?_
      cases way with
      | none => exact succeeds_countUnresolved.bind fun _ _ h => hrest (hR.congr hw h.1 h.2)
      | some way =>
        exact (hR.lead (hR.refl hw) hdw hst hb he hknown hway).bind
          fun _ _ hw' => hrest (hR.trans hw hw')
    | none =>
      refine (hR.split (hR.refl hw) hdw hst hb he).bind fun _ w' hw' => concludes_get_bind ?_
      split
      · exact concludes_pure (hR.trans hw hw')
      · exact hrest (hR.trans hw hw')

theorem bypassRegion (hR : Moves cfg R) (hw : R w₀ w) (hd : d.Rooted w₀.func) :
    Succeeds (bypassRegion cfg d) w fun _ w' => R w₀ w' := by
  refine concludes_get_bind ?_
  cases hst : d.state? with
  | none => exact concludes_modify (hR.congr hw rfl rfl)
  | some state =>
    refine (hR.redirectFathers (hR.refl hw) (hR.rooted hw hd) hst fun x hx => ?_).weaken
      fun _ _ h => hR.trans hw h
    unfold Region.externalFathers at hx
    split at hx
    · simp at hx
    · next e _ =>
      cases hb : w.func.block? e.place with
      | none => simp [hb] at hx
      | some b =>
        rw [hb, Option.elim_some] at hx
        obtain ⟨b', hb', -⟩ := ((hR.wellFormed hw).mem_preds hb x).mp (List.mem_filter.mp hx).1
        exact ⟨b', hb'⟩

/-- **Regions in turn are steps.** -/
theorem bypassRegions (hR : Moves cfg R) {pass : Nat} {ds : List Region} (hw : R w₀ w)
    (hds : ∀ d ∈ ds, d.Rooted w₀.func) :
    Succeeds (bypassRegions cfg pass ds) w fun _ w' => R w₀ w' := by
  induction ds generalizing w with
  | nil => exact concludes_pure hw
  | cons d ds ih =>
    refine (concludes_modify (Q := fun _ w' => R w₀ w') (hR.congr hw rfl rfl)).bind fun _ w₁ hw₁ => ?_
    refine (hR.bypassRegion hw₁ (hds d (by simp))).bind fun _ w₂ hw₂ => concludes_get_bind ?_
    split
    · exact concludes_pure hw₂
    · exact ih hw₂ fun d hd => hds d (by simp [hd])

end Moves

/-- **Steps lead further.** -/
theorem moves_improves (cfg : Config) : Moves cfg fun w w' => w.func.Improves w'.func where
  refl := fun h => .refl h.wellFormed h.enteredOnce
  trans := Func.Improves.trans
  congr := fun h hf _ => hf ▸ h
  wellFormed := fun h => h.wellFormed
  length_le := fun h => h.length_le
  rooted := fun h hd => hd.reshapes h.toReshapes
  lead := by
    intro w d state father b v target path hw hd hst hb he hv hres
    obtain ⟨state', hst', hwalk⟩ := Region.walks_of_resolvePath? hres
    obtain rfl := Option.mem_unique hst hst'
    obtain ⟨g, hg, himp⟩ := hd.bypass hw.wellFormed hw.enteredOnce hb he hwalk
      fun hr hm => Func.read_of_stateOn? hw.wellFormed.toVerified hw.enteredOnce hv hr (.last hb hm)
    exact (succeeds_bypass hg).weaken fun _ _ h => h.1 ▸ himp
  split := fun hw hd hst hb he => splitFather_spec hw.wellFormed hw.enteredOnce hd hst hb he

/-! ## Passes -/

theorem succeeds_stopFor (reason : String) : Succeeds (stopFor reason) w fun _ w' => w'.func = w.func :=
  concludes_get_bind (.bind (concludes_modify (Q := fun _ w' => w'.func = w.func) rfl)
    fun _ _ h => concludes_modify h)

/-- **What passes keep**: `I` between them, and `J` within one until the function is compacted. -/
structure PassInvariant (cfg : Config) (I J : Func → Prop) : Prop where
  /-- A function has its edges written down, so that regions can be collected. -/
  verified : ∀ {f}, I f → f.Verified
  /-- So has a function within a pass. -/
  verified_within : ∀ {f}, J f → f.Verified
  /-- Leading edges past the regions that are found succeeds. -/
  bypass : ∀ (pass : Nat) {w : Work}, I w.func → w.copies = 0 → w.changed = false →
    w.exhausted = false → Succeeds (bypassRegions cfg pass (w.func.collect cfg).regions) w
      fun _ w' => J w'.func ∧ (w'.changed = false → I w'.func)
  /-- So does compaction. -/
  compact : ∀ {f g}, J f → f.Compacts g → I g

variable {I J : Func → Prop} {left pass : Nat}

/-- **One pass**: collection, edges led past what is found, and compaction if anything has changed.
`I` holds at its end if `J` does before compaction, and the passes that follow keep it. -/
theorem succeeds_runPasses_succ (hv : w.func.Verified)
    (hdone : (w.func.collect cfg).regions = [] ∨ cfg.maxPasses < pass → I w.func)
    (hbypass : ∀ {w' : Work}, w'.func = w.func → w'.copies = 0 → w'.changed = false →
      w'.exhausted = false → Succeeds (bypassRegions cfg pass (w.func.collect cfg).regions) w'
        fun _ w'' => J w''.func ∧ (w''.changed = false → I w''.func))
    (hJ : ∀ {f}, J f → f.Verified) (hcompact : ∀ {f g}, J f → f.Compacts g → I g)
    (hrest : ∀ {w' : Work}, I w'.func →
      Succeeds (runPasses cfg false left (pass + 1)) w' fun _ w'' => I w''.func) :
    Succeeds (runPasses cfg false (left + 1) pass) w fun _ w' => I w'.func := by
  obtain ⟨hnone, -⟩ := Func.collect_spec hv cfg
  have hcollect : Succeeds (collect cfg) w fun ds w' =>
      w'.func = w.func ∧ ds = (w.func.collect cfg).regions := by
    have hrun : collect cfg w = .ok (w.func.collect cfg).regions
        { w with events := w.events ++ (w.func.collect cfg).events } := by
      simp only [collect, hnone]
    exact concludes_of_ok hrun ⟨rfl, rfl⟩
  rw [runPasses]
  simp only [Bool.false_eq_true, if_false]
  refine (concludes_inPass hcollect).bind ?_
  rintro _ w₁ ⟨hw₁, rfl⟩
  split
  · next hnil => exact concludes_pure (hw₁ ▸ hdone (.inl (List.isEmpty_iff.mp hnil)))
  split
  · next hlate => exact (succeeds_stopFor _).weaken fun _ _ h => (h.trans hw₁) ▸ hdone (.inr hlate)
  refine (concludes_modify (Q := fun _ w' => w'.func = w.func) hw₁).bind fun _ w₂ hw₂ => ?_
  refine (concludes_modify (Q := fun _ w' => w'.func = w.func ∧ w'.copies = 0 ∧ w'.changed = false ∧
    w'.exhausted = false) ⟨hw₂, rfl, rfl, rfl⟩).bind fun _ w₃ ⟨hw₃, hcopies, hch, hex⟩ => ?_
  refine (concludes_inPass (hbypass hw₃ hcopies hch hex)).bind fun _ w₄ ⟨hw₄, hsame⟩ =>
    concludes_get_bind ?_
  -- a function that has changed is compacted, one that has not is still what it was
  have hcompacted : ∀ {y : Removal Unit} {Q : Unit → Work → Prop},
      (∀ w', I w'.func → Succeeds y w' Q) → Succeeds (if w₄.changed = true then
        (do let _ ← inPass pass (edit Func.compact); y) else y) w₄ Q := by
    intro y Q hy
    split
    · obtain ⟨g, hg, hcompacts⟩ := Func.compact_spec (hJ hw₄)
      exact (concludes_inPass (succeeds_edit (P := fun _ w' => I w'.func) hg
        (hcompact hw₄ hcompacts))).bind fun _ => hy
    · next hunchanged => exact hy w₄ (hsame (by simpa using hunchanged))
  refine hcompacted fun w₅ hw₅ => concludes_get_bind ((succeeds_tell _).bind fun _ w₆ hw₆ => ?_)
  have hw₆ : I w₆.func := hw₆ ▸ hw₅
  split
  · exact (succeeds_stopFor _).weaken fun _ _ h => h ▸ hw₆
  split
  · exact hrest hw₆
  · exact concludes_pure hw₆

theorem PassInvariant.runPasses (hI : PassInvariant cfg I J) (hw : I w.func) :
    Succeeds (runPasses cfg false left pass) w fun _ w' => I w'.func := by
  induction left generalizing pass w with
  | zero => exact concludes_pure hw
  | succ left ih =>
    refine succeeds_runPasses_succ (hI.verified hw) (fun _ => hw) (fun {w'} hw' hcopies hch hex => ?_)
      hI.verified_within hI.compact ih
    exact hw' ▸ hI.bypass pass (hw'.symm ▸ hw) hcopies hch hex

theorem succeeds_runAll (h : Succeeds (runPasses cfg false (cfg.maxPasses.toNat + 1) 1) w
    fun _ w' => I w'.func) : Succeeds (runAll cfg false) w fun _ w' => I w'.func := by
  refine h.bind fun _ w₁ hw₁ => concludes_get_bind ?_
  dsimp only
  split
  · exact (succeeds_tell _).weaken fun _ _ h => h ▸ hw₁
  · exact concludes_pure hw₁

/-- A removal does not fail if its passes do not, and leaves what they leave. -/
theorem unflatten_of_runPasses (hat : cfg.unflattensAt f.maturity = true)
    (h : ∀ {w : Work}, w.func = f →
      Succeeds (runPasses cfg false (cfg.maxPasses.toNat + 1) 1) w fun _ w' => I w'.func) :
    (f.unflatten cfg false).error? = none ∧ I (f.unflatten cfg false).func := by
  unfold Func.unflatten
  dsimp only
  obtain ⟨_, w, hrun, hw⟩ := succeeds_iff.mp (succeeds_runAll (h (w := { func := f, report := _ }) rfl))
  rw [if_pos hat, hrun]
  exact ⟨rfl, hw⟩

/-- **A removal does not fail, and keeps what its passes keep.** -/
theorem PassInvariant.unflatten (hI : PassInvariant cfg I J) (hf : I f) :
    (f.unflatten cfg false).error? = none ∧ I (f.unflatten cfg false).func := by
  by_cases hat : cfg.unflattensAt f.maturity = true
  · exact unflatten_of_runPasses hat fun hw => hI.runPasses (hw.symm ▸ hf)
  · unfold Func.unflatten
    dsimp only
    rw [if_neg hat]
    exact ⟨rfl, hf⟩

/-- **What every step of a pass keeps.** -/
structure Invariant (cfg : Config) (I : Func → Prop) : Prop where
  verified : ∀ {f}, I f → f.Verified
  /-- Leading edges past regions succeeds. -/
  bypass : ∀ {pass : Nat} {ds : List Region} {w : Work}, I w.func → (∀ d ∈ ds, d.Rooted w.func) →
    Succeeds (bypassRegions cfg pass ds) w fun _ w' => I w'.func
  compact : ∀ {f g}, I f → f.Compacts g → I g

theorem Invariant.unflatten (hI : Invariant cfg I) (hf : I f) :
    (f.unflatten cfg false).error? = none ∧ I (f.unflatten cfg false).func :=
  PassInvariant.unflatten (J := I)
    { hI with
      verified_within := hI.verified
      bypass := fun _ _ hw _ _ _ =>
        (hI.bypass hw (Func.collect_spec (hI.verified hw) cfg).2).weaken
          fun _ _ h => ⟨h, fun _ => h⟩ } hf

/-- **Passes lead to functions that may stand in for the first.** -/
theorem invariant_preserves (cfg : Config) (f : Func) : Invariant cfg f.Preserves where
  verified := fun h => h.wellFormed.toVerified
  bypass := by
    intro pass ds w h hds
    have hw : w.func.Improves w.func := .refl h.wellFormed h.enteredOnce
    exact ((moves_improves cfg).bypassRegions hw hds).weaken
      fun _ _ himp => h.trans himp.toPreserves
  compact := fun h hc => h.trans (hc.preserves h.wellFormed.toVerified h.enteredOnce)

end Removal

namespace Func

variable {f : Func}

theorem EnteredOnce.of_preds (hf : f.Verified) (h : ∀ b, f.block? 0 = some b → b.preds = []) :
    f.EnteredOnce := by
  intro p hp
  obtain ⟨b, hb⟩ := hf.exists_of_edge hp
  have := (hf.mem_preds hb p).mpr hp
  rw [h b hb] at this
  cases this

/-- **Removing dispatchers never changes behaviour.**  Whatever the tunables, the removal does not
fail on a function in order whose entry has no predecessors, and the function afterwards returns what
it returned, with the same calls, within the same limit and in no more steps. -/
theorem run_unflatten (hv : f.verify = .ok ()) (he : rebuildEdges f = .ok () f)
    (h₀ : ∀ b, f.block? 0 = some b → b.preds = []) (cfg : Config) :
    (f.unflatten cfg false).error? = none ∧
      ∀ inputs limit e, f.run inputs limit = .ok e → e.error? = none →
        ∃ e', (f.unflatten cfg false).func.run inputs limit = .ok e' ∧ e'.error? = none ∧
          e'.trace.ret = e.trace.ret ∧ e'.trace.calls = e.trace.calls ∧
          e'.trace.steps ≤ e.trace.steps := by
  have hf := (verify_eq_ok_iff.mp hv).wellFormed he
  obtain ⟨hnone, hp⟩ := (Removal.invariant_preserves cfg f).unflatten
    (.refl hf (.of_preds hf.toVerified h₀))
  exact ⟨hnone, fun _ _ _ => hp.refines.run hf.endsLast hp.wellFormed.endsLast⟩

/-- A switch on a constant, through two comparisons. -/
def switch : Func :=
  { function "switch" [
      block 0 [.mov (lit 0x3c3c3c3c) (reg 1), .goto 1],
      branching 1 .jz (reg 1) (lit 0x5a5a5a5a) 3 2,
      branching 2 .jz (reg 1) (lit 0x3c3c3c3c) 5 4,
      block 3 [.ret (lit 7)],
      block 4 [.ret (lit 8)],
      block 5 [.call (symbol 0x1000 "puts") (reg 0) (reg 2),
        .ret (reg 2)]] with
    maturity := .calls }

theorem run_unflatten_switch :
    ∃ e', (switch.unflatten {} false).func.run Table.empty 6 = .ok e' ∧ e'.error? = none ∧
      e'.trace.ret = 1 ∧ e'.trace.calls = [⟨"puts", 0⟩] ∧ e'.trace.steps ≤ 6 :=
  (run_unflatten (by decide) rfl (by decide) {}).2 Table.empty 6
    ⟨{ ret := 1, calls := [⟨"puts", 0⟩], steps := 6 }, none⟩ (by decide +kernel) rfl

end Func

end Deflatten

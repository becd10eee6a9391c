import Deflatten.Proofs.Flattening.Draining

/-!
# Proofs/Flattening/Undoing — the engine undoes a flattening

The first pass drains the chain of a flattened function, so what is left of it only sets the state;
later passes keep that (`Removal.passInvariant_all`).  A state that is only set is never live, and so
the dead stores that the first global optimization drops are all that there is of it
(`Func.All.swept`).  Together with the one region that is found in the flattened function,
this is the undoing of a flattening (`Func.collect_advance_flatten`).
-/

namespace Deflatten

open Samples (sum)

/-! ## Passes and a property of instructions -/

namespace Func

/-- All instructions that can be reached have a property. -/
def AllWithin (P : Insn → Prop) (f : Func) : Prop :=
  ∀ s b, s ∈ f.visited → f.block? s = some b → b.All P

variable {f g : Func} {P : Insn → Prop}

theorem All.allWithin (h : f.All P) : f.AllWithin P := fun _ _ _ hb => h.block? hb

/-- Compaction leaves what can be reached. -/
theorem AllWithin.compacts (hP : Insn.Portable P) (h : f.AllWithin P) (hf : f.Verified)
    (hc : f.Compacts g) : g.All P := by
  intro b' hb'
  obtain ⟨s, hs⟩ := exists_block?_of_mem hb'
  obtain ⟨r, b, hb, hr, -, hret⟩ := hc.exists_of_block? hf hs
  exact (h r b hr hb).retargets hP hret

end Func

/-- **Passes keep a property of instructions**, though blocks that can not be reached any more may
lack it until the function is compacted. -/
theorem Removal.passInvariant_all {P : Insn → Prop} (hP : Insn.Portable P) (cfg : Config) :
    PassInvariant cfg (fun f => f.WellFormed ∧ f.All P)
      (fun f => f.WellFormed ∧ f.AllWithin P) where
  verified := fun h => h.1.toVerified
  verified_within := fun h => h.1.toVerified
  bypass := by
    intro pass w hw _ _ _
    have hmoves : Succeeds (bypassRegions cfg pass (w.func.collect cfg).regions) w
        fun _ w' => Upkeep w w' :=
      (moves_upkeep cfg).bypassRegions (Upkeep.refl hw.1)
        (Func.collect_spec hw.1.toVerified cfg).2
    obtain ⟨a, w', hrun, hup⟩ := succeeds_iff.mp hmoves
    have hcarries : Work.Carries w.func.maturity P w' :=
      ((keeps_carries hP).bypassRegions pass pass _).stays.of_eq_ok ⟨rfl, hw.2⟩ hrun
    exact concludes_of_ok hrun ⟨⟨hup.reshapes.wellFormed, hcarries.all.allWithin⟩,
      fun _ => ⟨hup.reshapes.wellFormed, hcarries.all⟩⟩
  compact := fun h hc => ⟨hc.wellFormed, h.2.compacts hP h.1.toVerified hc⟩

namespace Func

variable {f g k : Func} {p : CasePlan} {v : Var}

/-! ## The removal -/

/-- A chain that nothing leads into can not be reached. -/
theorem Draining.allWithin {touched : List Int} {n : Nat} (D : k.Draining f n v [] touched) :
    f.AllWithin (Insn.OnlySets v) := by
  intro s b hs hb
  have hout : ¬ (1 ≤ s ∧ s < n) := by
    refine forall_visited D.wellFormed.toVerified (P := fun s => ¬ (1 ≤ s ∧ s < n))
      (fun _ => by omega) (fun {x y} hx he hy => ?_) hs
    rcases D.enters he hy.1 hy.2 with hin | ⟨-, hmem⟩
    · exact hx hin
    · cases hmem
  exact (D.tame hb).resolve_left hout

/-- **A removal leaves nothing of the chain**: all there is of the state is that it is set. -/
theorem Chained.unflatten (hk : k.Chained p v) (hp : p.Sound v) (hm : k.maturity = .calls)
    (hfed : p.dispatch = 2 * p.count → ∀ {kb}, k.block? p.dispatch = some kb →
      kb.preds ≠ [] ∧ (kb.preds.length : Int) ≤ ({} : Config).maxDuplications + 1) :
    (k.unflatten {} false).error? = none ∧ (k.unflatten {} false).func.WellFormed ∧
      (k.unflatten {} false).func.All (Insn.OnlySets v) := by
  have hinv := Removal.passInvariant_all (Insn.portable_onlySets v) {}
  obtain ⟨d, -, hregions, hd⟩ := hk.collect hp
  refine Removal.unflatten_of_runPasses (I := fun f => f.WellFormed ∧ f.All (Insn.OnlySets v))
    (by rw [hm]; rfl) fun {w} hw => ?_
  subst hw
  refine Removal.succeeds_runPasses_succ hk.wellFormed.toVerified (fun hdone => ?_)
    (fun {w'} hw' hcopies _ _ => ?_) hinv.verified_within hinv.compact hinv.runPasses
  · -- there is a region, and the first pass is allowed
    rcases hdone with hnil | hlate
    · rw [hregions] at hnil
      cases hnil
    · exact absurd hlate (by decide)
  · rw [hregions]
    refine (hk.drains hp hd hfed hw' hcopies).weaken fun _ w'' ⟨⟨touched, D⟩, hch⟩ =>
      ⟨⟨D.wellFormed, D.allWithin⟩, fun hch' => ?_⟩
    rw [hch] at hch'
    cases hch'

/-! ## Dead stores -/

/-- A variable that is only set is not live, and no store to it is left. -/
theorem dropDead_onlySets (hv : v.isGlobal = false) {out : List Var} (hout : v ∉ out)
    {is : List Insn} (h : ∀ i ∈ is, i.OnlySets v) :
    v ∉ (dropDead out is).2 ∧ ∀ i ∈ (dropDead out is).1, i.Ignores v := by
  induction is with
  | nil => exact ⟨hout, by simp [dropDead]⟩
  | cons i is ih =>
    obtain ⟨hi, his⟩ := List.forall_mem_cons.mp h
    obtain ⟨hlive, hall⟩ := ih his
    rw [dropDead]
    dsimp only
    split
    · exact ⟨hlive, hall⟩
    · next hdead =>
      have hdef : i.def? ≠ some v := fun hdef =>
        hdead (isDeadStore_iff.mpr ⟨hi.2 hdef, v, hdef, hv, hlive⟩)
      refine ⟨?_, List.forall_mem_cons.mpr ⟨⟨hdef, hi.1⟩, hall⟩⟩
      rw [mem_liveBefore, not_or, not_and]
      exact ⟨fun hmem => absurd hmem hlive, hi.1⟩

/-- A variable that is never read is live nowhere. -/
theorem not_mem_liveOut (h : f.All fun i => v ∉ i.reads) (s : Int) : v ∉ f.liveOut s := by
  intro hmem
  unfold liveOut at hmem
  cases hl : f.liveSets[s.toNat]? with
  | none => simp [hl] at hmem
  | some l =>
    rw [hl, Option.elim_some] at hmem
    have hin := (growRound_liveSets f).2.subset (List.mem_of_getElem? hl) (.inr hmem)
    obtain ⟨b, hb, hfree⟩ := List.mem_flatMap.mp (mem_distinct.mp hin)
    exact (h b hb).not_mem_free hfree

/-- **Dropping dead stores drops all stores to a variable that is only set.** -/
theorem All.swept (h : f.All (Insn.OnlySets v)) (hv : v.isGlobal = false) :
    f.swept.All (Insn.Ignores v) := by
  have hreads : f.All fun i => v ∉ i.reads := fun b hb i hi => (h b hb i hi).1
  intro b' hb'
  obtain ⟨s, hs⟩ := exists_block?_of_mem hb'
  obtain ⟨b, hb, rfl⟩ := exists_of_swept hs
  exact (dropDead_onlySets hv (not_mem_liveOut hreads s) (h.block? hb)).2

/-! ## The stages -/

/-- **The first global optimization clears the state away.** -/
theorem exists_stage_onlySets (cfg : Config) (hf : f.WellFormed) (h : f.All (Insn.OnlySets v))
    (hv : v.isGlobal = false) {m : Maturity} (hm : Maturity.glbopt1.code ≤ m.code) :
    ∃ stage g, cleanUp m { f with maturity := m } = .ok stage g ∧
      (g.unflatten cfg false).error? = none ∧ (g.handOn cfg m).WellFormed ∧
      (g.handOn cfg m).All (Insn.Ignores v) := by
  have hP := Insn.portable_ignores v
  obtain ⟨stage, g, hrun, hnone, hwf, -, -⟩ := exists_stage cfg m hf
  have hdrop : Carries m (Insn.Ignores v) { f with maturity := m }.swept :=
    ⟨rfl, All.swept (f := { f with maturity := m }) h hv⟩
  have hg : g.Carries m (Insn.Ignores v) := Carries.cleanUp hP hm
    (fun _ _ => eliminateDeadStores_induct_of_swept Carries.swept hdrop) hrun
  refine ⟨stage, g, hrun, hnone, hwf, ?_⟩
  unfold handOn
  split
  · exact (hg.unflatten hP hnone).all
  · exact hg.all

theorem advanceThrough_onlySets (cfg : Config) (hv : v.isGlobal = false) {ms : List Maturity}
    (hms : ∀ m ∈ ms, Maturity.glbopt1.code ≤ m.code) (hne : ms ≠ []) (hf : f.WellFormed)
    (h : f.All (Insn.OnlySets v)) : (advanceThrough cfg false ms f).error? = none ∧
      (advanceThrough cfg false ms f).func.All (Insn.Ignores v) := by
  induction ms generalizing f with
  | nil => exact absurd rfl hne
  | cons m ms ih =>
    obtain ⟨hm, hms⟩ := List.forall_mem_cons.mp hms
    obtain ⟨stage, g, hrun, hnone, hwf, hall⟩ := exists_stage_onlySets cfg hf h hv hm
    obtain ⟨herr, hfunc⟩ := advanceThrough_cons ms hrun hnone
    rw [herr, hfunc]
    by_cases hnil : ms = []
    · subst hnil
      exact ⟨rfl, hall⟩
    · exact ih hms hnil hwf fun b hb i hi => (hall b hb i hi).onlySets

/-- The resolution of calls ends in compaction. -/
theorem succeeds_cleanUp_calls (hf : f.Verified) :
    Succeeds (cleanUp .calls) f fun _ g => f.Compacts g := by
  obtain ⟨g, hrun, hc⟩ := compact_spec hf
  have hends : Succeeds compact f fun _ g => f.Compacts g := concludes_of_ok hrun hc
  exact concludes_get_bind (hends.bind fun _ _ h => concludes_get_bind (concludes_pure h))

/-- What leads back to the chain of a compacted function leads back to that of the function, and
something does. -/
theorem Chained.fed (hf : f.Chained p v) (hp : p.Sound v) (hc : f.Compacts k)
    (hbudget : p.dispatch = 2 * p.count → ∀ {b}, f.block? p.dispatch = some b →
      (b.preds.length : Int) ≤ ({} : Config).maxDuplications + 1)
    (hdisp : p.dispatch = 2 * p.count) {kb : Block} (hkb : k.block? p.dispatch = some kb) :
    kb.preds ≠ [] ∧ (kb.preds.length : Int) ≤ ({} : Config).maxDuplications + 1 := by
  have h3 := hp.three_le
  have hk := hf.compacts hp hc
  constructor
  · have hreach := hc.allReachable hf.wellFormed.toVerified kb (mem_of_block? hkb)
    rw [hk.wellFormed.placed hkb] at hreach
    rcases hreach.cases_tail with heq | ⟨x, -, he⟩
    · omega
    · exact List.ne_nil_of_mem ((hk.wellFormed.mem_preds hkb x).mpr he)
  · obtain ⟨b, hb, -, -⟩ := hf.exists_of_compacts hp hc hkb
    have hsub : kb.preds ⊆ b.preds := fun x hx => (hf.wellFormed.mem_preds hb x).mpr
      (hf.edge_of_compacts hp hc ((hk.wellFormed.mem_preds hkb x).mp hx))
    have hlen := (List.subperm_of_subset (hk.wellFormed.nodup_preds hkb) hsub).length_le
    have := hbudget hdisp hb
    omega

/-- **The stages from the resolution of calls on leave nothing of a chain and its state.** -/
theorem Chained.advanceThrough (hf : f.Chained p v) (hp : p.Sound v)
    (hbudget : p.dispatch = 2 * p.count → ∀ {b}, f.block? p.dispatch = some b →
      (b.preds.length : Int) ≤ ({} : Config).maxDuplications + 1) :
    (advanceThrough {} false [.calls, .glbopt1, .glbopt2] f).error? = none ∧
      (advanceThrough {} false [.calls, .glbopt1, .glbopt2] f).func.All (Insn.Ignores v) := by
  have hf' := hf.withMaturity .calls
  obtain ⟨stage, k, hrun, hc⟩ :=
    succeeds_iff.mp (succeeds_cleanUp_calls hf'.wellFormed.toVerified)
  obtain ⟨hnone, hwf, hall⟩ := (hf'.compacts hp hc).unflatten hp (maturity_cleanUp hrun)
    (hf'.fed hp hc hbudget)
  obtain ⟨herr, hfunc⟩ := advanceThrough_cons [.glbopt1, .glbopt2] hrun hnone
  have hon : k.handOn {} .calls = (k.unflatten {} false).func := rfl
  rw [herr, hfunc, hon]
  exact advanceThrough_onlySets {} hp.isLocal (by decide) (by decide) hwf hall

/-- **The way through the stages leaves nothing of a chain and its state.**  Before calls are
resolved, nothing is done. -/
theorem Chained.advance (hf : f.Chained p v) (hp : p.Sound v)
    (hm : f.maturity = .lifted ∨ f.maturity = .calls)
    (hbudget : p.dispatch = 2 * p.count → ∀ {b}, f.block? p.dispatch = some b →
      (b.preds.length : Int) ≤ ({} : Config).maxDuplications + 1) :
    (advance {} false f).1.error? = none ∧
      (advance {} false f).1.func.All (Insn.Ignores v) := by
  unfold Func.advance
  rcases hm with hm | hm
  · have hstages : (Maturity.all.filter fun m => f.maturity.code ≤ m.code) =
        [.lifted, .calls, .glbopt1, .glbopt2] := by rw [hm]; rfl
    have hnone : (Func.unflatten {} false { f with maturity := .lifted }).error? = none := rfl
    obtain ⟨herr, hfunc⟩ := advanceThrough_cons (f := f) (m := .lifted)
      [.calls, .glbopt1, .glbopt2] rfl hnone
    rw [hstages]
    dsimp only
    rw [herr, hfunc]
    exact (hf.withMaturity .lifted).advanceThrough hp hbudget
  · have hstages : (Maturity.all.filter fun m => f.maturity.code ≤ m.code) =
        [.calls, .glbopt1, .glbopt2] := by rw [hm]; rfl
    rw [hstages]
    exact hf.advanceThrough hp hbudget

/-- A register or a slot is no global. -/
theorem isGlobal_of_var? {o : Operand} (hk : o.kind = .reg ∨ o.kind = .stack)
    (hv : o.var? = some v) : v.isGlobal = false := by
  have hv : o.fields.var? = some v := hv
  unfold Fields.var? at hv
  rcases hk with hk | hk <;>
    · rw [show o.fields.kind = _ from hk] at hv
      obtain rfl := Option.some.inj hv
      rfl

/-- **The engine undoes its own flattening.**  Under the default tunables exactly one region is found
in a flattened function: it is entered at block 1, its internal blocks are the comparisons and its
exits the cases, and the constant of each case selects that case.  And after the stages no
instruction reads or writes the state.

The choices of the function depend on some variable, and if jumps back go through one block, there
are copies enough for its predecessors.  The bits of all constants are counted in a word.  A state of
seven bytes or less has too few values to exceed it; with one of eight bytes the count wraps from
`2 ^ 57` comparisons on. -/
theorem collect_advance_flatten {opts : FlattenOptions} (hv : f.verify = .ok ())
    (h3 : 3 ≤ f.blocks.length)
    (hcount : opts.stateOrDefault.size = 8 → f.blocks.length ≤ 2 ^ 57)
    (hm : f.maturity = .lifted ∨ f.maturity = .calls)
    (hfree : ∀ b ∈ f.blocks, ∀ t, b.terminator? = some t → t.op.isConditional = true →
      t.d.block ≠ b.next → b.free ≠ [])
    (hkind : opts.stateOrDefault.kind = .reg ∨ opts.stateOrDefault.kind = .stack)
    (h₁ : 1 ≤ opts.stateOrDefault.size) (h₈ : opts.stateOrDefault.size ≤ 8)
    (h : f.flatten opts = .ok g)
    (hback : opts.loopEnd = false ∨ ∀ b, g.block? (2 * f.blocks.length) = some b →
      (b.preds.length : Int) ≤ ({} : Config).maxDuplications + 1) :
    ∃ d consts v, opts.stateOrDefault.var? = some v ∧
      stateConstants opts.seed f.blocks.length opts.stateOrDefault.size = some consts ∧
      consts.length = f.blocks.length ∧
      (g.collect {}).error? = none ∧ (g.collect {}).regions = [d] ∧ d.entrySerial = 1 ∧
      d.internalSerials = (List.range' 1 (f.blocks.length - 1)).map Nat.cast ∧
      d.exitSerials = (List.range' f.blocks.length f.blocks.length).map Nat.cast ∧
      (∀ (j : Nat) c, consts[j]? = some c → d.resolve? g c = .ok (some ((f.blocks.length : Int) + j))) ∧
      (advance {} false g).1.error? = none ∧
      ∀ b ∈ (advance {} false g).1.func.blocks, ∀ i ∈ b.insns, i.def? ≠ some v ∧ v ∉ i.reads := by
  have hf := verify_eq_ok_iff.mp hv
  obtain ⟨p, v, hp, hg, hn, hstate, hconsts, hdisp, hmat⟩ := chained_of_flatten hf.toShaped h3
    hcount hfree (fun _ => isGlobal_of_var? hkind) h₁ h₈ h
  have hbudget : p.dispatch = 2 * p.count → ∀ {b}, g.block? p.dispatch = some b →
      (b.preds.length : Int) ≤ ({} : Config).maxDuplications + 1 := by
    intro hd b hb
    rcases hback with hno | hback
    · rw [hno] at hdisp
      have := hp.three_le
      simp only [Bool.false_eq_true, if_false] at hdisp
      omega
    · exact hback b (by rw [← hn, ← hd, hb])
  obtain ⟨d, hnone, hregions, hd⟩ := hg.collect hp
  obtain ⟨herr, hall⟩ := hg.advance hp (hmat ▸ hm) hbudget
  have hlen := (drawConstants_spec hconsts).1
  rw [← hn, ← hstate]
  refine ⟨d, p.consts, v, hp.state_eq, hconsts, hlen, hnone, hregions, hd.entrySerial_eq,
    hd.internalSerials_eq, hd.exitSerials_eq, fun j c hc => ?_, herr, hall⟩
  have hj : j < p.count := hlen ▸ (List.getElem?_eq_some_iff.mp hc).1
  obtain rfl := Option.mem_unique (CasePlan.getElem?_consts hconsts hj) hc
  obtain ⟨path, hres⟩ := hd.resolvePath? hp hg.comparison hj
  rw [Region.resolve?, hres]
  rfl

theorem collect_advance_flatten_sum :
    ∃ g d consts, sum.flatten { loopEnd := true } = .ok g ∧
      stateConstants 0 4 4 = some consts ∧ consts.length = 4 ∧ (g.collect {}).regions = [d] ∧
      d.entrySerial = 1 ∧ d.internalSerials = [1, 2, 3] ∧ d.exitSerials = [4, 5, 6, 7] ∧
      (∀ (j : Nat) c, consts[j]? = some c → d.resolve? g c = .ok (some (4 + (j : Int)))) ∧
      (advance {} false g).1.error? = none ∧
      ∀ b ∈ (advance {} false g).1.func.blocks, ∀ i ∈ b.insns,
        i.def? ≠ some (.stack stackBase (-0x14)) ∧ .stack stackBase (-0x14) ∉ i.reads := by
  have hok : (sum.flatten { loopEnd := true }).toOption.any (fun g =>
      (g.block? 8).all fun b => b.preds.length ≤ 21) = true := by decide +kernel
  cases hg : sum.flatten { loopEnd := true } with
  | error e =>
    rw [hg] at hok
    cases hok
  | ok g =>
    have hpreds : (g.block? 8).all (fun b => b.preds.length ≤ 21) = true := by rwa [hg] at hok
    have hback : ∀ b, g.block? 8 = some b → (b.preds.length : Int) ≤ 21 := by
      intro b hb
      rw [hb, Option.all_some, decide_eq_true_eq] at hpreds
      exact_mod_cast hpreds
    obtain ⟨d, consts, v, hv, hconsts, hlen, -, hregions, hentry, hint, hexit, hres, herr, hall⟩ :=
      collect_advance_flatten (by decide) (by decide) (by decide) (.inl rfl) (by decide)
        (.inr rfl) (by decide) (by decide) hg (.inr hback)
    obtain rfl : Var.stack stackBase (-0x14) = v := Option.some.inj hv
    exact ⟨g, d, consts, rfl, hconsts, hlen, hregions, hentry, hint, hexit, hres, herr, hall⟩

end Func

end Deflatten

import Deflatten.Dispatch.Stages
import Deflatten.Proofs.Dispatch.Passes
import Deflatten.Proofs.Editing.DeadStores
import Deflatten.Proofs.Editing.Threading

/-!
# Proofs/Dispatch/Stages — the way through the stages

A stage drops dead stores, threads jumps, compacts and removes dispatchers.  What each of these keeps
(`StageInvariant`), all the stages keep, and none of them fails (`StageInvariant.advance`).  Standing
in for the function at the start is kept by each (`stageInvariant_preserves`).
-/

namespace Deflatten

namespace Func

/-- **What the steps of a stage keep.** -/
structure StageInvariant (cfg : Config) (I : Func → Prop) : Prop
    extends Removal.Invariant cfg I where
  /-- Dropping dead stores keeps it. -/
  swept : ∀ {f}, I f → I f.swept
  /-- Threading jumps keeps it. -/
  threads : ∀ {f g}, I f → f.Threads g → g = f ∨ g.WellFormed → I g
  /-- It does not depend on the stage. -/
  withMaturity : ∀ {f} (m : Maturity), I f → I { f with maturity := m }

variable {cfg : Config} {I : Func → Prop} {f : Func}

/-- **The clean-ups of a stage succeed**, and from the resolution of calls on they end in
compaction. -/
theorem StageInvariant.cleanUp (hI : StageInvariant cfg I) (m : Maturity) (hf : I f) :
    Succeeds (cleanUp m) f fun _ g =>
      I g ∧ (Maturity.calls.code ≤ m.code → ∃ h, I h ∧ h.Compacts g) := by
  have hcompact : ∀ {g : Func} {stage : Stage}, I g → Succeeds (do
      if Maturity.calls.code ≤ m.code then
        let before := (← get).blocks.length
        let _ ← compact
        pure { stage with dropped := (before : Int) - (← get).blocks.length }
      else pure stage : Edit Stage) g fun _ g =>
        I g ∧ (Maturity.calls.code ≤ m.code → ∃ h, I h ∧ h.Compacts g) := by
    intro g stage hg
    split
    · obtain ⟨g', hrun, hc⟩ := compact_spec (hI.verified hg)
      have hends : Succeeds compact g fun _ g' => I g' ∧ ∃ h, I h ∧ h.Compacts g' :=
        concludes_of_ok hrun ⟨hI.compact hg hc, g, hg, hc⟩
      exact concludes_get_bind (hends.bind fun _ _ h =>
        concludes_get_bind (concludes_pure ⟨h.1, fun _ => h.2⟩))
    · next hlt => exact concludes_pure ⟨hg, fun hle => absurd hle hlt⟩
  unfold Func.cleanUp
  dsimp only
  split
  · obtain ⟨e, n, he⟩ := (hI.verified hf).exists_eliminateDeadStores
    have hdrop : I e := eliminateDeadStores_induct hI.swept hf he
    obtain ⟨n, g, hrun, hthreads, hwf⟩ := threadJumps_spec (hI.verified hdrop).toShaped
    have hends : Succeeds threadJumps e fun _ g => I g :=
      concludes_of_ok hrun (hI.threads hdrop hthreads hwf)
    refine concludes_get_bind (concludes_ofExcept_bind (by simp [he]) fun r hr => ?_)
    obtain rfl := Except.ok.inj (he.symm.trans hr)
    exact concludes_set_bind (hends.bind fun _ _ h => hcompact h)
  · exact hcompact hf

/-- The function a stage hands on: without dispatchers, if they are removed at that stage. -/
def handOn (cfg : Config) (m : Maturity) (f : Func) : Func :=
  if cfg.unflattensAt m then (f.unflatten cfg false).func else f

/-- **A stage that succeeds goes on to the next.** -/
theorem advanceThrough_cons {m : Maturity} {stage : Stage} {g : Func} (ms : List Maturity)
    (hrun : Func.cleanUp m { f with maturity := m } = .ok stage g)
    (hnone : (g.unflatten cfg false).error? = none) :
    (advanceThrough cfg false (m :: ms) f).error? =
        (advanceThrough cfg false ms (g.handOn cfg m)).error? ∧
      (advanceThrough cfg false (m :: ms) f).func =
        (advanceThrough cfg false ms (g.handOn cfg m)).func := by
  rw [Func.advanceThrough, hrun]
  by_cases hc : cfg.unflattensAt m = true <;> simp [handOn, hc, hnone]

/-- **The stages succeed, and keep what their steps keep.** -/
theorem StageInvariant.advanceThrough (hI : StageInvariant cfg I) (ms : List Maturity) (hf : I f) :
    (advanceThrough cfg false ms f).error? = none ∧ I (advanceThrough cfg false ms f).func := by
  induction ms generalizing f with
  | nil => exact ⟨rfl, hf⟩
  | cons m ms ih =>
    obtain ⟨stage, g, hrun, hg, -⟩ := succeeds_iff.mp (hI.cleanUp m (hI.withMaturity m hf))
    obtain ⟨hnone, hun⟩ := hI.unflatten hg
    obtain ⟨herr, hfunc⟩ := advanceThrough_cons ms hrun hnone
    have hnext : I (g.handOn cfg m) := by
      unfold handOn
      split
      · exact hun
      · exact hg
    rw [herr, hfunc]
    exact ih hnext

/-- **The way through the stages succeeds**, and keeps what its steps keep. -/
theorem StageInvariant.advance (hI : StageInvariant cfg I) (hf : I f) :
    (advance cfg false f).1.error? = none ∧ I (advance cfg false f).1.func :=
  hI.advanceThrough _ hf

theorem Preserves.withMaturity {g : Func} (h : f.Preserves g) (m : Maturity) :
    f.Preserves { g with maturity := m } :=
  ⟨h.wellFormed.withMaturity m, h.enteredOnce, h.refines.trans (refines_of_content? fun _ => rfl)⟩

/-- **Stages lead to functions that may stand in for the first.** -/
theorem stageInvariant_preserves (cfg : Config) (f : Func) : StageInvariant cfg f.Preserves where
  toInvariant := Removal.invariant_preserves cfg f
  swept := fun h => h.trans (preserves_swept h.wellFormed h.enteredOnce)
  threads := by
    rintro g g' h ht (rfl | hwf)
    · exact h
    · exact h.trans ⟨hwf, ht.enteredOnce h.enteredOnce, ht.refines⟩
  withMaturity := fun m h => h.withMaturity m

end Func

end Deflatten

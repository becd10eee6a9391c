import Deflatten.Proofs.Dispatch.Stages
import Deflatten.Proofs.Flattening.Simulation

/-!
# Proofs/Flattening/RoundTrip — flattened and taken through the stages

A flattened function is in order and nothing goes back to its entry, so the stages lead to one that
may stand in for it (`stageInvariant_preserves`), and by what a flattening keeps for the function.

A function of one block is not flattened, and its block may go back to itself.  It has no dispatcher
that is entered from outside, so the stages do not fail (`stageInvariant_single`); and if it does go
back, it never returns (`Single.enteredOnce`).
-/

namespace Deflatten

open Samples (sum)

namespace Func

variable {f g : Func} {d : Region} {b : Block} {s p : Int}

/-! ## One block -/

/-- **A function of one block at most.** -/
structure Single (f : Func) : Prop extends f.Verified where
  length_le : f.blocks.length ≤ 1

namespace Single

theorem eq_zero (h : f.Single) (hb : f.block? s = some b) : s = 0 := by
  have := lt_of_block? hb
  have := h.length_le
  omega

/-- All edges lead from the block to itself. -/
theorem eq_of_edge (h : f.Single) (he : f.Edge p s) : p = s := by
  obtain ⟨b', hb'⟩ := h.exists_of_edge he
  obtain ⟨b, hb, -⟩ := he
  rw [h.eq_zero hb, h.eq_zero hb']

/-- **A block that returns has nowhere else to go.** -/
theorem enteredOnce (h : f.Single) {m : Machine} {k n : Nat} {v : UInt64} {cs : List CallEvent}
    (hh : f.HaltsIn k m s n (.returned v) cs) : f.EnteredOnce := by
  generalize ho : Halt.returned v = o at hh
  induction hh with
  | goes _ _ _ ih => exact ih ho
  | stops hb hv =>
    subst ho
    rintro p ⟨b', hb', hs⟩
    rw [h.eq_zero hb', ← h.eq_zero hb] at hb'
    obtain rfl := Option.mem_unique hb hb'
    rw [Block.exits_of_leave_ret (Block.visit_eq_returned.mp hv).2.1] at hs
    cases hs

theorem wellFormed (h : f.Single) (h₀ : f.EnteredOnce) : f.WellFormed := by
  refine ⟨h.toVerified, fun {s b} hb => ?_⟩
  have hnil : b.preds = [] := List.eq_nil_iff_forall_not_mem.mpr fun p hp =>
    h₀ p (h.eq_zero hb ▸ (h.mem_preds hb p).mp hp)
  rw [hnil]
  exact .nil

/-- **A region of one block is not entered from outside.** -/
theorem externalFathers_eq_nil (h : f.Single) (hd : d.Rooted f) : d.externalFathers f = [] := by
  obtain ⟨i, hi, hplace⟩ := hd.entry
  obtain ⟨b, hb, -⟩ := hd.branch
  have hint : d.isInternal d.entrySerial = true := by
    simp only [Region.isInternal, List.any_eq_true, beq_iff_eq]
    exact ⟨i, List.mem_of_mem_head? hi, by simp [Region.entrySerial, hi]⟩
  simp only [Region.externalFathers, hi, hplace, hb, Option.elim_some, List.filter_eq_nil_iff]
  intro p hp
  rw [h.eq_of_edge ((h.mem_preds hb p).mp hp), hint]
  simp

theorem swept (h : f.Single) : f.swept.Single :=
  ⟨h.toVerified.swept, (length_blocks_mapBlocks ..).trans_le h.length_le⟩

theorem bypassRegions (cfg : Config) {pass : Nat} {ds : List Region} {w : Work}
    (h : w.func.Single) (hds : ∀ d ∈ ds, d.Rooted w.func) :
    Succeeds (Removal.bypassRegions cfg pass ds) w fun _ w' => w'.func = w.func := by
  induction ds generalizing w with
  | nil => exact concludes_pure rfl
  | cons d ds ih =>
    refine (concludes_modify (Q := fun _ w' => w'.func = w.func) rfl).bind fun _ w₁ hw₁ => ?_
    have hregion : Succeeds (Removal.bypassRegion cfg d) w₁ fun _ w' => w'.func = w.func := by
      refine concludes_get_bind ?_
      cases d.state? with
      | none => exact (Removal.succeeds_tell _).weaken fun _ _ hw => hw.trans hw₁
      | some state =>
        dsimp only
        rw [hw₁, h.externalFathers_eq_nil (hds d (by simp))]
        exact concludes_pure hw₁
    refine hregion.bind fun _ w₂ hw₂ => concludes_get_bind ?_
    split
    · exact concludes_pure hw₂
    · refine (ih (hw₂ ▸ h) fun d hd => hw₂ ▸ hds d (by simp [hd])).weaken fun _ _ hw => hw.trans hw₂

end Single

/-- **Stages lead from functions of one block to functions of one block.** -/
theorem stageInvariant_single (cfg : Config) : StageInvariant cfg Single where
  verified := Single.toVerified
  bypass := fun h hds => (h.bypassRegions cfg hds).weaken fun _ _ hw => hw ▸ h
  compact := fun h hc =>
    ⟨hc.wellFormed.toVerified, hc.length_eq ▸ (List.length_filter_le ..).trans h.length_le⟩
  swept := Single.swept
  threads := by
    rintro f g h ht (rfl | hwf)
    · exact h
    · exact ⟨hwf.toVerified, ht.length_eq ▸ h.length_le⟩
  withMaturity := fun m h =>
    ⟨⟨⟨h.placed, h.fits⟩, h.succs_eq, h.mem_preds⟩, h.length_le⟩

/-! ## Copies -/

theorem block?_copy (f : Func) (s : Int) : f.copy.block? s =
    (f.block? s).map fun b => { b.copy with preds := b.preds, succs := b.succs } := by
  unfold block? copy
  split <;> simp

theorem content?_copy (f : Func) (s : Int) : f.copy.content? s = f.content? s := by
  rw [content?, block?_copy, content?, Option.map_map]
  rfl

theorem Verified.copy (h : f.Verified) : f.copy.Verified := by
  have hlen : f.copy.blocks.length = f.blocks.length := by simp [Func.copy]
  have hcases : ∀ {s b'}, f.copy.block? s = some b' → ∃ b, f.block? s = some b ∧
      { b.copy with preds := b.preds, succs := b.succs } = b' := fun {s b'} hb' => by
    rwa [block?_copy, Option.map_eq_some_iff] at hb'
  refine ⟨⟨fun hb' => ?_, fun hb' => ?_⟩, fun hb' => ?_, fun hb' p => ?_⟩ <;>
    obtain ⟨b, hb, rfl⟩ := hcases hb'
  · change b.serial = _
    exact h.placed hb
  · exact hlen ▸ (h.fits hb).congr rfl
  · change b.succs = _
    exact h.succs_eq hb
  · exact (h.mem_preds hb p).trans (edge_congr (f.content?_copy _)).symm

theorem Verified.single_copy (h : f.Verified) (hn : f.blocks.length < 2) : f.copy.Single :=
  ⟨h.copy, by simpa [Func.copy] using Nat.le_of_lt_succ hn⟩

/-! ## The round trip -/

variable {opts : FlattenOptions} {cfg : Config}

theorem eq_copy_of_flatten (hn : f.blocks.length < 2) (h : f.flatten opts = .ok g) :
    g = f.copy := by
  unfold flatten at h
  dsimp only at h
  split at h
  · cases h
  · rw [if_pos hn] at h
    exact (Except.ok.inj h).symm

/-- **The stages do not fail on what a flattening leaves, and lead to what returns as before.** -/
theorem advance_of_flatten (hf : f.Verified) (h : f.flatten opts = .ok g) (cfg : Config) :
    (advance cfg false g).1.error? = none ∧ (advance cfg false g).1.func.EndsLast ∧
      ∀ m k n v cs, f.HaltsIn k m 0 n (.returned v) cs →
        ∃ n', (advance cfg false g).1.func.EndsWithin m 0 n' (.returned v) cs := by
  by_cases hn : 2 ≤ f.blocks.length
  · obtain ⟨p, v, hfl⟩ := flattens_of_flatten hf.toShaped hn h
    obtain ⟨hnone, hp⟩ := (stageInvariant_preserves cfg g).advance
      (.refl hfl.wellFormed hfl.enteredOnce)
    refine ⟨hnone, hp.wellFormed.endsLast, fun m k n v cs hk => ?_⟩
    obtain ⟨n', hends⟩ := hfl.endsWithin hf.toShaped (by simp) hk
    exact ⟨n', hp.refines hends⟩
  · obtain rfl := eq_copy_of_flatten (by omega) h
    have hsingle := hf.single_copy (by omega)
    obtain ⟨hnone, hs⟩ := (stageInvariant_single cfg).advance hsingle
    refine ⟨hnone, hs.endsLast, fun m k n v cs hk => ?_⟩
    have hends := refines_of_content? f.content?_copy hk.endsWithin
    obtain ⟨k', n', -, hk'⟩ := hends
    have h₀ := hsingle.enteredOnce hk'
    obtain ⟨-, hp⟩ := (stageInvariant_preserves cfg f.copy).advance
      (.refl (hsingle.wellFormed h₀) h₀)
    exact ⟨n', hp.refines hk'.endsWithin⟩

/-- **Flattening and the stages together keep what a function does.**  Whatever the seed, the state
and the tunables, the stages do not fail on the flattened function, and what they lead to returns, if
the limit is large enough, what the function returns, after the same calls. -/
theorem run_advance_flatten (hf : f.verify = .ok ()) (h : f.flatten opts = .ok g) (cfg : Config) :
    (advance cfg false g).1.error? = none ∧
      ∀ inputs limit e, f.run inputs limit = .ok e → e.error? = none →
        ∃ enough, ∀ limit', enough ≤ limit' →
          ∃ e', (advance cfg false g).1.func.run inputs limit' = .ok e' ∧ e'.error? = none ∧
            e'.trace.ret = e.trace.ret ∧ e'.trace.calls = e.trace.calls := by
  have hf := verify_eq_ok_iff.mp hf
  obtain ⟨hnone, hlast, hends⟩ := advance_of_flatten hf h cfg
  refine ⟨hnone, fun inputs limit e he hok => ?_⟩
  obtain ⟨-, k, n, -, hk⟩ :=
    endsWithin_of_run hf.endsLast he (Ending.halt?_eq_returned.mpr ⟨hok, rfl⟩)
  obtain ⟨n', hend⟩ := hends _ _ _ _ _ hk
  refine ⟨n', fun limit' hlim => ?_⟩
  obtain ⟨e', he', ho', hcs, -⟩ := run_of_endsWithin hlast hend (by omega : n' ≤ limit'.toNat)
  obtain ⟨hok', hret⟩ := Ending.halt?_eq_returned.mp ho'
  exact ⟨e', he', hok', hret, hcs⟩

theorem run_advance_flatten_sum :
    ∃ g, sum.flatten { loopEnd := true } = .ok g ∧
      (advance {} false g).1.error? = none ∧
      ∃ enough, ∀ limit', enough ≤ limit' →
        ∃ e', (advance {} false g).1.func.run (Table.ofList [(.reg 0, 3)]) limit' = .ok e' ∧
          e'.error? = none ∧ e'.trace.ret = 3 ∧
          e'.trace.calls = [⟨"tick", 1⟩, ⟨"tick", 2⟩, ⟨"tick", 3⟩] := by
  have hok : (sum.flatten { loopEnd := true }).isOk = true := by decide +kernel
  cases hg : sum.flatten { loopEnd := true } with
  | error e =>
    rw [hg] at hok
    cases hok
  | ok g =>
    obtain ⟨hnone, hrun⟩ := run_advance_flatten (by decide) hg {}
    exact ⟨g, rfl, hnone, hrun (Table.ofList [(.reg 0, 3)]) 100
      ⟨{ ret := 3, calls := [⟨"tick", 1⟩, ⟨"tick", 2⟩, ⟨"tick", 3⟩], steps := 19 }, none⟩
      (by decide +kernel) rfl⟩

end Func

end Deflatten

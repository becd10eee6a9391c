import Deflatten.Flattening.Samples
import Deflatten.Proofs.Editing.DeadStores
import Mathlib.Logic.Function.Iterate

/-!
# Proofs/Editing/Elimination — dropping dead stores until none is left

A round that drops nothing leaves every block with the instructions it had
(`swept_of_le`), so the live sets are what they were and the next round drops nothing either.
Each round before it takes an instruction at least, and the number of instructions bounds the rounds:
the elimination ends of itself (`exists_rounds`) at a function that it leaves alone
(`Verified.eliminateDeadStores_of_stable`).
-/

namespace Deflatten

open Samples (block function lit reg)

namespace Func

variable {f : Func}

/-! ## Functions with every instruction list set -/

/-- The function with the instruction list of every block set. -/
def spelled (f : Func) : Func := f.mapBlocks fun _ b => b.withInsns b.insns

theorem growAt_spelled (f : Func) (is : List Nat) (sets : List LiveSets) :
    f.spelled.growAt is sets = f.growAt is sets := by
  induction is generalizing sets with
  | nil => rfl
  | cons i is ih =>
    have hget : f.spelled.blocks[i]? = f.blocks[i]?.map fun b => b.withInsns b.insns := by
      simp [spelled]
    rw [growAt, growAt, hget]
    cases f.blocks[i]? with
    | none => exact ih sets
    | some b =>
      cases sets[i]? with
      | none => exact ih sets
      | some own => exact ih (sets.set i (growBlock b sets own))

theorem maxRounds_spelled (f : Func) : f.spelled.maxRounds = f.maxRounds := by
  have hfree : f.spelled.blocks.map Block.free = f.blocks.map Block.free := by
    ext i v
    simp [spelled, Block.free]
  simp only [maxRounds, List.flatMap_def, hfree]
  simp [spelled]

/-- **The live sets do not depend on how an empty list of instructions is written.** -/
theorem liveSets_spelled (f : Func) : f.spelled.liveSets = f.liveSets := by
  have hgrow : ∀ (rounds : Nat) (sets : List LiveSets),
      f.spelled.growUntilStable rounds sets = f.growUntilStable rounds sets := by
    intro rounds
    induction rounds with
    | zero => exact fun _ => rfl
    | succ rounds ih =>
      intro sets
      have hround : f.spelled.growRound sets = f.growRound sets := by
        simp only [growRound, growAt_spelled]
        simp [spelled]
      simp only [growUntilStable, hround, ih]
  have hstart : (f.spelled.blocks.map fun _ => ({} : LiveSets)) = f.blocks.map fun _ => {} := by
    simp [spelled, List.map_const']
  rw [liveSets, liveSets, hgrow, maxRounds_spelled, hstart]

theorem swept_spelled (f : Func) : f.spelled.swept = f.swept := by
  simp only [swept, dropDeadBy, liveSets_spelled]
  cases hbody : f.body with
  | none => simp [spelled, mapBlocks, hbody]
  | some bs =>
    simp only [spelled, mapBlocks, hbody, Option.map_some, List.mapIdx_mapIdx]
    rfl

/-! ## Rounds -/

theorem numInsns_mapBlocks (f : Func) (g : Nat → Block → Block) :
    (f.mapBlocks g).numInsns = (f.blocks.zipIdx.map fun x => (g x.2 x.1).insns.length).sum := by
  simp [numInsns, List.length_flatMap, List.mapIdx_eq_zipIdx_map, Function.comp_def]

theorem numInsns_eq_zipIdx (f : Func) :
    f.numInsns = (f.blocks.zipIdx.map fun x => x.1.insns.length).sum := by
  conv_lhs => rw [numInsns, ← List.zipIdx_map_fst 0 f.blocks, List.length_flatMap, List.map_map]
  rfl

/-- **A round that drops nothing leaves the instructions as they are.** -/
theorem swept_of_le (h : f.numInsns ≤ f.swept.numInsns) :
    f.swept = f.spelled := by
  rw [swept, dropDeadBy, numInsns_mapBlocks, numInsns_eq_zipIdx] at h
  -- were one block shorter, the sum would be less
  have hall : ∀ x ∈ f.blocks.zipIdx,
      (dropDead (f.liveSets[x.2]?.elim [] (·.onExit)) x.1.insns).1 = x.1.insns := by
    intro x hx
    by_contra hne
    have hlt : (dropDead (f.liveSets[x.2]?.elim [] (·.onExit)) x.1.insns).1.length <
        x.1.insns.length :=
      Nat.lt_of_le_of_ne (sublist_dropDead _ _).length_le fun hlen =>
        hne ((sublist_dropDead _ _).eq_of_length hlen)
    exact absurd h (Nat.not_le_of_lt (List.sum_lt_sum _ _
      (fun y _ => (sublist_dropDead _ _).length_le) ⟨x, hx, hlt⟩))
  cases hbody : f.body with
  | none => simp [swept, dropDeadBy, spelled, mapBlocks, hbody]
  | some bs =>
    have hbs : f.blocks = bs := by simp [blocks, hbody]
    rw [hbs] at hall
    simp only [swept, dropDeadBy, spelled, mapBlocks, hbody, Option.map_some,
      List.mapIdx_eq_zipIdx_map]
    congr 2
    exact List.map_congr_left fun x hx => by rw [hall x hx]

/-- …and so does the round after it. -/
theorem swept_of_stable (h : f.numInsns ≤ f.swept.numInsns) :
    f.swept.swept = f.swept := by
  rw [swept_of_le h, swept_spelled, swept_of_le h]

theorem numInsns_swept_le (f : Func) : f.swept.numInsns ≤ f.numInsns := by
  rw [swept, dropDeadBy, numInsns_mapBlocks, numInsns_eq_zipIdx]
  exact List.sum_le_sum fun x _ => (sublist_dropDead _ _).length_le

theorem verified_iterate_swept (hf : f.Verified) (j : Nat) : (swept^[j] f).Verified := by
  induction j with
  | zero => exact hf
  | succ j ih => exact Function.iterate_succ_apply' swept j f ▸ ih.swept

/-- **Rounds enough are left before they are used up**: each but the last drops an instruction, the
last drops none. -/
theorem exists_rounds {rounds : Nat} (hf : f.Verified) (h : f.numInsns < rounds) :
    ∃ k, eliminateRounds rounds f = .ok (swept^[k + 1] f) ∧
      (∀ j < k, (swept^[j + 1] f).numInsns < (swept^[j] f).numInsns) ∧
      (swept^[k + 1] f).numInsns = (swept^[k] f).numInsns := by
  induction rounds generalizing f with
  | zero => omega
  | succ rounds ih =>
    rw [eliminateRounds_succ rounds hf.dropDeadStores_eq]
    split
    · next hlt =>
      obtain ⟨k, heq, hdrops, hlast⟩ := ih hf.swept (by omega)
      refine ⟨k + 1, heq, fun j hj => ?_, hlast⟩
      cases j with
      | zero => exact hlt
      | succ j => exact hdrops j (by omega)
    · next hge =>
      refine ⟨0, rfl, fun j hj => absurd hj (Nat.not_lt_zero j), ?_⟩
      exact Nat.le_antisymm f.numInsns_swept_le (Nat.le_of_not_lt hge)

theorem Verified.eliminateDeadStores_of_stable (hf : f.Verified) (h : f.swept = f) :
    f.eliminateDeadStores = .ok (f, 0) := by
  refine eliminateDeadStores_eq_ok_iff.mpr ⟨?_, by simp⟩
  rw [eliminateRounds_succ _ hf.dropDeadStores_eq, h, if_neg (Nat.lt_irrefl _)]

/-! ## The elimination -/

/-- **`g` has the edges of `f`**, as they are written down. -/
structure SameEdges (f g : Func) : Prop where
  preds_eq : g.blocks.map Block.preds = f.blocks.map Block.preds
  succs_eq : g.blocks.map Block.succs = f.blocks.map Block.succs

theorem SameEdges.swept {g : Func} (h : f.SameEdges g) : f.SameEdges g.swept := by
  refine ⟨Eq.trans ?_ h.preds_eq, Eq.trans ?_ h.succs_eq⟩ <;>
  · refine List.ext_getElem? fun i => ?_
    cases hb : g.blocks[i]? <;> simp [Func.swept, dropDeadBy, Block.withInsns, hb]

/-- **Eliminating dead stores keeps what a function does.**  No look-up fails, and it ends of itself,
after rounds that each drop an instruction and one that drops none; the function afterwards is verified
and has the same edges; it returns what it returned, with the same calls, within the same limit and in
no more steps; and a second elimination drops nothing. -/
theorem run_eliminateDeadStores (hv : f.verify = .ok ()) :
    ∃ g n, f.eliminateDeadStores = .ok (g, n) ∧
    (∃ (k : Nat) (stage : Nat → Func), stage 0 = f ∧ stage (k + 1) = g ∧
      (∀ j ≤ k, (stage j).dropDeadStores = .ok (stage (j + 1))) ∧
      (∀ j < k, (stage (j + 1)).numInsns < (stage j).numInsns) ∧
      (stage (k + 1)).numInsns = (stage k).numInsns) ∧
    g.verify = .ok () ∧ f.SameEdges g ∧
    (∀ inputs limit e, f.run inputs limit = .ok e → e.error? = none →
      ∃ e', g.run inputs limit = .ok e' ∧ e'.error? = none ∧
        e'.trace.ret = e.trace.ret ∧ e'.trace.calls = e.trace.calls ∧
        e'.trace.steps ≤ e.trace.steps) ∧
    g.eliminateDeadStores = .ok (g, 0) := by
  have hf := verify_eq_ok_iff.mp hv
  obtain ⟨k, hrounds, hdrops, hlast⟩ := exists_rounds hf (Nat.lt_succ_self _)
  have helim := eliminateDeadStores_eq_ok_iff.mpr ⟨hrounds, rfl⟩
  obtain ⟨hf', hedges, hrefines⟩ := eliminateDeadStores_induct
    (I := fun g => g.Verified ∧ f.SameEdges g ∧ f.Refines g)
    (fun h => ⟨h.1.swept, h.2.1.swept, h.2.2.trans (refines_swept h.1)⟩)
    ⟨hf, ⟨rfl, rfl⟩, .refl f⟩ helim
  have hstable : (swept^[k + 1] f).swept = swept^[k + 1] f := by
    rw [Function.iterate_succ_apply']
    refine swept_of_stable (Nat.le_of_eq ?_)
    rw [← Function.iterate_succ_apply' swept, hlast]
  refine ⟨_, _, helim, ⟨k, fun j => swept^[j] f, rfl, rfl, fun j _ => ?_, hdrops, hlast⟩,
    verify_eq_ok_iff.mpr hf', hedges, fun inputs limit e => hrefines.run hf.endsLast hf'.endsLast,
    hf'.eliminateDeadStores_of_stable hstable⟩
  beta_reduce
  rw [Function.iterate_succ_apply']
  exact (verified_iterate_swept hf j).dropDeadStores_eq

/-- Two stores in two blocks, the first of them read by the second only. -/
def relay : Func :=
  function "relay" [
    block 0 [.mov (lit 1) (reg 1), .goto 1],
    block 1 [.mov (reg 1) (reg 2), .ret (reg 0)]]

theorem run_eliminateDeadStores_relay : ∃ g n, relay.eliminateDeadStores = .ok (g, n) ∧
    g.blocks.map Block.insns = [[.goto 1], [.ret (reg 0)]] ∧
      ∃ e', g.run (Table.ofList [(.reg 0, 7)]) 4 = .ok e' ∧
        e'.error? = none ∧ e'.trace.ret = 7 ∧ e'.trace.calls = [] ∧ e'.trace.steps ≤ 4 := by
  obtain ⟨g, n, hg, -, -, -, hruns, -⟩ := run_eliminateDeadStores (f := relay) (by decide)
  have hleft : (relay.eliminateDeadStores.map fun r => r.1.blocks.map Block.insns) =
      .ok [[.goto 1], [.ret (reg 0)]] := by
    decide +kernel
  rw [hg] at hleft
  exact ⟨g, n, hg, Except.ok.inj hleft, hruns (Table.ofList [(.reg 0, 7)]) 4
    ⟨{ ret := 7, calls := [], steps := 4 }, none⟩ (by decide +kernel) rfl⟩

end Func

end Deflatten

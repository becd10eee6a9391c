import Deflatten.Dispatch.Unflatten
import Deflatten.Flattening.Samples
import Deflatten.Proofs.Editing.Outcomes
import Deflatten.Proofs.Editing.Shape
import Deflatten.Proofs.Execution.Knowledge

/-!
# Proofs/Dispatch/Tracking — the state that a path into a region leaves

A path that `Region.track?` extends backwards is one that every execution has taken: the blocks put
in front are the only predecessors of those behind them.  So the value it finds is the value the
state has, unless the execution has begun inside the path, which it can only do where block 0 stands
(`read_of_track?`).  In a verified function every block that is asked for is there
(`exists_track?`).
-/

namespace Deflatten

open Samples (block branching function lit reg)

namespace Func

/-- **The blocks of a path are executed in a row**, the last one up to its terminator. -/
inductive Runs (f : Func) : List Int → Machine → Machine → Prop
  /-- The last block. -/
  | last {m m' : Machine} {s : Int} {b : Block} (hb : f.block? s = some b)
      (hm : m.perform b.body = .done m') : Runs f [s] m m'
  /-- A block and where it goes. -/
  | goes {m m₁ m' : Machine} {s t : Int} {c : Nat} {path : List Int} {b : Block}
      (hb : f.block? s = some b) (hv : b.visit m = .goes m₁ c t)
      (rest : Runs f (t :: path) m₁ m') : Runs f (s :: t :: path) m m'

variable {f : Func} {m m' m₀ : Machine} {s : Int} {k n : Nat} {path : List Int}

/-- **What is known before a path is known after it**, as far as its blocks tell. -/
theorem Runs.holds (hf : f.Shaped) (h : f.Runs path m m') {e : Env} (he : e.Holds m)
    {bs : List Block} (hbs : path.map f.block? = bs.map some) :
    Env.Holds (bs.foldl (fun e b => b.execBody e) e) m' := by
  induction h generalizing e bs with
  | last hb hm =>
    obtain ⟨b, rfl⟩ : ∃ b, bs = [b] :=
      List.length_eq_one_iff.mp (by simpa using congrArg List.length hbs.symm)
    obtain rfl : _ = b := by simpa [hb] using hbs
    exact Block.holds_execBody he (hf.fits hb).plain hm
  | goes hb hv _ ih =>
    cases bs with
    | nil => simp at hbs
    | cons b bs =>
      obtain ⟨hb', hrest⟩ := List.cons.inj hbs
      obtain rfl := Option.mem_unique hb hb'
      exact ih (Block.holds_execBody he (hf.fits hb).plain (Block.visit_eq_goes.mp hv).1) hrest

theorem Runs.read_of_stateAfter? (hf : f.Shaped) (h : f.Runs path m m') {state : Var} {v : UInt64}
    (hv : f.stateAfter? path state = .ok (some v)) : m'.read state = v := by
  obtain ⟨bs, hbs, hv⟩ := map_eq_ok_iff.mp hv
  exact h.holds hf (Env.holds_empty m) (mapM_getBlock_eq_ok_iff.mp hbs) state v hv

/-! ## Tracked paths -/

variable {d : Region} {state : Var} {v : UInt64} {steps : Nat} {p : List Int}

/-- **What one step of the tracking does**: the path decides the state, or is extended by the only
predecessor of its first block. -/
theorem track?_cases (h : d.track? f state (steps + 1) (s :: path) = .ok (some (p, v))) :
    (p = s :: path ∧ f.stateAfter? (s :: path) state = .ok (some v)) ∨
      ∃ b q, f.block? s = some b ∧ b.preds = [q] ∧
        d.track? f state steps (q :: s :: path) = .ok (some (p, v)) := by
  rw [Region.track?] at h
  obtain ⟨r, hr, h⟩ := bind_eq_ok_iff.mp h
  cases r with
  | some w =>
    obtain ⟨rfl, rfl⟩ := Prod.mk.inj (Option.some.inj (Except.ok.inj h))
    exact .inl ⟨rfl, hr⟩
  | none =>
    obtain ⟨b, hb, h⟩ := bind_eq_ok_iff.mp h
    split at h
    · next q hq =>
      split at h
      · cases h
      · exact .inr ⟨b, q, block?_of_getBlock hb, hq, h⟩
    · cases h

/-- Blocks are put in front of the path, no more than are allowed. -/
theorem exists_front_of_track? (h : d.track? f state steps (s :: path) = .ok (some (p, v))) :
    ∃ front, p = front ++ s :: path ∧ front.length < steps := by
  induction steps generalizing s path with
  | zero => cases h
  | succ steps ih =>
    rcases track?_cases h with ⟨rfl, -⟩ | ⟨b, q, -, -, h⟩
    · exact ⟨[], rfl, Nat.succ_pos _⟩
    · obtain ⟨front, rfl, hlt⟩ := ih h
      exact ⟨front ++ [q], by simp, by simpa using hlt⟩

/-- **The run began inside the path**: it has made fewer visits than there are blocks in front, and
block 0, which has a single predecessor, stands where it began. -/
structure BeginsInside (f : Func) (p : List Int) (place k : Nat) : Prop where
  /-- Fewer visits than blocks in front of the place that is come to. -/
  lt : k < place
  /-- Block 0 stands where the run began. -/
  entry : p[place - k]? = some 0
  /-- It has a single predecessor. -/
  single : ∃ b q, f.block? 0 = some b ∧ b.preds = [q]

/-- **A tracked value is the value of the state**, but for a run that began inside the tracked
path. -/
theorem read_of_track? (hf : f.Verified) {front : List Int}
    (hv : d.track? f state steps (s :: path) = .ok (some (front ++ s :: path, v)))
    (hr : f.Reaches m₀ 0 k n m s) (hrun : f.Runs (s :: path) m m') :
    m'.read state = v ∨ f.BeginsInside (front ++ s :: path) front.length k := by
  induction steps generalizing s path k n m front with
  | zero => cases hv
  | succ steps ih =>
    rcases track?_cases hv with ⟨-, hw⟩ | ⟨top, q, htop, hq, hv⟩
    · exact .inl (hrun.read_of_stateAfter? hf.toShaped hw)
    · obtain ⟨front', hfront, -⟩ := exists_front_of_track? hv
      obtain rfl : front = front' ++ [q] := by
        have : front ++ s :: path = (front' ++ [q]) ++ s :: path := by simpa using hfront
        exact List.append_cancel_right this
      cases hr with
      | here => exact .inr ⟨by simp, by simp, top, q, htop, hq⟩
      | @goes m₁ _ x _ k₁ n₁ c b hr hb hvis =>
        -- the only predecessor is where the execution came from
        have hx : x = q := by
          have := (hf.mem_preds htop x).mpr (.of_visit hb hvis)
          simpa [hq] using this
        subst hx
        rw [hfront] at hv
        rcases ih hv hr (.goes hb hvis hrun) with h | ⟨hlt, hentry, hsingle⟩
        · exact .inl h
        · refine .inr ⟨by simp; omega, ?_, hsingle⟩
          rw [hfront, List.length_append, List.length_singleton, Nat.add_sub_add_right]
          exact hentry

theorem EnteredOnce.not_beginsInside (h : f.EnteredOnce) (hf : f.Verified) {place : Nat} :
    ¬ f.BeginsInside p place k := by
  rintro ⟨-, -, b, q, hb, hq⟩
  exact h q ((hf.mem_preds hb q).mp (by simp [hq]))

theorem exists_trackOn?_of_stateOn? {cfg : Config}
    (h : d.stateOn? cfg f state (s :: path) = .ok (some v)) :
    ∃ front, d.trackOn? cfg f state (s :: path) = .ok (some (front ++ s :: path, v)) ∧
      front.length < (cfg.maxTrackDepth + 1 - (s :: path).length).toNat := by
  obtain ⟨r, hr, hv⟩ := map_eq_ok_iff.mp h
  obtain ⟨⟨p, w⟩, rfl, rfl⟩ := Option.map_eq_some_iff.mp hv
  obtain ⟨front, rfl, hlt⟩ := exists_front_of_track? hr
  exact ⟨front, hr, hlt⟩

/-- **Where nothing goes back to the entry, a tracked value is the value of the state.** -/
theorem read_of_stateOn? (hf : f.Verified) (h₀ : f.EnteredOnce) {cfg : Config}
    (hv : d.stateOn? cfg f state (s :: path) = .ok (some v))
    (hr : f.Reachable m s) (hrun : f.Runs (s :: path) m m') : m'.read state = v := by
  obtain ⟨m₀, k, n, hr⟩ := hr
  obtain ⟨front, htrack, -⟩ := exists_trackOn?_of_stateOn? hv
  exact (read_of_track? hf htrack hr hrun).resolve_right (h₀.not_beginsInside hf)

/-- **Tracking asks for blocks only**: the predecessors in a verified function are blocks. -/
theorem exists_track? (hf : f.Verified) (d : Region) (state : Var) (steps : Nat)
    (hpath : ∀ x ∈ path, ∃ b, f.block? x = some b) : ∃ r, d.track? f state steps path = .ok r := by
  induction steps generalizing path with
  | zero => exact ⟨none, by rw [Region.track?]⟩
  | succ steps ih =>
    cases path with
    | nil => exact ⟨none, by rw [Region.track?]⟩
    | cons s path =>
      obtain ⟨bs, hbs⟩ := exists_mapM_getBlock hpath
      obtain ⟨b, hb⟩ := hpath s (by simp)
      have hstate : f.stateAfter? (s :: path) state =
          .ok ((bs.foldl (fun e b => b.execBody e) Table.empty).get? state) :=
        map_eq_ok_iff.mpr ⟨bs, hbs, rfl⟩
      rw [Region.track?, hstate]
      cases (bs.foldl (fun e b => b.execBody e) Table.empty).get? state with
      | some v => exact ⟨_, rfl⟩
      | none =>
        simp only [bind, Except.bind, getBlock_of_block? hb]
        split
        · next q hq =>
          split
          · exact ⟨none, rfl⟩
          · refine ih fun x hx => ?_
            rcases List.mem_cons.mp hx with rfl | hx
            · obtain ⟨c, hc, -⟩ := (hf.mem_preds hb x).mp (by simp [hq])
              exact ⟨c, hc⟩
            · exact hpath x hx
        · exact ⟨none, rfl⟩

theorem exists_stateOn? (hf : f.Verified) (cfg : Config) (d : Region) (state : Var)
    (hpath : ∀ x ∈ path, ∃ b, f.block? x = some b) : ∃ r, d.stateOn? cfg f state path = .ok r := by
  obtain ⟨r, hr⟩ := exists_track? hf d state (cfg.maxTrackDepth + 1 - path.length).toNat hpath
  exact ⟨_, map_eq_ok_iff.mpr ⟨r, hr, rfl⟩⟩

/-! ## The entry that is a target -/

/-- **The state that is tracked back from a father is the state at the end of its body**, whatever the
inputs, in every execution that has made as many visits as blocks were put in front of the father.  In
one that has made fewer it is so unless block 0 stands at the place of the path where the execution
began: the tracking goes on from there as if nothing else came to block 0. -/
theorem read_of_stateOn?_father (hv : f.verify = .ok ()) {cfg : Config} {d : Region} {state : Var}
    {v : UInt64} {father : Int} {b : Block} (ht : d.stateOn? cfg f state [father] = .ok (some v))
    {inputs : Env} (hr : f.Reaches { vars := inputs } 0 k n m father)
    (hb : f.block? father = some b) (hm : m.perform b.body = .done m') :
    ∃ front, d.trackOn? cfg f state [father] = .ok (some (front ++ [father], v)) ∧
      (front.length : Int) < cfg.maxTrackDepth ∧
      (m'.read state = v ∨
        k < front.length ∧ (front ++ [father])[front.length - k]? = some 0) := by
  obtain ⟨front, htrack, hlt⟩ := exists_trackOn?_of_stateOn? ht
  refine ⟨front, htrack, by simp at hlt; omega, ?_⟩
  exact (read_of_track? (verify_eq_ok_iff.mp hv) htrack hr (.last hb hm)).imp_right
    fun h => ⟨h.lt, h.entry⟩

/-- A dispatcher that is left on the second round: the first comes to it with the state not set. -/
def looped : Func := function "looped" [
  block 0 [.goto 1],
  branching 1 .jz (reg 1) (lit 5) 2 3,
  block 2 [.ret (reg 2)],
  block 3 [.mov (lit 5) (reg 1), .mov (lit 7) (reg 2),
    .goto 0]]

/-- Tunables that take a single comparison for a dispatcher. -/
def anyComparison : Config :=
  { minInternalBlocks := 1, minExitBlocks := 1, minComparisonValues := 1
    entropyMin := .zero, entropyMax := .one }

/-- The second time it leaves block 0. -/
theorem reaches_looped : looped.Reaches {} 0 3 5
    { vars := Table.ofList [(.reg 1, 5), (.reg 2, 7)] } 0 := by
  have h₁ : looped.Reaches {} 0 1 1 {} 1 := .single rfl rfl
  have h₂ : looped.Reaches {} 1 1 1 {} 3 := .single rfl rfl
  have h₃ : looped.Reaches {} 3 1 3 { vars := Table.ofList [(.reg 1, 5), (.reg 2, 7)] } 0 :=
    .single rfl rfl
  exact (h₁.trans h₂).trans h₃

theorem read_of_stateOn?_father_looped :
    ∃ d ∈ (looped.collect anyComparison).regions,
      d.stateOn? { anyComparison with maxTrackDepth := 2 } looped (.reg 1) [0] = .ok (some 5) ∧
      Machine.read { vars := Table.ofList [(.reg 1, 5), (.reg 2, 7)] } (.reg 1) = 5 := by
  obtain ⟨d, hd, ht⟩ : ∃ d ∈ (looped.collect anyComparison).regions,
      d.stateOn? { anyComparison with maxTrackDepth := 2 } looped (.reg 1) [0] = .ok (some 5) := by
    decide +kernel
  obtain ⟨front, -, hdepth, hread⟩ := read_of_stateOn?_father (by decide) ht reaches_looped rfl rfl
  have hshort : (front.length : Int) < 2 := hdepth
  exact ⟨d, hd, ht, hread.resolve_right fun h => absurd h.1 (by omega)⟩

/-- **The condition is needed**: from block 0, an external father of the region that is collected, the
state is tracked back to 5, and it is 0 when the execution leaves block 0 for the first time. -/
theorem stateOn?_looped_ne : looped.verify = .ok () ∧
    (∃ d ∈ (looped.collect anyComparison).regions, d.state? = some (.reg 1) ∧
      0 ∈ d.externalFathers looped ∧ d.stateOn? anyComparison looped (.reg 1) [0] = .ok (some 5)) ∧
    ∃ b, looped.block? 0 = some b ∧ looped.Reaches {} 0 0 0 {} 0 ∧
      Machine.perform {} b.body = .done {} ∧ Machine.read {} (.reg 1) = 0 :=
  ⟨by decide, by decide +kernel, _, rfl, .here, rfl, rfl⟩

end Func

end Deflatten

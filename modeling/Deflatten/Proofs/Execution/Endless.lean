import Mathlib.Data.Fintype.Pigeonhole
import Deflatten.Proofs.Editing.Shape

/-!
# Proofs/Execution/Endless — when a step limit stops an execution

Only instructions count as steps.  While an execution keeps clear of circles of empty blocks, its
steps bound its visits (`Reaches.visits_le`); once it is on such a circle nothing does
(`Circles.reaches`).  So a limit does its work exactly where no circle is reached within it, and
these are the runs that are not recognized to spin (`Func.stopped_iff_not_spins`).
-/

namespace Deflatten

/-- A run that was recognized to circle through empty blocks for ever. -/
def Ending.Spun (e : Ending) : Prop := ∃ fn blk, e.error? = some (.spins fn blk)

namespace Func

variable {f : Func} {m m' m₁ m₀ : Machine} {s s' s₁ s₀ t r : Int} {i j k n c left limit : Nat}
  {b : Block}

/-! ## Slides in a row -/

theorem Slides.trans (h : f.Slides r i s) (h' : f.Slides t j r) : f.Slides t (i + j) s := by
  induction h with
  | here => simpa using h'
  | goes hb he hn _ ih =>
    rw [Nat.add_right_comm]
    exact .goes hb he hn ih

/-- Of two slides from one block the longer goes on where the shorter ends. -/
theorem Slides.rest (h : f.Slides r i s) (h' : f.Slides t (i + j) s) : f.Slides t j r := by
  induction h with
  | here => simpa using h'
  | goes hb _ _ _ ih =>
    rw [Nat.add_right_comm] at h'
    cases h' with
    | goes hb' _ _ rest' =>
      obtain rfl := Option.mem_unique hb hb'
      exact ih rest'

theorem Slides.exists_take (h : f.Slides t (i + j) s) : ∃ r, f.Slides r i s := by
  induction i generalizing s with
  | zero => exact ⟨s, .here⟩
  | succ i ih =>
    rw [Nat.add_right_comm] at h
    cases h with
    | goes hb he hn rest =>
      obtain ⟨r, hr⟩ := ih rest
      exact ⟨r, .goes hb he hn hr⟩

/-! ## Circles -/

/-- **Empty blocks, one at least, lead from `s` back to it.** -/
def Circles (f : Func) (s : Int) : Prop := ∃ j, f.Slides s (j + 1) s

/-- A block on a circle is empty and leads on along the circle. -/
theorem Circles.exists_next (h : f.Circles s) :
    ∃ b, f.block? s = some b ∧ b.insns = [] ∧ b.next ≠ noBlock ∧ f.Circles b.next := by
  obtain ⟨j, h⟩ := h
  cases h with
  | goes hb he hn rest => exact ⟨_, hb, he, hn, j, rest.trans (.goes hb he hn .here)⟩

theorem Circles.insns_eq_nil (h : f.Circles s) (hb : f.block? s = some b) : b.insns = [] := by
  obtain ⟨b', hb', he, -⟩ := h.exists_next
  exact Option.mem_unique hb' hb ▸ he

/-- **A circle is gone along for any number of visits**, without a step. -/
theorem Circles.reaches (h : f.Circles s) (m : Machine) (k : Nat) :
    ∃ s', f.Reaches m s k 0 m s' ∧ f.Circles s' := by
  induction k with
  | zero => exact ⟨s, .here, h⟩
  | succ k ih =>
    obtain ⟨s', hr, hc⟩ := ih
    obtain ⟨b, hb, he, hn, hc'⟩ := hc.exists_next
    exact ⟨b.next, hr.goes hb (visit_of_empty he hn m), hc'⟩

/-- **A slide longer than the function comes to a circle.** -/
theorem Slides.exists_circles (h : f.Slides t k s) (hk : f.blocks.length < k) :
    ∃ r i, f.Slides r i s ∧ f.Circles r := by
  have hpass : ∀ i : Fin k, ∃ x : Fin f.blocks.length, f.Slides x i s := by
    intro i
    have hk : (i : Nat) + (k - i - 1 + 1) = k := by omega
    obtain ⟨r, hr⟩ := Slides.exists_take (hk ▸ h)
    obtain ⟨b, hb⟩ : ∃ b, f.block? r = some b := by
      cases hr.rest (hk ▸ h) with
      | goes hb _ _ _ => exact ⟨_, hb⟩
    obtain ⟨h₀, h₁⟩ := lt_of_block? hb
    exact ⟨⟨r.toNat, by omega⟩, by simpa [h₀] using hr⟩
  choose pass hpass using hpass
  obtain ⟨i, j, hne, heq⟩ := Fintype.exists_ne_map_eq_of_card_lt pass (by simpa using hk)
  -- of the two numbers of blocks passed at one place, the difference is a way round
  have round : ∀ {i j : Fin k}, i < j → pass i = pass j → f.Circles (pass i) := by
    intro i j hlt heq
    have hj : (i : Nat) + (j - i - 1 + 1) = j := by omega
    exact ⟨_, (hpass i).rest (hj ▸ heq ▸ hpass j)⟩
  rcases Nat.lt_or_gt_of_ne (Fin.val_ne_of_ne hne) with hlt | hlt
  · exact ⟨_, i, hpass i, round hlt heq⟩
  · exact ⟨_, j, hpass j, round hlt heq.symm⟩

/-! ## Executions that come to a circle -/

/-- **An execution comes to a circle of empty blocks** within so many steps. -/
def Spins (f : Func) (m : Machine) (s : Int) (steps : Nat) : Prop :=
  ∃ k n m' s', f.Reaches m s k n m' s' ∧ n ≤ steps ∧ f.Circles s'

theorem not_spins_of_stops {o : Halt} (hb : f.block? s = some b) (hv : b.visit m = .stops m' n o) :
    ¬ f.Spins m s left := by
  rintro ⟨k, n', m₁, s₁, hr, -, hc⟩
  cases k with
  | zero =>
    cases hr
    obtain ⟨b', hb', he, hn, -⟩ := hc.exists_next
    obtain rfl := Option.mem_unique hb hb'
    cases hv.symm.trans (visit_of_empty he hn m)
  | succ k =>
    obtain ⟨b', c, _, _, _, hb', hv', -⟩ := hr.head
    obtain rfl := Option.mem_unique hb hb'
    cases hv.symm.trans hv'

/-- An execution spins as it does from where a visit leads. -/
theorem spins_iff_of_goes (hb : f.block? s = some b) (hv : b.visit m = .goes m₁ c s₁) :
    f.Spins m s left ↔ c ≤ left ∧ f.Spins m₁ s₁ (left - c) := by
  constructor
  · rintro ⟨k, n, m', s', hr, hn, hc⟩
    cases k with
    | zero =>
      cases hr
      obtain ⟨b', hb', he, hnb, hc'⟩ := hc.exists_next
      obtain rfl := Option.mem_unique hb hb'
      obtain ⟨rfl, rfl, rfl⟩ := Visit.goes.inj (hv.symm.trans (visit_of_empty he hnb m))
      exact ⟨Nat.zero_le _, 0, 0, _, _, .here, Nat.zero_le _, hc'⟩
    | succ k =>
      obtain ⟨b', c', n', m₂, s₂, hb', hv', rfl, hr'⟩ := hr.head
      obtain rfl := Option.mem_unique hb hb'
      obtain ⟨rfl, rfl, rfl⟩ := Visit.goes.inj (hv.symm.trans hv')
      exact ⟨by omega, k, n', m', s', hr', by omega, hc⟩
  · rintro ⟨hle, k, n, m', s', hr, hn, hc⟩
    exact ⟨1 + k, c + n, m', s', (Reaches.single hb hv).trans hr, by omega, hc⟩

/-- A slide keeps whether an execution spins. -/
theorem Slides.spins_iff (h : f.Slides t k s) : f.Spins m s left ↔ f.Spins m t left := by
  induction h with
  | here => rfl
  | goes hb he hn _ ih =>
    rw [spins_iff_of_goes hb (visit_of_empty he hn m)]
    simpa using ih

/-- **Steps bound visits** in an execution that comes to no circle. -/
theorem Reaches.visits_le (hfree : ¬ f.Spins m₀ s₀ limit) (h : f.Reaches m₀ s₀ k n m s)
    (hn : n ≤ limit) : k ≤ (n + 1) * (f.blocks.length + 1) := by
  -- the last `j` visits were to empty blocks, and such a slide is no longer than the function
  have key : n ≤ limit → ∃ k' r j, f.Reaches m₀ s₀ k' n m r ∧ f.Slides s j r ∧
      j ≤ f.blocks.length ∧ k ≤ n * (f.blocks.length + 1) + j := by
    clear hn
    induction h with
    | here => exact fun _ => ⟨0, s₀, 0, .here, .here, Nat.zero_le _, Nat.zero_le _⟩
    | @goes m m' s s' k n c b hr hb hv ih =>
      intro hn
      obtain ⟨k', r, j, hr', hsl, hj, hk⟩ := ih (by omega)
      obtain ⟨-, -, hs', rfl⟩ := Block.visit_eq_goes.mp hv
      cases hi : b.insns with
      | nil =>
        have hnb : b.next ≠ noBlock := fun hnb => by
          cases hv.symm.trans (visit_of_empty_last hi hnb m)
        obtain ⟨rfl, -, rfl⟩ := Visit.goes.inj (hv.symm.trans (visit_of_empty hi hnb m))
        have hsl' := hsl.trans (.goes hb hi hnb .here)
        refine ⟨k', r, j + 1, hr', hsl', ?_, by simp; omega⟩
        by_contra hlong
        obtain ⟨r', i, hr'', hc⟩ := hsl'.exists_circles (Nat.lt_of_not_le hlong)
        exact hfree ⟨_, n + 0, _, r', hr'.trans (hr''.reaches _), by omega, hc⟩
      | cons i is =>
        refine ⟨k + 1, s', 0, ?_, .here, Nat.zero_le _, ?_⟩
        · simpa [hi] using hr.goes hb hv
        · calc k + 1 ≤ n * (f.blocks.length + 1) + (f.blocks.length + 1) := by omega
            _ = (n + 1) * (f.blocks.length + 1) := (Nat.succ_mul ..).symm
            _ ≤ (n + (i :: is).length) * (f.blocks.length + 1) + 0 :=
              Nat.mul_le_mul_right _ (by simp)
  obtain ⟨-, -, j, -, -, hj, hk⟩ := key hn
  rw [Nat.succ_mul]
  omega

/-! ## Runs that spin -/

/-- In a shaped function an empty block that leads to none leads nowhere: control stays inside. -/
theorem Shaped.eq_noBlock_of_follow (hf : f.Shaped) {e : FlowError} (hb : f.block? s = some b)
    (he : b.insns = []) (hfol : f.follow s b.next = .error e) : b.next = noBlock := by
  by_contra hn
  obtain ⟨b', hb'⟩ := hf.exists_of_edge (Edge.of_visit hb (visit_of_empty he hn default))
  cases hfol.symm.trans (follow_eq_ok.mpr ⟨hn, hb'⟩)

/-- A run that skips without end or off the function has that error. -/
theorem runFrom_of_skipEmpty {e : RunError} (h : f.skipEmpty f.blocks.length s b = .error e)
    (limit : Int) (left : Nat) (m : Machine) : f.runFrom limit left m s b =
      ⟨{ calls := m.calls, steps := limit.toNat - left }, some e⟩ := by
  rw [runFrom]
  simp only [h]

/-- **A run is recognized to spin exactly if the execution comes to a circle** within the steps
left. -/
theorem spun_runFrom_iff (hf : f.Shaped) (limit : Int) (hb : f.block? s = some b) :
    (f.runFrom limit left m s b).Spun ↔ f.Spins m s left := by
  induction left using Nat.strongRecOn generalizing m s b with
  | ind left ih =>
    cases hskip : f.skipEmpty f.blocks.length s b with
    | error e =>
      have hrun : (f.runFrom limit left m s b).error? = some e := by
        rw [runFrom_of_skipEmpty hskip]
      obtain ⟨e, t, k, b', rfl, hsl, hb', he, hfol⟩ | ⟨blk, t, rfl, hsl⟩ := skipEmpty_eq_error hb hskip
      · have hn := hf.eq_noBlock_of_follow hb' he hfol
        rw [hsl.spins_iff]
        refine iff_of_false ?_ (not_spins_of_stops hb' (visit_of_empty_last he hn m))
        rintro ⟨fn, blk, h⟩
        cases hrun.symm.trans h
      · obtain ⟨r, i, hr, hc⟩ := hsl.exists_circles (Nat.lt_succ_self _)
        exact iff_of_true ⟨f.name, blk, hrun⟩ ⟨i, 0, m, r, hr.reaches m, Nat.zero_le _, hc⟩
    | ok r =>
      obtain ⟨j, b', hsl, hb', hi, -⟩ := skipEmpty_eq_ok hb hskip
      have ht : f.Rests r.cur := fun b₁ hb₁ he => by
        obtain rfl := Option.mem_unique hb' hb₁
        cases hi.symm.trans he
      have hplain := (hf.fits hb').plain
      rw [runFrom_eq_conclude hsl ht hb hb' hi, hsl.spins_iff]
      by_cases hl : (b'.visit m).steps ≤ left
      · rw [Machine.pass_eq_within hplain hl]
        cases hv : b'.visit m with
        | stops m₁ n₁ o₁ =>
          refine iff_of_false ?_ (not_spins_of_stops hb' hv)
          rintro ⟨fn, blk, h⟩
          cases o₁ <;> simp [Visit.within, conclude, follow] at h
        | goes m₁ c s₁ =>
          obtain ⟨-, -, hs₁, hc⟩ := Block.visit_eq_goes.mp hv
          obtain ⟨b₁, hb₁⟩ := hf.exists_of_edge (Edge.of_visit hb' hv)
          have hpos : 0 < c := by simp [hc, hi]
          have hle : c ≤ left := by simpa [hv, Visit.steps] using hl
          simp only [Visit.within, conclude, follow_eq_ok.mpr ⟨hs₁, hb₁⟩]
          rw [ih (left - c) (by omega) hb₁, spins_iff_of_goes hb' hv]
          simp [hle]
      · obtain ⟨m', hx⟩ := Machine.pass_exhausted hplain (Nat.lt_of_not_le hl)
        rw [hx]
        refine iff_of_false ?_ fun hspins => ?_
        · rintro ⟨fn, blk, h⟩
          simp [conclude] at h
        · cases hv : b'.visit m with
          | stops m₁ n₁ o₁ => exact not_spins_of_stops hb' hv hspins
          | goes m₁ c s₁ =>
            have := ((spins_iff_of_goes hb' hv).mp hspins).1
            simp only [hv, Visit.steps] at hl
            omega

theorem spun_run_iff (hf : f.Shaped) {inputs : Env} {limit : Int} :
    (∃ e, f.run inputs limit = .ok e ∧ e.Spun) ↔ f.Spins { vars := inputs } 0 limit.toNat := by
  cases hb : f.block? 0 with
  | some b => simp [run_of_block? hb, spun_runFrom_iff hf limit hb]
  | none =>
    refine iff_of_false (by simp [run, hb]) ?_
    rintro ⟨k, n, m, s, hr, -, hc⟩
    cases k with
    | zero =>
      cases hr
      obtain ⟨b, hb', -⟩ := hc.exists_next
      cases hb.symm.trans hb'
    | succ k =>
      obtain ⟨b, _, _, _, _, hb', -⟩ := hr.head
      cases hb.symm.trans hb'

/-- Empty blocks lead from `s` to a circle of them. -/
def Drifts (f : Func) (s : Int) : Prop := ∃ r i, f.Slides r i s ∧ f.Circles r

theorem Drifts.exists_next (h : f.Drifts s) :
    ∃ b, f.block? s = some b ∧ b.insns = [] ∧ b.next ≠ noBlock ∧ f.Drifts b.next := by
  obtain ⟨r, i, hsl, hc⟩ := h
  cases hsl with
  | here =>
    obtain ⟨b, hb, he, hn, hc'⟩ := hc.exists_next
    exact ⟨b, hb, he, hn, _, 0, .here, hc'⟩
  | goes hb he hn rest => exact ⟨_, hb, he, hn, r, _, rest, hc⟩

/-- **Skipping gives up on the way to a circle**, however patient it is. -/
theorem Drifts.skipEmpty (h : f.Drifts s) (hb : f.block? s = some b) (patience : Nat) :
    ∃ blk, f.skipEmpty patience s b = .error (.spins f.name blk) := by
  induction patience generalizing s b with
  | zero =>
    obtain ⟨b₁, hb₁, he, hn, hnext⟩ := h.exists_next
    obtain rfl := Option.mem_unique hb₁ hb
    obtain ⟨b₂, hb₂, -⟩ := hnext.exists_next
    exact ⟨s, by simp [Func.skipEmpty, he, follow_eq_ok.mpr ⟨hn, hb₂⟩]⟩
  | succ patience ih =>
    obtain ⟨b₁, hb₁, he, hn, hnext⟩ := h.exists_next
    obtain rfl := Option.mem_unique hb₁ hb
    obtain ⟨b₂, hb₂, -⟩ := hnext.exists_next
    obtain ⟨blk, hblk⟩ := ih hnext hb₂
    exact ⟨blk, by rw [Func.skipEmpty]; simp only [he, follow_eq_ok.mpr ⟨hn, hb₂⟩, hblk]⟩

theorem Drifts.runFrom (h : f.Drifts s) (hb : f.block? s = some b) (limit : Int) (left : Nat)
    (m : Machine) : ∃ blk, f.runFrom limit left m s b =
      ⟨{ calls := m.calls, steps := limit.toNat - left }, some (.spins f.name blk)⟩ := by
  obtain ⟨blk, hblk⟩ := h.skipEmpty hb f.blocks.length
  exact ⟨blk, runFrom_of_skipEmpty hblk limit left m⟩

/-! ## Step limits -/

/-- **An execution goes on for ever.** -/
def Endless (f : Func) (m : Machine) (s : Int) : Prop := ∀ k, ∃ n m' s', f.Reaches m s k n m' s'

/-- **A step limit does its work** on a function with the given variables set. -/
structure Stopped (f : Func) (inputs : Env) (limit : Int) : Prop where
  /-- Within the limit there are finitely many visits. -/
  finite : ∃ bound, ∀ ⦃k n m s⦄, f.Reaches { vars := inputs } 0 k n m s → n ≤ limit.toNat →
    k ≤ bound
  /-- The run ends, with an error or without. -/
  ends : ∀ e, f.run inputs limit = .ok e → ¬ e.Spun
  /-- An execution that goes on for ever ends at the limit. -/
  cut : f.Endless { vars := inputs } 0 →
    ∃ e blk, f.run inputs limit = .ok e ∧ e.error? = some (.stepLimit limit f.name blk)

/-- A circle that is reached within the limit is gone round for ever. -/
theorem Spins.unbounded (h : f.Spins m s limit) (bound : Nat) :
    ∃ k n m' s', bound < k ∧ n ≤ limit ∧ f.Reaches m s k n m' s' := by
  obtain ⟨k, n, m', s', hr, hn, hc⟩ := h
  obtain ⟨s₁, hr', -⟩ := hc.reaches m' (bound + 1)
  exact ⟨k + (bound + 1), n + 0, m', s₁, by omega, by omega, hr.trans hr'⟩

/-- An execution with more visits than the limit allows is cut short. -/
theorem cut_of_reaches (hf : f.Shaped) {inputs : Env} {limit : Int}
    (hr : f.Reaches { vars := inputs } 0 k n m s) (hn : limit.toNat < n) :
    ∃ e blk, f.run inputs limit = .ok e ∧ e.error? = some (.stepLimit limit f.name blk) := by
  obtain ⟨b, hb⟩ : ∃ b, f.block? 0 = some b := by
    cases k with
    | zero => cases hr; omega
    | succ k =>
      obtain ⟨b, _, _, _, _, hb, -⟩ := hr.head
      exact ⟨b, hb⟩
  obtain ⟨blk, hblk⟩ : ∃ blk, (f.runFrom limit limit.toNat { vars := inputs } 0 b).error? =
      some (.stepLimit limit f.name blk) := runFrom_of_reaches hf.endsLast hr hn hb
  exact ⟨_, blk, run_of_block? hb, hblk⟩

/-- **A step limit does its work exactly where no circle of empty blocks is reached within it.** -/
theorem stopped_iff_not_spins (hf : f.verify = .ok ()) (inputs : Env) (limit : Int) :
    f.Stopped inputs limit ↔ ¬ f.Spins { vars := inputs } 0 limit.toNat := by
  have hshaped := (verify_eq_ok_iff.mp hf).toShaped
  constructor
  · rintro ⟨⟨bound, hbound⟩, -, -⟩ hspins
    obtain ⟨k, n, m, s, hk, hn, hr⟩ := hspins.unbounded bound
    exact absurd (hbound hr hn) (Nat.not_le_of_lt hk)
  · intro hfree
    have hbound : ∀ ⦃k n m s⦄, f.Reaches { vars := inputs } 0 k n m s → n ≤ limit.toNat →
        k ≤ (limit.toNat + 1) * (f.blocks.length + 1) := fun k n m s hr hn =>
      (hr.visits_le hfree hn).trans (Nat.mul_le_mul_right _ (by omega))
    refine ⟨⟨_, hbound⟩, fun e he hspun => hfree ((spun_run_iff hshaped).mp ⟨e, he, hspun⟩), ?_⟩
    intro hendless
    obtain ⟨n, m, s, hr⟩ := hendless ((limit.toNat + 1) * (f.blocks.length + 1) + 1)
    refine cut_of_reaches hshaped hr (Nat.lt_of_not_le fun hn => ?_)
    exact absurd (hbound hr hn) (by omega)

/-- Goes round by an empty block and a jump. -/
def ticking : Func :=
  { name := "ticking"
    body := some [
      { serial := 0, code := some [], next := 1, preds := [1], succs := [1] },
      { serial := 1, code := some [.goto 0], next := noBlock, preds := [0], succs := [0] }] }

theorem not_circles_ticking (s : Int) : ¬ ticking.Circles s := by
  have h₁ : ¬ ticking.Circles 1 := fun h₁ => nomatch h₁.insns_eq_nil rfl
  intro h
  obtain ⟨b, hb, -, -, hnext⟩ := h.exists_next
  have hs : 0 ≤ s ∧ s < 2 := lt_of_block? hb
  obtain rfl | rfl : s = 0 ∨ s = 1 := by omega
  · obtain rfl := Option.some.inj hb
    exact h₁ hnext
  · exact h₁ h

theorem stopped_ticking : ticking.verify = .ok () ∧ ticking.Stopped {} 3 :=
  ⟨rfl, (stopped_iff_not_spins rfl {} 3).mpr fun ⟨_, _, _, s, _, _, hc⟩ => not_circles_ticking s hc⟩

/-- Goes round by an empty block alone. -/
def idle : Func :=
  { name := "idle", body := some [{ serial := 0, code := some [], preds := [0], succs := [0] }] }

/-- **A limit does not stop an idle function**: it goes on for ever, and its run is not cut
short. -/
theorem not_stopped_idle : idle.verify = .ok () ∧ idle.Endless {} 0 ∧ ¬ idle.Stopped {} 10 ∧
    idle.run {} 10 = .ok ⟨{}, some (.spins "idle" 0)⟩ := by
  have hc : idle.Circles 0 := ⟨0, .goes rfl rfl (by decide) .here⟩
  refine ⟨rfl, fun k => ?_, ?_, ?_⟩
  · obtain ⟨s, hr, -⟩ := hc.reaches {} k
    exact ⟨0, {}, s, hr⟩
  · rintro ⟨⟨bound, hbound⟩, -, -⟩
    obtain ⟨s, hr, -⟩ := hc.reaches {} (bound + 1)
    exact absurd (hbound hr (Nat.zero_le _)) (by omega)
  · rw [run_of_block? rfl, runFrom]
    rfl

end Func

end Deflatten

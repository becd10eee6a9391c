import Deflatten.Proofs.Execution.Halting

/-!
# Proofs/Execution/Adequacy — `Func.run` computes the ending

`run_of_endsWithin` and `endsWithin_of_run` say that a run under a limit ends of itself exactly when
the execution does within that limit, and with the same trace; `runFrom_of_reaches` that it is cut
short when the execution gets past the limit.

Empty blocks take no steps, and a run recognizes that it circles through them by having passed as
many as there are.  `Slides.le_length` is why it never gives up too early: a slide through empty
blocks that comes to something else never meets a block twice.
-/

namespace Deflatten

/-- How a run ended, if it did of itself. -/
def Ending.halt? (e : Ending) : Option Halt :=
  match e.error? with
  | none => some (.returned e.trace.ret)
  | some (.undefined ..) => some .undefined
  | some (.flow (.fallsOff ..)) => some .fellOff
  | some _ => none

theorem Ending.halt?_eq_returned {e : Ending} {v : UInt64} :
    e.halt? = some (.returned v) ↔ e.error? = none ∧ e.trace.ret = v := by
  unfold halt?
  split <;> simp_all

theorem Ending.halt?_eq_undefined {e : Ending} :
    e.halt? = some .undefined ↔ ∃ fn blk, e.error? = some (.undefined fn blk) := by
  unfold halt?
  split <;> simp_all

namespace Func

variable {f : Func} {m m' : Machine} {s s' t : Int} {j k n left : Nat} {o : Halt}
  {cs : List CallEvent} {b b' : Block} {inputs : Env} {limit : Int} {e : Ending} {patience : Nat}

/-- Jumps and returns stand last in their blocks. -/
def EndsLast (f : Func) : Prop := ∀ b ∈ f.blocks, Plain b.body

theorem mem_of_block? (h : f.block? s = some b) : b ∈ f.blocks := by
  unfold block? at h
  split at h
  · exact List.mem_of_getElem? h
  · cases h

theorem lt_of_block? (h : f.block? s = some b) : 0 ≤ s ∧ s < f.blocks.length := by
  unfold block? at h
  split at h
  · have := (List.getElem?_eq_some_iff.mp h).1
    omega
  · cases h

/-! ## Sliding through empty blocks -/

/-- So many empty blocks lead from `s` to `t`. -/
inductive Slides (f : Func) (t : Int) : Nat → Int → Prop
  | here : Slides f t 0 t
  | goes {s : Int} {k : Nat} {b : Block} (hb : f.block? s = some b) (he : b.insns = [])
      (hn : b.next ≠ noBlock) (rest : Slides f t k b.next) : Slides f t (k + 1) s

/-- The block at `t` does not lead on without a step. -/
def Rests (f : Func) (t : Int) : Prop :=
  ∀ b, f.block? t = some b → b.insns = [] → b.next = noBlock

theorem Slides.unique (ht : f.Rests t) (h : f.Slides t k s) (h' : f.Slides t j s) : k = j := by
  induction h generalizing j with
  | here =>
    cases h' with
    | here => rfl
    | goes hb he hn _ => exact absurd (ht _ hb he) hn
  | goes hb he hn _ ih =>
    cases h' with
    | here => exact absurd (ht _ hb he) hn
    | goes hb' _ _ rest' =>
      obtain rfl := Option.mem_unique hb hb'
      exact congrArg (· + 1) (ih rest')

/-- **A slide that comes to rest meets no block twice**, so it is no longer than the function. -/
theorem Slides.le_length (ht : f.Rests t) (h : f.Slides t k s) : k ≤ f.blocks.length := by
  -- `seen` are the blocks passed before, each with more of the slide in front of it
  have key : ∀ {k s} (_ : f.Slides t k s) (seen : List Int), seen.Nodup →
      (∀ x ∈ seen, (∃ b, f.block? x = some b) ∧ ∃ j, k < j ∧ f.Slides t j x) →
      k + seen.length ≤ f.blocks.length := by
    intro k s h
    induction h with
    | here =>
      intro seen hnd hseen
      have hsub : seen ⊆ (List.range f.blocks.length).map Int.ofNat := fun x hx => by
        obtain ⟨⟨b, hb⟩, -⟩ := hseen x hx
        obtain ⟨h0, hlt⟩ := lt_of_block? hb
        exact List.mem_map.mpr ⟨x.toNat, by simp; omega, by simp; omega⟩
      simpa using hnd.length_le_of_subset hsub
    | @goes s k b hb he hn rest ih =>
      intro seen hnd hseen
      have hslide := Slides.goes hb he hn rest
      have hfresh : s ∉ seen := fun hs => by
        obtain ⟨-, j, hj, hsl⟩ := hseen s hs
        exact absurd (hslide.unique ht hsl) (by omega)
      have := ih (s :: seen) (List.nodup_cons.mpr ⟨hfresh, hnd⟩) (by
        intro x hx
        rcases List.mem_cons.mp hx with rfl | hx
        · exact ⟨⟨b, hb⟩, k + 1, by omega, hslide⟩
        · obtain ⟨hbx, j, hj, hsl⟩ := hseen x hx
          exact ⟨hbx, j, by omega, hsl⟩)
      simp only [List.length_cons] at this
      omega
  simpa using key h [] List.nodup_nil (by simp)

theorem visit_of_empty (he : b.insns = []) (hn : b.next ≠ noBlock) (m : Machine) :
    b.visit m = .goes m 0 b.next := by
  have ht : b.terminator? = none := by simp [Block.terminator?, Block.tail?, he]
  have hbody : b.body = [] := by rw [Block.body_eq_insns ht, he]
  exact Block.visit_eq_goes.mpr ⟨by rw [hbody]; rfl, by simp [Block.leave, ht], hn, by rw [he]; rfl⟩

theorem visit_of_empty_last (he : b.insns = []) (hn : b.next = noBlock) (m : Machine) :
    b.visit m = .stops m 0 .fellOff := by
  have ht : b.terminator? = none := by simp [Block.terminator?, Block.tail?, he]
  have hbody : b.body = [] := by rw [Block.body_eq_insns ht, he]
  simp [Block.visit, Block.leave, hbody, ht, hn, he]

theorem Slides.reaches (h : f.Slides t k s) (m : Machine) : f.Reaches m s k 0 m t := by
  induction h with
  | here => exact .here
  | goes hb he hn _ ih =>
    have := (Reaches.single hb (visit_of_empty he hn m)).trans ih
    rwa [Nat.add_comm 1, Nat.zero_add] at this

theorem follow_eq_ok {cur next : Int} :
    f.follow cur next = .ok b ↔ next ≠ noBlock ∧ f.block? next = some b := by
  unfold follow
  split
  · simp_all
  · split <;> simp_all

theorem eq_noBlock_of_follow {cur next blk : Int} {fn : String}
    (h : f.follow cur next = .error (.fallsOff fn blk)) : next = noBlock := by
  unfold follow at h
  split at h
  · assumption
  · split at h <;> cases h

/-- Skipping follows a slide as far as the patience goes. -/
theorem skipEmpty_of_slides (h : f.Slides t k s) (hb : f.block? s = some b)
    (hb' : f.block? t = some b') {patience : Nat} (hk : k ≤ patience) :
    f.skipEmpty patience s b = f.skipEmpty (patience - k) t b' := by
  induction h generalizing b patience with
  | here =>
    obtain rfl := Option.mem_unique hb hb'
    rfl
  | @goes s k b₁ hb₁ he hn rest ih =>
    obtain rfl := Option.mem_unique hb hb₁
    obtain ⟨patience, rfl⟩ : ∃ p, patience = p + 1 := ⟨patience - 1, by omega⟩
    obtain ⟨b₂, hb₂⟩ : ∃ b₂, f.block? b.next = some b₂ := by
      cases rest with
      | here => exact ⟨b', hb'⟩
      | goes hb₂ _ _ _ => exact ⟨_, hb₂⟩
    rw [skipEmpty]
    simp only [he, follow_eq_ok.mpr ⟨hn, hb₂⟩]
    rw [ih hb₂ (by omega), Nat.add_sub_add_right]

/-- **What skipping does**: it comes to a block with instructions, by a slide. -/
theorem skipEmpty_eq_ok {r : Ready} (hb : f.block? s = some b)
    (h : f.skipEmpty patience s b = .ok r) :
    ∃ k b', f.Slides r.cur k s ∧ f.block? r.cur = some b' ∧
      b'.insns = r.first :: r.rest ∧ b'.next = r.next := by
  fun_induction skipEmpty f patience s b with
  | case1 patience s b i is hi =>
    obtain rfl := Except.ok.inj h
    exact ⟨0, b, .here, hb, hi, rfl⟩
  | case2 => cases h
  | case3 => cases h
  | case4 s b he b₁ hfol patience ih =>
    obtain ⟨hn, hb₁⟩ := follow_eq_ok.mp hfol
    obtain ⟨k, b', hsl, hb', hi, hx⟩ := ih hb₁ h
    exact ⟨k + 1, b', .goes hb he hn hsl, hb', hi, hx⟩

/-- **How skipping fails**: a slide comes to an empty block that leads to none, or goes on for longer
than patience does. -/
theorem skipEmpty_eq_error {patience : Nat} {e : RunError} (hb : f.block? s = some b)
    (h : f.skipEmpty patience s b = .error e) :
    (∃ e' t k b', e = .flow e' ∧ f.Slides t k s ∧ f.block? t = some b' ∧ b'.insns = [] ∧
        f.follow t b'.next = .error e') ∨
      ∃ blk t, e = .spins f.name blk ∧ f.Slides t (patience + 1) s := by
  fun_induction skipEmpty f patience s b with
  | case1 => cases h
  | case2 patience s b he e' hfol =>
    exact .inl ⟨e', s, 0, b, (Except.error.inj h).symm, .here, hb, he, hfol⟩
  | case3 s b he b₁ hfol =>
    obtain ⟨hn, -⟩ := follow_eq_ok.mp hfol
    exact .inr ⟨s, b.next, (Except.error.inj h).symm, .goes hb he hn .here⟩
  | case4 s b he b₁ hfol patience ih =>
    obtain ⟨hn, hb₁⟩ := follow_eq_ok.mp hfol
    obtain ⟨e', t, k, b', rfl, hsl, hrest⟩ | ⟨blk, t, rfl, hsl⟩ := ih hb₁ h
    · exact .inl ⟨e', t, k + 1, b', rfl, .goes hb he hn hsl, hrest⟩
    · exact .inr ⟨blk, t, rfl, .goes hb he hn hsl⟩

/-! ## Where executions come to rest -/

theorem rests_or_empty (hb : f.block? s = some b) :
    f.Rests s ∨ b.insns = [] ∧ b.next ≠ noBlock := by
  by_cases he : b.insns = [] ∧ b.next ≠ noBlock
  · exact .inr he
  · refine .inl fun b' hb' he' => ?_
    obtain rfl := Option.mem_unique hb hb'
    by_contra hn
    exact he ⟨he', hn⟩

/-- **An execution that ends slides to a block and ends from there.** -/
theorem HaltsIn.exists_slide (h : f.HaltsIn k m s n o cs) :
    ∃ j k' t, k = j + k' ∧ f.Slides t j s ∧ f.Rests t ∧ f.HaltsIn k' m t n o cs := by
  induction h with
  | @stops m m' s n o b hb hv =>
    rcases rests_or_empty hb with ht | ⟨he, hn⟩
    · exact ⟨0, 1, s, rfl, .here, ht, .stops hb hv⟩
    · cases hv.symm.trans (visit_of_empty he hn m)
  | @goes m m' s s' k c n o cs b hb hv rest ih =>
    rcases rests_or_empty hb with ht | ⟨he, hn⟩
    · exact ⟨0, k + 1, s, by omega, .here, ht, .goes hb hv rest⟩
    · obtain ⟨rfl, rfl, rfl⟩ := Visit.goes.inj (hv.symm.trans (visit_of_empty he hn m))
      obtain ⟨j, k', t, rfl, hsl, ht, hh⟩ := ih
      exact ⟨j + 1, k', t, by omega, .goes hb he hn hsl, ht, by simpa using hh⟩

/-- The first of several visits. -/
theorem Reaches.head {n' : Nat} (h : f.Reaches m s (k + 1) n' m' s') :
    ∃ b c n m₁ s₁, f.block? s = some b ∧ b.visit m = .goes m₁ c s₁ ∧ n' = c + n ∧
      f.Reaches m₁ s₁ k n m' s' := by
  induction k generalizing n' m' s' with
  | zero =>
    cases h with
    | goes h hb hv =>
      cases h with
      | here => exact ⟨_, _, 0, _, _, hb, hv, by omega, .here⟩
  | succ k ih =>
    cases h with
    | goes h hb hv =>
      obtain ⟨b, c, n, m₁, s₁, hb₁, hv₁, rfl, hr⟩ := ih h
      exact ⟨b, c, _, m₁, s₁, hb₁, hv₁, Nat.add_assoc .., hr.goes hb hv⟩

/-- An execution that takes steps slides to a block with instructions and goes on from there. -/
theorem Reaches.exists_slide (h : f.Reaches m s k n m' s') (hn : 0 < n) :
    ∃ j k' t, k = j + k' ∧ f.Slides t j s ∧ f.Rests t ∧ f.Reaches m t k' n m' s' := by
  induction k generalizing s n with
  | zero => cases h; omega
  | succ k ih =>
    obtain ⟨b, c, n₁, m₁, s₁, hb, hv, rfl, hr⟩ := h.head
    rcases rests_or_empty hb with ht | ⟨he, hnb⟩
    · exact ⟨0, k + 1, s, by omega, .here, ht, h⟩
    · obtain ⟨rfl, rfl, rfl⟩ := Visit.goes.inj (hv.symm.trans (visit_of_empty he hnb m))
      obtain ⟨j, k', t, rfl, hsl, ht, hh⟩ := ih hr (by omega)
      exact ⟨j + 1, k', t, by omega, .goes hb he hnb hsl, ht, by simpa using hh⟩

/-! ## Runs -/

/-- A block with instructions is ready at once. -/
theorem skipEmpty_of_insns {i : Insn} {is : List Insn} (h : b.insns = i :: is) :
    f.skipEmpty patience s b = .ok ⟨s, i, is, b.next⟩ := by
  unfold skipEmpty
  simp [h]

/-- Skipping as long as the function is comes to rest where the slide does. -/
theorem skipEmpty_of_rests (hsl : f.Slides t j s) (ht : f.Rests t) (hb : f.block? s = some b)
    (hb' : f.block? t = some b') :
    f.skipEmpty f.blocks.length s b = f.skipEmpty (f.blocks.length - j) t b' :=
  skipEmpty_of_slides hsl hb hb' (hsl.le_length ht)

/-- What a run does after a passage through the block at `cur`. -/
def conclude (f : Func) (limit : Int) (cur : Int) : Passage → Ending
  | .ended m left ret =>
    ⟨{ ret := ret, calls := m.calls, steps := limit.toNat - left }, none⟩
  | .undefined m left =>
    ⟨{ calls := m.calls, steps := limit.toNat - left }, some (.undefined f.name cur)⟩
  | .exhausted m =>
    ⟨{ calls := m.calls, steps := limit.toNat + 1 }, some (.stepLimit limit f.name cur)⟩
  | .through m left next =>
    match f.follow cur next with
    | .error e => ⟨{ calls := m.calls, steps := limit.toNat - left }, some (.flow e)⟩
    | .ok b => f.runFrom limit left m next b

/-- A passage that ends the execution concludes with its ending. -/
theorem conclude_stops (f : Func) (limit cur : Int) (left : Nat) (m : Machine) (n : Nat) (o : Halt) :
    (f.conclude limit cur ((Visit.stops m n o).within left)).halt? = some o ∧
      (f.conclude limit cur ((Visit.stops m n o).within left)).trace.calls = m.calls ∧
      (f.conclude limit cur ((Visit.stops m n o).within left)).trace.steps =
        limit.toNat - (left - n) := by
  cases o <;> simp [Visit.within, conclude, follow, Ending.halt?]

/-- A run that finds a block with instructions goes on as its passage through that block. -/
theorem runFrom_of_ready {r : Ready} (h : f.skipEmpty f.blocks.length s b = .ok r) (limit : Int)
    (left : Nat) (m : Machine) : f.runFrom limit left m s b =
      f.conclude limit r.cur (m.pass left r.next (r.first :: r.rest)) := by
  rw [runFrom]
  simp only [h]
  split
  · next h => simp only [h, conclude]
  · next h => simp only [h, conclude]
  · next h => simp only [h, conclude]
  · next s' h => cases hfol : f.follow r.cur s' <;> simp only [h, conclude, hfol]

/-- A run that slides to a block with instructions goes on as its passage through that block. -/
theorem runFrom_eq_conclude {i : Insn} {is : List Insn} (hsl : f.Slides t j s) (ht : f.Rests t)
    (hb : f.block? s = some b) (hb' : f.block? t = some b') (hi : b'.insns = i :: is) :
    f.runFrom limit left m s b = f.conclude limit t (m.pass left b'.next b'.insns) := by
  have hready := (skipEmpty_of_rests hsl ht hb hb').trans (skipEmpty_of_insns hi)
  rw [runFrom_of_ready hready, hi]

theorem runFrom_of_fallsOff (hsl : f.Slides t j s) (ht : f.Rests t) (hb : f.block? s = some b)
    (hb' : f.block? t = some b') (hi : b'.insns = []) :
    f.runFrom limit left m s b =
      ⟨{ calls := m.calls, steps := limit.toNat - left }, some (.flow (.fallsOff f.name t))⟩ := by
  rw [runFrom, skipEmpty_of_rests hsl ht hb hb', skipEmpty]
  simp [hi, follow, ht b' hb' hi]

/-- **A run within the limit is the ending of the execution.** -/
theorem runFrom_of_haltsIn (hf : f.EndsLast) (limit : Int) (h : f.HaltsIn k m s n o cs)
    (hb : f.block? s = some b) (hn : n ≤ left) :
    (f.runFrom limit left m s b).halt? = some o ∧
      (f.runFrom limit left m s b).trace.calls = cs ∧
      (f.runFrom limit left m s b).trace.steps = limit.toNat - (left - n) := by
  induction k using Nat.strongRecOn generalizing m s n b left with
  | ind k ih =>
    obtain ⟨j, k', t, rfl, hsl, ht, h'⟩ := h.exists_slide
    obtain ⟨b', hb'⟩ := h'.exists_block
    cases hi : b'.insns with
    | nil =>
      obtain ⟨-, rfl, rfl, rfl⟩ := h'.of_stops hb' (visit_of_empty_last hi (ht b' hb' hi) m)
      simp [runFrom_of_fallsOff hsl ht hb hb' hi, Ending.halt?]
    | cons i is =>
      have hplain := hf b' (mem_of_block? hb')
      rw [runFrom_eq_conclude hsl ht hb hb' hi]
      cases hv : b'.visit m with
      | stops m₁ n₁ o₁ =>
        obtain ⟨-, rfl, rfl, rfl⟩ := h'.of_stops hb' hv
        rw [Machine.pass_eq_within hplain (by rw [hv]; exact hn), hv]
        exact conclude_stops ..
      | goes m₁ c s₁ =>
        obtain ⟨k₁, n₁, rfl, rfl, h₁⟩ := h'.of_goes hb' hv
        obtain ⟨b₁, hb₁⟩ := h₁.exists_block
        have hs₁ : s₁ ≠ noBlock := (Block.visit_eq_goes.mp hv).2.2.1
        rw [Machine.pass_eq_within hplain (by rw [hv]; exact Nat.le_of_add_right_le hn), hv]
        simp only [Visit.within, conclude, follow_eq_ok.mpr ⟨hs₁, hb₁⟩]
        have hle : n₁ ≤ left - c := by omega
        have := ih k₁ (by omega) h₁ hb₁ hle
        rwa [show left - c - n₁ = left - (c + n₁) by omega] at this

/-- **…and a run that ends of itself is the ending of an execution.** -/
theorem haltsIn_of_runFrom (hf : f.EndsLast) (hb : f.block? s = some b)
    (ho : (f.runFrom limit left m s b).halt? = some o) :
    ∃ k n, n ≤ left ∧ f.HaltsIn k m s n o (f.runFrom limit left m s b).trace.calls := by
  induction left using Nat.strongRecOn generalizing m s b with
  | ind left ih =>
    cases hskip : f.skipEmpty f.blocks.length s b with
    | error e =>
      rw [runFrom] at ho ⊢
      simp only [hskip] at ho ⊢
      obtain ⟨e, t, k, b', rfl, hsl, hb', he, hfol⟩ | ⟨blk, t, rfl, -⟩ := skipEmpty_eq_error hb hskip
      · cases e with
        | fallsOff fn blk =>
          have hv := visit_of_empty_last he (eq_noBlock_of_follow hfol) m
          simp only [Ending.halt?, Option.some.injEq] at ho
          exact ⟨k + 1, 0, Nat.zero_le _, ho ▸ (HaltsIn.stops hb' hv).of_reaches (hsl.reaches m)⟩
        | _ => simp [Ending.halt?] at ho
      · simp [Ending.halt?] at ho
    | ok r =>
      obtain ⟨j, b', hsl, hb', hi, -⟩ := skipEmpty_eq_ok hb hskip
      have ht : f.Rests r.cur := fun b₁ hb₁ he => by
        obtain rfl := Option.mem_unique hb' hb₁
        rw [hi] at he
        cases he
      have hplain := hf b' (mem_of_block? hb')
      rw [runFrom_eq_conclude hsl ht hb hb' hi] at ho ⊢
      by_cases hl : (b'.visit m).steps ≤ left
      · rw [Machine.pass_eq_within hplain hl] at ho ⊢
        cases hv : b'.visit m with
        | stops m₁ n₁ o₁ =>
          rw [hv] at ho hl
          obtain ⟨ho₁, hcalls, -⟩ := f.conclude_stops limit r.cur left m₁ n₁ o₁
          obtain rfl := Option.mem_unique ho₁ ho
          have := (HaltsIn.stops hb' hv).of_reaches (hsl.reaches m)
          exact ⟨j + 1, 0 + n₁, by simpa [Visit.steps] using hl, by rw [hcalls]; exact this⟩
        | goes m₁ c s₁ =>
          obtain ⟨-, -, hs₁, hc⟩ := Block.visit_eq_goes.mp hv
          rw [hv] at ho hl
          simp only [Visit.steps] at hl
          simp only [Visit.within, conclude] at ho ⊢
          cases hfol : f.follow r.cur s₁ with
          | error e =>
            simp only [follow, hs₁, if_false] at hfol
            split at hfol <;> cases hfol
            simp_all [follow, Ending.halt?]
          | ok b₁ =>
            simp only [hfol] at ho ⊢
            have hpos : 0 < c := by rw [hc, hi]; exact Nat.zero_lt_succ _
            obtain ⟨k, n, hn, hk⟩ := ih (left - c) (by omega) (follow_eq_ok.mp hfol).2 ho
            have := (hk.goes hb' hv).of_reaches (hsl.reaches m)
            exact ⟨_, _, by omega, this⟩
      · obtain ⟨m', hx⟩ := Machine.pass_exhausted hplain (Nat.lt_of_not_le hl)
        rw [hx] at ho
        simp [conclude, Ending.halt?] at ho

/-- **A run is cut short where the execution gets past the limit.** -/
theorem runFrom_of_reaches (hf : f.EndsLast) (hr : f.Reaches m s k n m' s') (hn : left < n)
    (hb : f.block? s = some b) :
    ∃ blk, (f.runFrom limit left m s b).error? = some (.stepLimit limit f.name blk) := by
  induction k using Nat.strongRecOn generalizing m s n b left with
  | ind k ih =>
    obtain ⟨j, k', t, rfl, hsl, ht, hr'⟩ := hr.exists_slide (by omega)
    cases k' with
    | zero => cases hr'; omega
    | succ k' =>
      obtain ⟨b', c, n', m₁, s₁, hb', hv, rfl, hr₁⟩ := hr'.head
      obtain ⟨-, -, hs₁, hc⟩ := Block.visit_eq_goes.mp hv
      have hplain := hf b' (mem_of_block? hb')
      cases hi : b'.insns with
      | nil => exact absurd (hv.symm.trans (visit_of_empty_last hi (ht b' hb' hi) m)) (by simp)
      | cons i is =>
        rw [runFrom_eq_conclude hsl ht hb hb' hi]
        by_cases hl : c ≤ left
        · rw [Machine.pass_eq_within hplain (by rw [hv]; exact hl), hv]
          obtain ⟨b₁, hb₁⟩ : ∃ b₁, f.block? s₁ = some b₁ := by
            cases k' with
            | zero => cases hr₁; omega
            | succ k' =>
              obtain ⟨b₁, -, -, -, -, hb₁, -⟩ := hr₁.head
              exact ⟨b₁, hb₁⟩
          simp only [Visit.within, conclude, follow_eq_ok.mpr ⟨hs₁, hb₁⟩]
          exact ih k' (by omega) hr₁ (by omega) hb₁
        · have hlt : left < (b'.visit m).steps := by
            rw [hv]
            simp only [Visit.steps]
            omega
          obtain ⟨m₂, hx⟩ := Machine.pass_exhausted hplain hlt
          exact ⟨t, by rw [hx]; rfl⟩

/-- A run returns, or it has no value. -/
theorem error?_or_ret_runFrom (f : Func) (limit : Int) (left : Nat) (m : Machine) (s : Int)
    (b : Block) : (f.runFrom limit left m s b).error? = none ∨
      (f.runFrom limit left m s b).trace.ret = 0 := by
  induction left using Nat.strongRecOn generalizing m s b with
  | ind left ih =>
    rw [runFrom]
    split
    · exact .inr rfl
    split
    · exact .inl rfl
    · exact .inr rfl
    · exact .inr rfl
    · next hpass =>
      split
      · exact .inr rfl
      · exact ih _ (Machine.left_lt_of_pass hpass) _ _ _

/-! ## From the entry -/

theorem run_of_block? (hb : f.block? 0 = some b) :
    f.run inputs limit = .ok (f.runFrom limit limit.toNat { vars := inputs } 0 b) := by
  rw [run, hb]

/-- **Execution within the limit gives a run.** -/
theorem run_of_endsWithin (hf : f.EndsLast) (h : f.EndsWithin { vars := inputs } 0 n o cs)
    (hn : n ≤ limit.toNat) :
    ∃ e, f.run inputs limit = .ok e ∧ e.halt? = some o ∧ e.trace.calls = cs ∧ e.trace.steps ≤ n := by
  obtain ⟨k, n', hn', h⟩ := h
  obtain ⟨b, hb⟩ := h.exists_block
  obtain ⟨ho, hcs, hst⟩ := runFrom_of_haltsIn hf limit h hb (Nat.le_trans hn' hn)
  exact ⟨_, run_of_block? hb, ho, hcs, by omega⟩

/-- **A run that ends of itself is an execution**, with the steps the run has counted. -/
theorem endsWithin_of_run (hf : f.EndsLast) (h : f.run inputs limit = .ok e)
    (ho : e.halt? = some o) :
    e.trace.steps ≤ limit.toNat ∧
      f.EndsWithin { vars := inputs } 0 e.trace.steps o e.trace.calls := by
  unfold run at h
  split at h
  · cases h
  · rename_i b hb
    obtain rfl := Except.ok.inj h
    obtain ⟨k, n, hn, hk⟩ := haltsIn_of_runFrom hf hb ho
    obtain ⟨-, -, hst⟩ := runFrom_of_haltsIn hf limit hk hb hn
    exact ⟨by omega, k, n, by omega, hk⟩

theorem error?_or_ret_run (h : f.run inputs limit = .ok e) : e.error? = none ∨ e.trace.ret = 0 := by
  unfold run at h
  split at h
  · cases h
  · obtain rfl := Except.ok.inj h
    exact error?_or_ret_runFrom ..

/-- Runs that end alike have the same value. -/
theorem ret_eq_of_halt? {g : Func} {inputs : Env} {limit limit' : Int} {e e' : Ending}
    (h : f.run inputs limit = .ok e) (h' : g.run inputs limit' = .ok e')
    (ho : e'.halt? = e.halt?) : e'.trace.ret = e.trace.ret := by
  rcases error?_or_ret_run h with hok | hret
  · exact (Ending.halt?_eq_returned.mp (ho.trans (Ending.halt?_eq_returned.mpr ⟨hok, rfl⟩))).2
  · rcases error?_or_ret_run h' with hok' | hret'
    · exact (Ending.halt?_eq_returned.mp (ho ▸ Ending.halt?_eq_returned.mpr ⟨hok', rfl⟩)).2.symm
    · rw [hret, hret']

/-- **What a function returns, one that does the same returns within the same limit.** -/
theorem Refines.run {g : Func} (h : f.Refines g) (hf : f.EndsLast) (hg : g.EndsLast)
    (he : f.run inputs limit = .ok e) (hok : e.error? = none) :
    ∃ e', g.run inputs limit = .ok e' ∧ e'.error? = none ∧ e'.trace.ret = e.trace.ret ∧
      e'.trace.calls = e.trace.calls ∧ e'.trace.steps ≤ e.trace.steps := by
  obtain ⟨hn, hends⟩ := endsWithin_of_run hf he (Ending.halt?_eq_returned.mpr ⟨hok, rfl⟩)
  obtain ⟨e', he', ho, hcs, hst⟩ := run_of_endsWithin hg (h hends) hn
  obtain ⟨hok', hret⟩ := Ending.halt?_eq_returned.mp ho
  exact ⟨e', he', hok', hret, hcs, hst⟩

end Func

end Deflatten

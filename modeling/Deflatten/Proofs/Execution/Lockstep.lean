import Deflatten.Proofs.Execution.Agreement
import Deflatten.Proofs.Execution.Endless

/-!
# Proofs/Execution/Lockstep — functions that visit their blocks alike behave alike

Two functions are in lockstep if their blocks, visited with related machines, go on to the same block
with related machines or end alike.  Their executions then make the same visits, though not the same
steps.  So large enough limits give the same ending (`EndAlike`); of executions that go on for ever all
runs are cut, and the calls of each are the first calls of longer runs of the other (`Trails`).

A run is followed visit by visit (`runFrom_of_goes`).  That takes a function that comes to no circle of
empty blocks, where a run gives up.
-/

namespace Deflatten

/-- The error of a run that ends at a block. -/
def Halt.error? (fn : String) (blk : Int) : Halt → Option RunError
  | returned _ => none
  | undefined => some (.undefined fn blk)
  | fellOff => some (.flow (.fallsOff fn blk))

/-! ## Calls -/

/-- The machine that a passage came to. -/
def Passage.machine : Passage → Machine
  | through m _ _ => m
  | ended m _ _ => m
  | undefined m _ => m
  | exhausted m => m

namespace Machine

/-- No instruction takes a call back. -/
theorem calls_prefix_of_step {m m' : Machine} {i : Insn} (h : m.step i = .next m') :
    m.calls <+: m'.calls := by
  cases hi : i.op.endsBlock with
  | true =>
    rcases m.step_of_endsBlock hi with ⟨s, hs⟩ | ⟨v, hv⟩ | hn
    · cases hs.symm.trans h
    · cases hv.symm.trans h
    · cases hn.symm.trans h
      exact List.prefix_rfl
  | false =>
    rcases m.step_cases hi with ⟨_, h₁⟩ | ⟨_, h₁⟩ | ⟨_, h₁⟩ | ⟨_, h₁⟩ | ⟨_, h₁⟩ | ⟨_, _, h₁⟩ |
      ⟨_, w, _, h₁⟩
    all_goals cases h₁.symm.trans h
    · exact List.prefix_rfl
    · exact List.prefix_rfl
    · rw [calls_assign]
      exact List.prefix_append ..
    · rw [calls_assign]
    · exact List.prefix_rfl
    · exact List.prefix_rfl

theorem calls_prefix_pass (m : Machine) (left : Nat) (next : Int) (is : List Insn) :
    m.calls <+: (m.pass left next is).machine.calls := by
  induction is generalizing m left next with
  | nil =>
    rw [pass]
    exact List.prefix_rfl
  | cons i is ih =>
    cases left with
    | zero => exact List.prefix_rfl
    | succ left =>
      simp only [pass]
      cases hs : m.step i with
      | next m₁ => exact (calls_prefix_of_step hs).trans (ih ..)
      | jump t => exact ih ..
      | finish v => exact List.prefix_rfl
      | undefined => exact List.prefix_rfl

/-- **More steps make more calls.** -/
theorem calls_pass_mono (m : Machine) {left left' : Nat} (h : left ≤ left') (next : Int)
    (is : List Insn) :
    (m.pass left next is).machine.calls <+: (m.pass left' next is).machine.calls := by
  induction is generalizing m left left' next with
  | nil =>
    rw [pass, pass]
    exact List.prefix_rfl
  | cons i is ih =>
    cases left with
    | zero => exact m.calls_prefix_pass ..
    | succ left =>
      obtain ⟨left', rfl⟩ : ∃ l, left' = l + 1 := ⟨left' - 1, by omega⟩
      have hle : left ≤ left' := by omega
      simp only [pass]
      cases m.step i with
      | next m₁ => exact ih m₁ hle next
      | jump t => exact ih m hle t
      | finish v => exact List.prefix_rfl
      | undefined => exact List.prefix_rfl

end Machine

namespace Func

variable {f g : Func} {m m' m₁ m₀ m₀' : Machine} {s s' s₁ s₀ t : Int} {j k n c left : Nat} {o : Halt}
  {cs : List CallEvent} {b b' b₁ : Block}

theorem calls_prefix_of_visit (hp : Plain b.body) (hv : b.visit m = .goes m₁ c s) :
    m.calls <+: m₁.calls := by
  have hpass := m.calls_prefix_pass c b.next b.insns
  rwa [Machine.pass_eq_within hp (by rw [hv]; exact Nat.le_refl c), hv] at hpass

theorem Reaches.calls_prefix (hf : f.EndsLast) (h : f.Reaches m s k n m' s') :
    m.calls <+: m'.calls := by
  induction h with
  | here => exact List.prefix_rfl
  | goes _ hb hv ih => exact ih.trans (calls_prefix_of_visit (hf _ (mem_of_block? hb)) hv)

theorem calls_prefix_runFrom (f : Func) (limit : Int) (left : Nat) (m : Machine) (s : Int)
    (b : Block) : m.calls <+: (f.runFrom limit left m s b).trace.calls := by
  induction left using Nat.strongRecOn generalizing m s b with
  | ind left ih =>
    rw [runFrom]
    split
    · exact List.prefix_rfl
    · next r _ =>
      have hpass := m.calls_prefix_pass left r.next (r.first :: r.rest)
      split <;> next h =>
        rw [h] at hpass
        first
        | exact hpass
        | split
          · exact hpass
          · exact hpass.trans (ih _ (Machine.left_lt_of_pass h) _ _ _)

/-! ## Runs, visit by visit -/

/-- **Empty blocks lead from `s` to a block that does not lead on without a step.** -/
def Settles (f : Func) (s : Int) : Prop :=
  ∃ j t b, f.Slides t j s ∧ f.Rests t ∧ f.block? t = some b

theorem HaltsIn.settles (h : f.HaltsIn k m s n o cs) : f.Settles s := by
  obtain ⟨j, k', t, -, hsl, ht, h'⟩ := h.exists_slide
  obtain ⟨b, hb⟩ := h'.exists_block
  exact ⟨j, t, b, hsl, ht, hb⟩

/-- **A slide comes to rest or to a circle.** -/
theorem Shaped.settles_or_drifts (hf : f.Shaped) (hb : f.block? s = some b) :
    f.Settles s ∨ f.Drifts s := by
  have key : ∀ k, f.Settles s ∨ ∃ t b, f.Slides t k s ∧ f.block? t = some b := by
    intro k
    induction k with
    | zero => exact .inr ⟨s, b, .here, hb⟩
    | succ k ih =>
      rcases ih with h | ⟨t, b', hsl, hb'⟩
      · exact .inl h
      · by_cases he : b'.insns = [] ∧ b'.next ≠ noBlock
        · obtain ⟨he, hn⟩ := he
          obtain ⟨b₁, hb₁⟩ := hf.exists_of_edge (Edge.of_visit hb' (visit_of_empty he hn default))
          exact .inr ⟨b'.next, b₁, hsl.trans (.goes hb' he hn .here), hb₁⟩
        · refine .inl ⟨k, t, b', hsl, fun b₁ hb₁ he₁ => ?_, hb'⟩
          obtain rfl := Option.mem_unique hb' hb₁
          by_contra hn
          exact he ⟨he₁, hn⟩
  rcases key (f.blocks.length + 1) with h | ⟨t, b', hsl, -⟩
  · exact .inl h
  · exact .inr (hsl.exists_circles (Nat.lt_succ_self _))

/-- Without circles every slide comes to rest. -/
theorem Shaped.settles (hf : f.Shaped) (hfree : ∀ s, ¬ f.Circles s) (hb : f.block? s = some b) :
    f.Settles s :=
  (hf.settles_or_drifts hb).resolve_right fun ⟨r, _, _, hc⟩ => hfree r hc

/-- A run slides along. -/
theorem runFrom_of_slides {limit : Int} (hsl : f.Slides t j s) (ht : f.Rests t)
    (hb : f.block? s = some b) (hb' : f.block? t = some b') :
    f.runFrom limit left m s b = f.runFrom limit left m t b' := by
  cases hi : b'.insns with
  | nil => rw [runFrom_of_fallsOff hsl ht hb hb' hi, runFrom_of_fallsOff .here ht hb' hb' hi]
  | cons i is =>
    rw [runFrom_eq_conclude hsl ht hb hb' hi, runFrom_eq_conclude .here ht hb' hb' hi]

theorem rests_of_insns {i : Insn} {is : List Insn} (hb : f.block? s = some b)
    (hi : b.insns = i :: is) : f.Rests s := fun b' hb' he => by
  obtain rfl := Option.mem_unique hb hb'
  cases hi.symm.trans he

/-- **A run goes on from where a visit leads.** -/
theorem runFrom_of_goes (hf : f.EndsLast) {limit : Int} (hset : f.Settles s) (hb : f.block? s = some b)
    (hv : b.visit m = .goes m₁ c s₁) (hb₁ : f.block? s₁ = some b₁) (hc : c ≤ left) :
    f.runFrom limit left m s b = f.runFrom limit (left - c) m₁ s₁ b₁ := by
  cases hi : b.insns with
  | nil =>
    obtain ⟨j, t, b', hsl, ht, hb'⟩ := hset
    have hn : b.next ≠ noBlock := fun hn => by cases hv.symm.trans (visit_of_empty_last hi hn m)
    obtain ⟨rfl, rfl, rfl⟩ := Visit.goes.inj (hv.symm.trans (visit_of_empty hi hn m))
    cases hsl with
    | here => exact absurd (ht b hb hi) hn
    | goes hb₂ _ _ rest =>
      obtain rfl := Option.mem_unique hb hb₂
      rw [runFrom_of_slides (.goes hb hi hn rest) ht hb hb', runFrom_of_slides rest ht hb₁ hb',
        Nat.sub_zero]
  | cons i is =>
    have hs₁ := (Block.visit_eq_goes.mp hv).2.2.1
    rw [runFrom_eq_conclude .here (rests_of_insns hb hi) hb hb hi,
      Machine.pass_eq_within (hf b (mem_of_block? hb)) (by rw [hv]; exact hc), hv]
    simp only [Visit.within, conclude, follow_eq_ok.mpr ⟨hs₁, hb₁⟩]

/-- **A run ends where a visit does.** -/
theorem error?_runFrom_of_stops (hf : f.EndsLast) (limit : Int) (hb : f.block? s = some b)
    (hv : b.visit m = .stops m₁ n o) (hn : n ≤ left) :
    (f.runFrom limit left m s b).error? = o.error? f.name s := by
  cases hi : b.insns with
  | nil =>
    have hnext : b.next = noBlock := by
      by_contra hne
      cases hv.symm.trans (visit_of_empty hi hne m)
    obtain ⟨-, -, rfl⟩ := Visit.stops.inj (hv.symm.trans (visit_of_empty_last hi hnext m))
    have hrests : f.Rests s := fun b' hb' _ => Option.mem_unique hb hb' ▸ hnext
    rw [runFrom_of_fallsOff .here hrests hb hb hi]
    rfl
  | cons i is =>
    rw [runFrom_eq_conclude .here (rests_of_insns hb hi) hb hb hi,
      Machine.pass_eq_within (hf b (mem_of_block? hb)) (by rw [hv]; exact hn), hv]
    cases o <;> simp [Visit.within, conclude, follow, Halt.error?]

/-! ## Calls of runs -/

/-- **What a cut run calls, the execution has called** once it is past the limit. -/
theorem calls_runFrom_prefix (hf : f.Shaped) (hfree : ∀ s, ¬ f.Circles s) (limit : Int)
    (hr : f.Reaches m s k n m' s') (hn : left < n) (hb : f.block? s = some b) :
    (f.runFrom limit left m s b).trace.calls <+: m'.calls := by
  induction k generalizing m s n b left with
  | zero => cases hr; omega
  | succ k ih =>
    obtain ⟨b', c, n₁, m₁, s₁, hb', hv, rfl, hr₁⟩ := hr.head
    obtain rfl := Option.mem_unique hb hb'
    by_cases hc : c ≤ left
    · obtain ⟨b₁, hb₁⟩ := hf.exists_of_edge (Edge.of_visit hb hv)
      rw [runFrom_of_goes hf.endsLast (hf.settles hfree hb) hb hv hb₁ hc]
      exact ih hr₁ (by omega) hb₁
    · have hplain := (hf.fits hb).plain
      obtain ⟨-, -, -, hlen⟩ := Block.visit_eq_goes.mp hv
      obtain ⟨i, is, hi⟩ : ∃ i is, b.insns = i :: is :=
        List.exists_cons_of_ne_nil fun hnil => by simp [hlen, hnil] at hc
      have hlt : left < (b.visit m).steps := by
        rw [hv]
        simpa [Visit.steps] using hc
      obtain ⟨m₂, hx⟩ := Machine.pass_exhausted hplain hlt
      have hmono := m.calls_pass_mono (Nat.le_of_not_le hc) b.next b.insns
      rw [hx, Machine.pass_eq_within hplain (by rw [hv]; exact Nat.le_refl c), hv] at hmono
      rw [runFrom_eq_conclude .here (rests_of_insns hb hi) hb hb hi, hx]
      exact hmono.trans (hr₁.calls_prefix hf.endsLast)

/-- **What an execution has called, a run calls** whose limit it has not passed. -/
theorem prefix_calls_runFrom (hf : f.Shaped) (hfree : ∀ s, ¬ f.Circles s) (limit : Int)
    (hr : f.Reaches m s k n m' s') (hn : n ≤ left) (hb : f.block? s = some b) :
    m'.calls <+: (f.runFrom limit left m s b).trace.calls := by
  induction k generalizing m s n b left with
  | zero =>
    cases hr
    exact calls_prefix_runFrom ..
  | succ k ih =>
    obtain ⟨b', c, n₁, m₁, s₁, hb', hv, rfl, hr₁⟩ := hr.head
    obtain rfl := Option.mem_unique hb hb'
    obtain ⟨b₁, hb₁⟩ := hf.exists_of_edge (Edge.of_visit hb hv)
    rw [runFrom_of_goes hf.endsLast (hf.settles hfree hb) hb hv hb₁ (by omega)]
    exact ih hr₁ (by omega) hb₁

/-- Without circles, many visits take many steps. -/
theorem Reaches.lt_steps (hfree : ∀ s, ¬ f.Circles s) {limit : Nat} (h : f.Reaches m₀ s₀ k n m s)
    (hk : (limit + 1) * (f.blocks.length + 1) < k) : limit < n := by
  by_contra hn
  have hspins : ¬ f.Spins m₀ s₀ limit := fun ⟨_, _, _, _, _, _, hc⟩ => hfree _ hc
  have hle := h.visits_le hspins (Nat.le_of_not_lt hn)
  have := Nat.mul_le_mul_right (f.blocks.length + 1) (show n + 1 ≤ limit + 1 by omega)
  omega

end Func

/-! ## Lockstep -/

/-- **Visits that are alike**: they go on to one block with related machines, or end alike. -/
def Visit.Related (R : Machine → Machine → Prop) : Visit → Visit → Prop
  | goes m _ s, goes m' _ s' => s' = s ∧ R m m'
  | stops m _ o, stops m' _ o' => o' = o ∧ m'.calls = m.calls
  | _, _ => False

theorem Visit.Related.symm {R : Machine → Machine → Prop} (hR : ∀ {m m'}, R m m' → R m' m) :
    ∀ {v w : Visit}, v.Related R w → w.Related R v
  | goes .., goes .., h => ⟨h.1.symm, hR h.2⟩
  | stops .., stops .., h => ⟨h.1.symm, h.2.symm⟩

theorem Visit.Related.trans {R : Machine → Machine → Prop}
    (hR : ∀ {m m' m''}, R m m' → R m' m'' → R m m'') :
    ∀ {v w x : Visit}, v.Related R w → w.Related R x → v.Related R x
  | goes .., goes .., goes .., h, h' => ⟨h'.1.trans h.1, hR h.2 h'.2⟩
  | stops .., stops .., stops .., h, h' => ⟨h'.1.trans h.1, h'.2.trans h.2⟩

namespace Func

variable {R : Machine → Machine → Prop} {f g : Func} {m m' m₀ m₀' : Machine} {s s₀ : Int} {k n : Nat}
  {o : Halt} {cs : List CallEvent} {b b' : Block} {inputs : Env}

/-- **Functions in lockstep**, along a relation of machines that have made the same calls. -/
structure Lockstep (R : Machine → Machine → Prop) (f g : Func) : Prop where
  name_eq : g.name = f.name
  /-- Related machines have made the same calls. -/
  calls_eq : ∀ {m m'}, R m m' → m'.calls = m.calls
  /-- Their blocks are visited alike. -/
  visit : ∀ {s b}, f.block? s = some b →
    ∃ b', g.block? s = some b' ∧ ∀ {m m'}, R m m' → (b.visit m).Related R (b'.visit m')

theorem Lockstep.exists_goes (h : Lockstep R f g) (hR : R m m') (hb : f.block? s = some b)
    {m₁ : Machine} {c : Nat} {t : Int} (hv : b.visit m = .goes m₁ c t) :
    ∃ b' m₁' c', g.block? s = some b' ∧ b'.visit m' = .goes m₁' c' t ∧ R m₁ m₁' := by
  obtain ⟨b', hb', hrelated⟩ := h.visit hb
  have hvis := hrelated hR
  rw [hv] at hvis
  cases hv' : b'.visit m' with
  | goes m₁' c' t' =>
    rw [hv'] at hvis
    obtain ⟨rfl, hR₁⟩ := hvis
    exact ⟨b', m₁', c', hb', hv', hR₁⟩
  | stops m₁' c' o' =>
    rw [hv'] at hvis
    exact hvis.elim

theorem Lockstep.exists_stops (h : Lockstep R f g) (hR : R m m') (hb : f.block? s = some b)
    {m₁ : Machine} {c : Nat} (hv : b.visit m = .stops m₁ c o) :
    ∃ b' m₁' c', g.block? s = some b' ∧ b'.visit m' = .stops m₁' c' o ∧ m₁'.calls = m₁.calls := by
  obtain ⟨b', hb', hrelated⟩ := h.visit hb
  have hvis := hrelated hR
  rw [hv] at hvis
  cases hv' : b'.visit m' with
  | goes m₁' c' t' =>
    rw [hv'] at hvis
    exact hvis.elim
  | stops m₁' c' o' =>
    rw [hv'] at hvis
    obtain ⟨rfl, hcalls⟩ := hvis
    exact ⟨b', m₁', c', hb', hv', hcalls⟩

/-- **Executions in lockstep make the same visits.** -/
theorem Lockstep.reaches (h : Lockstep R f g) (hR : R m₀ m₀') (hr : f.Reaches m₀ s₀ k n m s) :
    ∃ n' m', g.Reaches m₀' s₀ k n' m' s ∧ R m m' := by
  induction hr with
  | here => exact ⟨0, m₀', .here, hR⟩
  | goes _ hb hv ih =>
    obtain ⟨n', m', hr', hR'⟩ := ih
    obtain ⟨b', m₁', c', hb', hv', hR₁⟩ := h.exists_goes hR' hb hv
    exact ⟨n' + c', m₁', hr'.goes hb' hv', hR₁⟩

/-- **Executions in lockstep end alike**, and so do their runs. -/
theorem Lockstep.haltsIn (h : Lockstep R f g) (hf : f.EndsLast) (hg : g.EndsLast) (hR : R m m')
    (hh : f.HaltsIn k m s n o cs) : ∃ n', g.HaltsIn k m' s n' o cs ∧
      ∀ {limit : Int} {left : Nat} {b b' : Block}, n ≤ left → n' ≤ left → f.block? s = some b →
        g.block? s = some b' →
        (g.runFrom limit left m' s b').error? = (f.runFrom limit left m s b).error? := by
  -- the runs are compared with different steps left, since the visits take different steps
  suffices hsuff : ∃ n', g.HaltsIn k m' s n' o cs ∧
      ∀ {limit : Int} {left left' : Nat} {b b' : Block}, n ≤ left → n' ≤ left' → f.block? s = some b →
        g.block? s = some b' →
        (g.runFrom limit left' m' s b').error? = (f.runFrom limit left m s b).error? by
    obtain ⟨n', hh', herror⟩ := hsuff
    exact ⟨n', hh', fun hn hn' => herror hn hn'⟩
  induction hh generalizing m' with
  | @stops m m₁ s n o b hb hv =>
    obtain ⟨b', m₁', c', hb', hv', hcalls⟩ := h.exists_stops hR hb hv
    refine ⟨c', hcalls ▸ .stops hb' hv', fun {limit left left' b₁ b₁'} hn hn' hb₁ hb₁' => ?_⟩
    obtain rfl := Option.mem_unique hb hb₁
    obtain rfl := Option.mem_unique hb' hb₁'
    rw [error?_runFrom_of_stops hf limit hb hv hn, error?_runFrom_of_stops hg limit hb' hv' hn',
      h.name_eq]
  | @goes m m₁ s t k c n o cs b hb hv rest ih =>
    obtain ⟨b', m₁', c', hb', hv', hR₁⟩ := h.exists_goes hR hb hv
    obtain ⟨n', hh', herror⟩ := ih hR₁
    have hhg := hh'.goes hb' hv'
    refine ⟨c' + n', hhg, fun {limit left left' b₁ b₁'} hn hn' hb₁ hb₁' => ?_⟩
    obtain rfl := Option.mem_unique hb hb₁
    obtain rfl := Option.mem_unique hb' hb₁'
    obtain ⟨b₂, hb₂⟩ := rest.exists_block
    obtain ⟨b₂', hb₂'⟩ := hh'.exists_block
    rw [runFrom_of_goes hf (rest.goes hb hv).settles hb hv hb₂ (by omega),
      runFrom_of_goes hg hhg.settles hb' hv' hb₂' (by omega)]
    exact herror (by omega) (by omega) hb₂ hb₂'

/-! ## Behaviour -/

/-- **Both runs end of themselves and alike**, whatever limit is large enough. -/
def EndAlike (f g : Func) (inputs : Env) : Prop :=
  ∃ bound : Nat, ∀ limit : Int, bound ≤ limit → ∃ e e', f.run inputs limit = .ok e ∧
    g.run inputs limit = .ok e' ∧ e.halt?.isSome = true ∧ e'.error? = e.error? ∧
    e'.trace.ret = e.trace.ret ∧ e'.trace.calls = e.trace.calls

/-- **Every run of `f` is cut, and `g` makes its calls**: they are the first calls of the runs of `g`
with large enough limits. -/
def Trails (f g : Func) (inputs : Env) : Prop :=
  ∀ limit : Int, ∃ e blk, f.run inputs limit = .ok e ∧
    e.error? = some (.stepLimit limit f.name blk) ∧ e.trace.ret = 0 ∧
    ∃ bound : Nat, ∀ limit' : Int, bound ≤ limit' → ∃ e', g.run inputs limit' = .ok e' ∧
      e.trace.calls <+: e'.trace.calls

theorem trails_of_reaches (hf : f.Shaped) (hg : g.Shaped) (hfree : ∀ s, ¬ f.Circles s)
    (hfree' : ∀ s, ¬ g.Circles s)
    (h : ∀ k, ∃ n m s n' m' s', f.Reaches { vars := inputs } 0 k n m s ∧
      g.Reaches { vars := inputs } 0 k n' m' s' ∧ m'.calls = m.calls) : f.Trails g inputs := by
  intro limit
  obtain ⟨n, m, s, n', m', s', hr, hr', hcalls⟩ :=
    h ((limit.toNat + 1) * (f.blocks.length + 1) + 1)
  have hn : limit.toNat < n := hr.lt_steps hfree (Nat.lt_succ_self _)
  obtain ⟨e, blk, he, herror⟩ := cut_of_reaches hf hr hn
  obtain ⟨b, _, _, _, _, hb, -⟩ := hr.head
  obtain ⟨b', _, _, _, _, hb', -⟩ := hr'.head
  obtain rfl := Except.ok.inj ((run_of_block? hb).symm.trans he)
  have hret := (error?_or_ret_run he).resolve_left (by simp [herror])
  refine ⟨_, blk, he, herror, hret, n', fun limit' hn' => ⟨_, run_of_block? hb', ?_⟩⟩
  have hbefore := calls_runFrom_prefix hf hfree limit hr hn hb
  have hafter := prefix_calls_runFrom hg hfree' limit' hr' (show n' ≤ limit'.toNat by omega) hb'
  exact hbefore.trans (hcalls ▸ hafter)

/-- **Functions in lockstep behave alike.** -/
theorem Lockstep.endAlike_or_trails (h : Lockstep R f g) (hf : f.Shaped) (hg : g.Shaped)
    (hfree : ∀ s, ¬ f.Circles s) (hfree' : ∀ s, ¬ g.Circles s) (hb : f.block? 0 = some b)
    (hR : R { vars := inputs } { vars := inputs }) :
    f.EndAlike g inputs ∨ (f.Trails g inputs ∧ g.Trails f inputs) := by
  by_cases hends : ∃ k n o cs, f.HaltsIn k { vars := inputs } 0 n o cs
  · obtain ⟨k, n, o, cs, hh⟩ := hends
    obtain ⟨n', hh', herror⟩ := h.haltsIn hf.endsLast hg.endsLast hR hh
    obtain ⟨b', hb'⟩ := hh'.exists_block
    refine .inl ⟨max n n', fun limit hlimit => ?_⟩
    have hn : n ≤ limit.toNat := by omega
    have hn' : n' ≤ limit.toNat := by omega
    obtain ⟨ho, hcalls, -⟩ := runFrom_of_haltsIn hf.endsLast limit hh hb hn
    obtain ⟨ho', hcalls', -⟩ := runFrom_of_haltsIn hg.endsLast limit hh' hb' hn'
    have hrun : f.run inputs limit = .ok _ := run_of_block? hb
    have hrun' : g.run inputs limit = .ok _ := run_of_block? hb'
    exact ⟨_, _, hrun, hrun', by rw [ho]; rfl, herror hn hn' hb hb',
      ret_eq_of_halt? hrun hrun' (ho'.trans ho.symm), hcalls'.trans hcalls.symm⟩
  · have hreach : ∀ k, ∃ n m s n' m', f.Reaches { vars := inputs } 0 k n m s ∧
        g.Reaches { vars := inputs } 0 k n' m' s ∧ m'.calls = m.calls := by
      intro k
      obtain ⟨n, m, s, -, hr, -⟩ := (hf.exists_reaches_or_haltsIn hb { vars := inputs } k).resolve_right
        hends
      obtain ⟨n', m', hr', hR'⟩ := h.reaches hR hr
      exact ⟨n, m, s, n', m', hr, hr', h.calls_eq hR'⟩
    refine .inr ⟨trails_of_reaches hf hg hfree hfree' fun k => ?_,
      trails_of_reaches hg hf hfree' hfree fun k => ?_⟩
    · obtain ⟨n, m, s, n', m', hr, hr', hcalls⟩ := hreach k
      exact ⟨n, m, s, n', m', s, hr, hr', hcalls⟩
    · obtain ⟨n, m, s, n', m', hr, hr', hcalls⟩ := hreach k
      exact ⟨n', m', s, n, m, s, hr', hr, hcalls.symm⟩

end Func

end Deflatten

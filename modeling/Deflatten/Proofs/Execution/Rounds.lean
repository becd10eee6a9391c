import Mathlib.Logic.Relation
import Deflatten.Proofs.Execution.Endless

/-!
# Proofs/Execution/Rounds — the blocks that a run goes through

A run passes one block after the other, empty ones included.  `Func.Round` is one such round, told by
the pass through the block alone; a run ends at the last moment that its rounds come to, or its rounds
come back (`exists_endsAt`).  In a function whose edges are right every round goes along a successor
(`Round.mem_succs`), and control is lost only behind a block that was never to be left
(`EndsAt.fallsOff`).
-/

namespace Deflatten

/-- **A moment of an execution**: a block is about to be executed. -/
structure Moment where
  machine : Machine
  left : Nat
  cur : Int

namespace Func

variable {f : Func} {m m' : Machine} {left left' k : Nat} {s t next : Int} {limit : Int} {b b' : Block}
  {c c' : Moment} {e : Ending} {inputs : Env}

/-- **A round of an execution**: through one block, to the start of the next. -/
inductive Round (f : Func) : Moment → Moment → Prop
  /-- The instructions are passed, and where they send control there is a block. -/
  | goes {m m' : Machine} {left left' : Nat} {s t : Int} {b b' : Block}
      (hb : f.block? s = some b) (hp : m.pass left b.next b.insns = .through m' left' t)
      (ht : f.follow s t = .ok b') : Round f ⟨m, left, s⟩ ⟨m', left', t⟩

/-- **The moments of a run** with the given variables set and so many steps. -/
def Attains (f : Func) (inputs : Env) (limit : Int) : Moment → Prop :=
  Relation.ReflTransGen f.Round ⟨{ vars := inputs }, limit.toNat, 0⟩

/-- **An execution ends at a moment**: the pass through the block gives the ending, and no round
follows. -/
structure EndsAt (f : Func) (limit : Int) (c : Moment) (b : Block) (e : Ending) : Prop where
  here : f.block? c.cur = some b
  /-- Its pass gives the ending. -/
  concludes : e = f.conclude limit c.cur (c.machine.pass c.left b.next b.insns)
  /-- No round follows. -/
  last : ∀ c', ¬ f.Round c c'

/-! ## Runs end where their rounds do -/

theorem EndsAt.of_pass (hb : f.block? s = some b)
    (h : ∀ m' left' t b', m.pass left b.next b.insns = .through m' left' t → f.follow s t ≠ .ok b') :
    f.EndsAt limit ⟨m, left, s⟩ b (f.conclude limit s (m.pass left b.next b.insns)) where
  here := hb
  concludes := rfl
  last := by
    rintro _ ⟨hb', hp, ht⟩
    obtain rfl := Option.mem_unique hb hb'
    exact h _ _ _ _ hp ht

/-- A slide to a block starts at one. -/
theorem Slides.exists_block (h : f.Slides t k s) (hb : f.block? t = some b) :
    ∃ b', f.block? s = some b' := by
  cases h with
  | here => exact ⟨b, hb⟩
  | goes hb' _ _ _ => exact ⟨_, hb'⟩

/-- An empty block is a round that changes nothing. -/
theorem Round.of_empty (hb : f.block? s = some b) (he : b.insns = []) (hn : b.next ≠ noBlock)
    (hb' : f.block? b.next = some b') (m : Machine) (left : Nat) :
    f.Round ⟨m, left, s⟩ ⟨m, left, b.next⟩ :=
  .goes hb (by rw [he, Machine.pass]) (follow_eq_ok.mpr ⟨hn, hb'⟩)

theorem Slides.rounds (h : f.Slides t k s) (hb : f.block? t = some b) (m : Machine) (left : Nat) :
    Relation.ReflTransGen f.Round ⟨m, left, s⟩ ⟨m, left, t⟩ := by
  induction h with
  | here => exact .refl
  | goes hb₁ he hn rest ih =>
    obtain ⟨b₂, hb₂⟩ := rest.exists_block hb
    exact .head (.of_empty hb₁ he hn hb₂ m left) ih

/-- A circle of empty blocks is gone round without a change. -/
theorem Circles.rounds (h : f.Circles s) (m : Machine) (left : Nat) :
    Relation.TransGen f.Round ⟨m, left, s⟩ ⟨m, left, s⟩ := by
  obtain ⟨j, hsl⟩ := h
  cases hsl with
  | goes hb he hn rest =>
    obtain ⟨b', hb'⟩ := rest.exists_block hb
    exact .head' (.of_empty hb he hn hb' m left) (rest.rounds hb m left)

/-- A slide longer than the function comes back to where it was. -/
theorem Slides.comes_back (h : f.Slides t k s) (hk : f.blocks.length < k) (m : Machine)
    (left : Nat) :
    ∃ c, Relation.ReflTransGen f.Round ⟨m, left, s⟩ c ∧ Relation.TransGen f.Round c c := by
  obtain ⟨r, i, hr, hc⟩ := h.exists_circles hk
  obtain ⟨b', hb', -⟩ := hc.exists_next
  exact ⟨_, hr.rounds hb' m left, hc.rounds m left⟩

/-- A moment at an empty block that leads to none is the last one. -/
theorem EndsAt.of_empty {e : FlowError} (hb : f.block? s = some b) (he : b.insns = [])
    (hfol : f.follow s b.next = .error e) (limit : Int) (m : Machine) (left : Nat) :
    f.EndsAt limit ⟨m, left, s⟩ b
      ⟨{ calls := m.calls, steps := limit.toNat - left }, some (.flow e)⟩ := by
  have hpass : m.pass left b.next b.insns = .through m left b.next := by rw [he, Machine.pass]
  have hlast : ∀ m' left' t b', m.pass left b.next b.insns = .through m' left' t →
      f.follow s t ≠ .ok b' := by
    intro m' left' t b' hp
    obtain ⟨-, -, rfl⟩ := Passage.through.inj (hpass.symm.trans hp)
    simp [hfol]
  simpa only [hpass, conclude, hfol] using EndsAt.of_pass hb hlast

/-- **A run that does not spin ends at a moment that its rounds come to**, and the rounds of one that
does come back. -/
theorem exists_endsAt (limit : Int) (hb : f.block? s = some b) :
    (f.runFrom limit left m s b).Spun ∧
        (∃ c, Relation.ReflTransGen f.Round ⟨m, left, s⟩ c ∧ Relation.TransGen f.Round c c) ∨
      ∃ c b', Relation.ReflTransGen f.Round ⟨m, left, s⟩ c ∧
        f.EndsAt limit c b' (f.runFrom limit left m s b) := by
  induction left using Nat.strongRecOn generalizing m s b with
  | ind left ih =>
    cases hskip : f.skipEmpty f.blocks.length s b with
    | error e =>
      rw [runFrom_of_skipEmpty hskip]
      obtain ⟨e, t, k, b', rfl, hsl, hb', he, hfol⟩ | ⟨blk, t, rfl, hsl⟩ := skipEmpty_eq_error hb hskip
      · exact .inr ⟨_, b', hsl.rounds hb' m left, .of_empty hb' he hfol limit m left⟩
      · exact .inl ⟨⟨f.name, blk, rfl⟩, hsl.comes_back (Nat.lt_succ_self _) m left⟩
    | ok r =>
      obtain ⟨j, b', hsl, hb', hi, -⟩ := skipEmpty_eq_ok hb hskip
      have hrests : f.Rests r.cur := fun b₁ hb₁ he => by
        obtain rfl := Option.mem_unique hb' hb₁
        cases hi.symm.trans he
      have hslide := hsl.rounds hb' m left
      rw [runFrom_eq_conclude hsl hrests hb hb' hi]
      by_cases hgo : ∃ m' left' u b₁, m.pass left b'.next b'.insns = .through m' left' u ∧
          f.follow r.cur u = .ok b₁
      · obtain ⟨m', left', u, b₁, hp, hfol⟩ := hgo
        have hlt : left' < left := by
          rw [hi] at hp
          exact Machine.left_lt_of_pass hp
        have hround : f.Round ⟨m, left, r.cur⟩ ⟨m', left', u⟩ := .goes hb' hp hfol
        simp only [hp, conclude, hfol]
        obtain ⟨hspun, c, hrounds, hback⟩ | ⟨c, b₂, hrounds, hends⟩ :=
          @ih left' hlt m' u b₁ (follow_eq_ok.mp hfol).2
        · exact .inl ⟨hspun, c, hslide.trans (.head hround hrounds), hback⟩
        · exact .inr ⟨c, b₂, hslide.trans (.head hround hrounds), hends⟩
      · exact .inr ⟨_, b', hslide, .of_pass hb' fun m' left' u b₁ hp hfol =>
          hgo ⟨m', left', u, b₁, hp, hfol⟩⟩

/-! ## Rounds go along edges -/

/-- **Where a pass through a block sends control**: to an exit, or nowhere behind a block without
terminator that never falls through. -/
theorem Shaped.of_through (hf : f.Shaped) (hb : f.block? s = some b)
    (hp : m.pass left b.next b.insns = .through m' left' t) :
    t ∈ b.exits ∨ b.terminator? = none ∧ b.next = noBlock ∧ t = noBlock := by
  have hplain := (hf.fits hb).plain
  by_cases hl : (b.visit m).steps ≤ left
  · rw [Machine.pass_eq_within hplain hl] at hp
    cases hv : b.visit m with
    | goes m₁ n u =>
      rw [hv] at hp
      obtain ⟨-, -, rfl⟩ := Passage.through.inj hp
      exact .inl (Block.mem_exits_of_visit hv)
    | stops m₁ n o =>
      rw [hv] at hp
      cases o with
      | returned v => cases hp
      | undefined => cases hp
      | fellOff =>
        obtain ⟨-, -, rfl⟩ := Passage.through.inj hp
        exact Block.mem_exits_of_leave (Block.visit_eq_fellOff.mp hv).2.1
  · obtain ⟨m₁, hx⟩ := Machine.pass_exhausted hplain (Nat.lt_of_not_le hl)
    cases hx.symm.trans hp

/-- **A round goes along a successor.** -/
theorem Round.mem_succs (hf : f.Verified) (h : f.Round c c') :
    ∃ b, f.block? c.cur = some b ∧ c'.cur ∈ b.succs := by
  obtain ⟨hb, hp, ht⟩ := h
  refine ⟨_, hb, ?_⟩
  rw [hf.succs_eq hb]
  exact (hf.toShaped.of_through hb hp).resolve_right fun hoff => (follow_eq_ok.mp ht).1 hoff.2.2

/-- **Control is lost only behind a block that was never to be left.** -/
theorem EndsAt.fallsOff (hf : f.Shaped) (h : f.EndsAt limit c b e) {err : FlowError}
    (herr : e.error? = some (.flow err)) :
    err = .fallsOff f.name c.cur ∧ b.terminator? = none ∧ b.next = noBlock := by
  rw [h.concludes] at herr
  cases hp : c.machine.pass c.left b.next b.insns with
  | ended m left ret => simp [hp, conclude] at herr
  | undefined m left => simp [hp, conclude] at herr
  | exhausted m => simp [hp, conclude] at herr
  | through m left t =>
    rcases hf.of_through h.here hp with hexit | ⟨hterm, hnext, rfl⟩
    · obtain ⟨b', hb'⟩ := hf.exists_of_edge ⟨b, h.here, hexit⟩
      have hne : t ≠ noBlock := fun ht => (hf.fits h.here).noBlock_not_mem (ht ▸ hexit)
      exact absurd (Round.goes h.here hp (follow_eq_ok.mpr ⟨hne, hb'⟩)) (h.last _)
    · have hfol : f.follow c.cur noBlock = .error (.fallsOff f.name c.cur) := by simp [follow]
      simp only [hp, conclude, hfol, Option.some.injEq, RunError.flow.injEq] at herr
      exact ⟨herr.symm, hterm, hnext⟩

end Func

end Deflatten

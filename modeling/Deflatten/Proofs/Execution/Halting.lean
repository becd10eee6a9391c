import Deflatten.Proofs.Execution.Visit

/-!
# Proofs/Execution/Halting — executions as sequences of visits

`Func.Reaches` is an execution under way, `Func.HaltsIn` one that has ended of itself; both count the
visits and the steps.  Visits are functions of the machine, so an execution ends in one way only
(`HaltsIn.unique`), and `HaltsIn.simulate` carries endings from one function to another along a
relation that some of the visits re-establish.
-/

namespace Deflatten

namespace Func

/-- **An execution that ends of itself**: from a machine at the start of a block, after so many
visits and steps, with how it ended and the calls made until then. -/
inductive HaltsIn (f : Func) :
    (visits : Nat) → Machine → Int → (steps : Nat) → Halt → List CallEvent → Prop
  /-- At the block it stands at. -/
  | stops {m m' : Machine} {s : Int} {n : Nat} {o : Halt} {b : Block}
      (hb : f.block? s = some b) (hv : b.visit m = .stops m' n o) : HaltsIn f 1 m s n o m'.calls
  /-- At a later one. -/
  | goes {m m' : Machine} {s s' : Int} {k c n : Nat} {o : Halt} {cs : List CallEvent} {b : Block}
      (hb : f.block? s = some b) (hv : b.visit m = .goes m' c s')
      (rest : HaltsIn f k m' s' n o cs) : HaltsIn f (k + 1) m s (c + n) o cs

/-- **An execution under way**: from `m₀` at `s₀`, after so many visits and steps, at the start of a
block. -/
inductive Reaches (f : Func) (m₀ : Machine) (s₀ : Int) :
    (visits steps : Nat) → Machine → Int → Prop
  /-- Nothing is executed yet. -/
  | here : Reaches f m₀ s₀ 0 0 m₀ s₀
  /-- One visit more. -/
  | goes {m m' : Machine} {s s' : Int} {k n c : Nat} {b : Block} (h : Reaches f m₀ s₀ k n m s)
      (hb : f.block? s = some b) (hv : b.visit m = .goes m' c s') :
      Reaches f m₀ s₀ (k + 1) (n + c) m' s'

/-- An execution that ends of itself within so many steps. -/
def EndsWithin (f : Func) (m : Machine) (s : Int) (steps : Nat) (o : Halt)
    (cs : List CallEvent) : Prop :=
  ∃ k n, n ≤ steps ∧ f.HaltsIn k m s n o cs

variable {f g : Func} {m m' m₀ : Machine} {s s' s₀ : Int} {k k' n n' c : Nat} {o o' : Halt}
  {cs cs' : List CallEvent}

/-! ## Executions in a row -/

theorem Reaches.single {b : Block} (hb : f.block? s = some b) (hv : b.visit m = .goes m' c s') :
    f.Reaches m s 1 c m' s' := by
  simpa using Reaches.here.goes hb hv

theorem Reaches.trans (h : f.Reaches m₀ s₀ k n m s) (h' : f.Reaches m s k' n' m' s') :
    f.Reaches m₀ s₀ (k + k') (n + n') m' s' := by
  induction h' with
  | here => exact h
  | goes _ hb hv ih =>
    rw [← Nat.add_assoc, ← Nat.add_assoc]
    exact ih.goes hb hv

/-- **An execution ends as it does from where it has come to.** -/
theorem HaltsIn.of_reaches (h : f.Reaches m s k c m' s') (h' : f.HaltsIn k' m' s' n o cs) :
    f.HaltsIn (k + k') m s (c + n) o cs := by
  induction h generalizing k' n with
  | here => simpa using h'
  | goes _ hb hv ih =>
    rw [Nat.add_assoc, Nat.add_comm 1, Nat.add_assoc]
    exact ih (h'.goes hb hv)

theorem EndsWithin.of_reaches (h : f.Reaches m s k c m' s') (h' : f.EndsWithin m' s' n o cs) :
    f.EndsWithin m s (c + n) o cs := by
  obtain ⟨k', n', hn, h'⟩ := h'
  exact ⟨k + k', c + n', Nat.add_le_add_left hn c, h'.of_reaches h⟩

theorem EndsWithin.mono (h : f.EndsWithin m s n o cs) (hn : n ≤ n') :
    f.EndsWithin m s n' o cs := by
  obtain ⟨k, n₁, h₁, h⟩ := h
  exact ⟨k, n₁, Nat.le_trans h₁ hn, h⟩

theorem HaltsIn.endsWithin (h : f.HaltsIn k m s n o cs) : f.EndsWithin m s n o cs :=
  ⟨k, n, Nat.le_refl n, h⟩

/-! ## One ending -/

/-- An execution that ends has a block to stand at. -/
theorem HaltsIn.exists_block (h : f.HaltsIn k m s n o cs) : ∃ b, f.block? s = some b := by
  cases h with
  | stops hb _ => exact ⟨_, hb⟩
  | goes hb _ _ => exact ⟨_, hb⟩

theorem HaltsIn.of_stops {b : Block} (h : f.HaltsIn k m s n o cs) (hb : f.block? s = some b)
    (hv : b.visit m = .stops m' n' o') : k = 1 ∧ n = n' ∧ o = o' ∧ cs = m'.calls := by
  cases h with
  | stops hb' hv' =>
    obtain rfl := Option.mem_unique hb hb'
    obtain ⟨rfl, rfl, rfl⟩ := Visit.stops.inj (hv.symm.trans hv')
    exact ⟨rfl, rfl, rfl, rfl⟩
  | goes hb' hv' _ =>
    obtain rfl := Option.mem_unique hb hb'
    cases hv.symm.trans hv'

theorem HaltsIn.of_goes {b : Block} (h : f.HaltsIn k m s n o cs) (hb : f.block? s = some b)
    (hv : b.visit m = .goes m' c s') :
    ∃ k' n', k = k' + 1 ∧ n = c + n' ∧ f.HaltsIn k' m' s' n' o cs := by
  cases h with
  | stops hb' hv' =>
    obtain rfl := Option.mem_unique hb hb'
    cases hv.symm.trans hv'
  | goes hb' hv' rest =>
    obtain rfl := Option.mem_unique hb hb'
    obtain ⟨rfl, rfl, rfl⟩ := Visit.goes.inj (hv.symm.trans hv')
    exact ⟨_, _, rfl, rfl, rest⟩

/-- **An execution ends in one way only.** -/
theorem HaltsIn.unique (h : f.HaltsIn k m s n o cs) (h' : f.HaltsIn k' m s n' o' cs') :
    k = k' ∧ n = n' ∧ o = o' ∧ cs = cs' := by
  induction h generalizing k' n' with
  | stops hb hv =>
    obtain ⟨rfl, rfl, rfl, rfl⟩ := h'.of_stops hb hv
    exact ⟨rfl, rfl, rfl, rfl⟩
  | goes hb hv _ ih =>
    obtain ⟨k₁, n₁, rfl, rfl, h₁⟩ := h'.of_goes hb hv
    obtain ⟨rfl, rfl, rfl, rfl⟩ := ih h₁
    exact ⟨rfl, rfl, rfl, rfl⟩

/-- What an execution has come to ends as the execution does. -/
theorem HaltsIn.rest (h : f.HaltsIn k m s n o cs) (hr : f.Reaches m s k' c m' s') :
    ∃ k₁ n₁, k = k' + k₁ ∧ n = c + n₁ ∧ f.HaltsIn k₁ m' s' n₁ o cs := by
  induction hr with
  | here => exact ⟨k, n, by simp, by simp, h⟩
  | goes _ hb hv ih =>
    obtain ⟨k₁, n₁, rfl, rfl, h₁⟩ := ih
    obtain ⟨k₂, n₂, rfl, rfl, h₂⟩ := h₁.of_goes hb hv
    exact ⟨k₂, n₂, by omega, by omega, h₂⟩

/-! ## Places that are reached -/

/-- **An execution from the entry comes to the block at `s` with the machine `m`.** -/
def Reachable (f : Func) (m : Machine) (s : Int) : Prop := ∃ m₀ k n, f.Reaches m₀ 0 k n m s

theorem Reachable.entry (m : Machine) : f.Reachable m 0 := ⟨m, 0, 0, .here⟩

theorem Reachable.of_reaches (h : f.Reachable m s) (hr : f.Reaches m s k n m' s') :
    f.Reachable m' s' := by
  obtain ⟨m₀, k₀, n₀, h⟩ := h
  exact ⟨m₀, _, _, h.trans hr⟩

theorem Reachable.goes {b : Block} (h : f.Reachable m s) (hb : f.block? s = some b)
    (hv : b.visit m = .goes m' c s') : f.Reachable m' s' := h.of_reaches (.single hb hv)

/-- **What holds at the entry and is kept by every visit holds wherever an execution comes.** -/
theorem Reachable.induct {P : Machine → Int → Prop} (entry : ∀ m, P m 0)
    (step : ∀ {m s b m' c s'}, f.Reachable m s → P m s → f.block? s = some b →
      b.visit m = .goes m' c s' → P m' s')
    (h : f.Reachable m s) : P m s := by
  obtain ⟨m₀, k, n, h⟩ := h
  induction h with
  | here => exact entry m₀
  | goes h hb hv ih => exact step ⟨m₀, _, _, h⟩ ih hb hv

/-- A place that is no entry was come to from another. -/
theorem Reachable.exists_pred (h : f.Reachable m s) (hs : s ≠ 0) :
    ∃ m₁ p b c, f.Reachable m₁ p ∧ f.block? p = some b ∧ b.visit m₁ = .goes m c s := by
  obtain ⟨m₀, k, n, h⟩ := h
  cases h with
  | here => exact absurd rfl hs
  | goes h hb hv => exact ⟨_, _, _, _, ⟨m₀, _, _, h⟩, hb, hv⟩

/-- **Wherever `g` comes among the places of `f`, with whatever machine, `f` comes too.** -/
def Covers (f g : Func) : Prop :=
  ∀ ⦃m s⦄, s < (f.blocks.length : Int) → g.Reachable m s → f.Reachable m s

theorem Covers.refl (f : Func) : f.Covers f := fun _ _ _ h => h

theorem Covers.trans {h : Func} (hfg : f.Covers g) (hgh : g.Covers h)
    (hlen : f.blocks.length ≤ g.blocks.length) : f.Covers h := fun _ _ hs hr =>
  hfg hs (hgh (by omega) hr)

/-! ## Simulation -/

/-- **Simulation.**  `R` relates where one execution stands to where the other stands.  If from
related places the first either ends as the second does, or comes in at least one visit to a place
that is related to one the second comes to in no more steps, then endings carry over. -/
theorem HaltsIn.simulate {R : Machine → Int → Machine → Int → Prop}
    (step : ∀ {m s m' s' k n cs}, R m s m' s' → f.HaltsIn k m s n o cs →
      g.EndsWithin m' s' n o cs ∨
        ∃ k₁ n₁ m₁ s₁ j c m₂ s₂, k₁ < k ∧ f.HaltsIn k₁ m₁ s₁ n₁ o cs ∧
          g.Reaches m' s' j c m₂ s₂ ∧ c + n₁ ≤ n ∧ R m₁ s₁ m₂ s₂)
    (hR : R m s m' s') (h : f.HaltsIn k m s n o cs) : g.EndsWithin m' s' n o cs := by
  induction k using Nat.strongRecOn generalizing m s n m' s' with
  | ind k ih =>
    rcases step hR h with hg | ⟨k₁, n₁, m₁, s₁, j, c, m₂, s₂, hk, h₁, hr, hn, hR₁⟩
    · exact hg
    · exact ((ih k₁ hk hR₁ h₁).of_reaches hr).mono hn

/-- **Simulation in any number of steps.**  If the second execution ends as the first does, and comes
from a related place to a related place for each visit of the first, endings carry over. -/
theorem HaltsIn.follow {R : Machine → Int → Machine → Int → Prop}
    (stops : ∀ {m s m' s' b m₁ c}, R m s m' s' → f.block? s = some b →
      b.visit m = .stops m₁ c o → ∃ n, g.EndsWithin m' s' n o m₁.calls)
    (goes : ∀ {m s m' s' b m₁ c t}, R m s m' s' → f.block? s = some b →
      b.visit m = .goes m₁ c t → ∃ k n m₁' t', 0 < n ∧ g.Reaches m' s' k n m₁' t' ∧ R m₁ t m₁' t')
    (hR : R m s m' s') (h : f.HaltsIn k m s n o cs) : ∃ n, g.EndsWithin m' s' n o cs := by
  induction h generalizing m' s' with
  | stops hb hv => exact stops hR hb hv
  | goes hb hv _ ih =>
    obtain ⟨k, n, m₁', t', -, hr, hR₁⟩ := goes hR hb hv
    obtain ⟨n', hends⟩ := ih stops hR₁
    exact ⟨n + n', hends.of_reaches hr⟩

/-- **…and the second execution takes a step at least for each visit of the first.** -/
theorem Reaches.follow {R : Machine → Int → Machine → Int → Prop}
    (goes : ∀ {m s m' s' b m₁ c t}, R m s m' s' → f.block? s = some b →
      b.visit m = .goes m₁ c t → ∃ k n m₁' t', 0 < n ∧ g.Reaches m' s' k n m₁' t' ∧ R m₁ t m₁' t')
    (hR : R m₀ s₀ m' s') (h : f.Reaches m₀ s₀ k n m s) :
    ∃ k' n' m₁ s₁, k ≤ n' ∧ g.Reaches m' s' k' n' m₁ s₁ ∧ R m s m₁ s₁ := by
  induction h with
  | here => exact ⟨0, 0, m', s', Nat.le_refl 0, .here, hR⟩
  | goes _ hb hv ih =>
    obtain ⟨k', n', m₁, s₁, hle, hr, hR₁⟩ := ih
    obtain ⟨k'', n'', m₂, s₂, hpos, hr', hR₂⟩ := goes hR₁ hb hv
    exact ⟨k' + k'', n' + n'', m₂, s₂, by omega, hr.trans hr', hR₂⟩

/-- **`g` does what `f` does**: whatever `f` returns, with the calls it makes on the way, `g` returns
with the same calls in no more steps. -/
def Refines (f g : Func) : Prop :=
  ∀ ⦃m n v cs⦄, f.EndsWithin m 0 n (.returned v) cs → g.EndsWithin m 0 n (.returned v) cs

theorem Refines.refl (f : Func) : f.Refines f := fun _ _ _ _ h => h

theorem Refines.trans {h : Func} (hfg : f.Refines g) (hgh : g.Refines h) : f.Refines h :=
  fun _ _ _ _ hf => hgh (hfg hf)

/-- Functions whose blocks are visited alike end alike. -/
theorem HaltsIn.congr
    (hfg : ∀ {s b}, f.block? s = some b → ∃ b', g.block? s = some b' ∧ ∀ m, b'.visit m = b.visit m)
    (h : f.HaltsIn k m s n o cs) : g.HaltsIn k m s n o cs := by
  induction h with
  | stops hb hv =>
    obtain ⟨b', hb', hvis⟩ := hfg hb
    exact .stops hb' ((hvis _).trans hv)
  | goes hb hv _ ih =>
    obtain ⟨b', hb', hvis⟩ := hfg hb
    exact .goes hb' ((hvis _).trans hv) ih

end Func

end Deflatten

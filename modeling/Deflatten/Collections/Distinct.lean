/-!
# Collections/Distinct — first occurrences, and sets kept as lists

`distinct` keeps the first of equal elements, in order.  `adjoin` adds an element at the end unless
it is there already, so a list built with it has no repetition.
-/

namespace Deflatten

variable {α : Type} [DecidableEq α]

/-- The elements of a list without repetitions, each where it first occurs. -/
def distinct : List α → List α
  | [] => []
  | x :: xs => x :: (distinct xs).filter fun y => y ≠ x

/-- Adds an element at the end unless it is present. -/
def adjoin (xs : List α) (x : α) : List α := if x ∈ xs then xs else xs ++ [x]

/-- Adds several elements in order, each unless it is present. -/
def adjoinAll (xs ys : List α) : List α := ys.foldl adjoin xs

@[simp] theorem mem_distinct {a : α} : ∀ {xs : List α}, a ∈ distinct xs ↔ a ∈ xs
  | [] => Iff.rfl
  | x :: xs => by
    have ih : a ∈ distinct xs ↔ a ∈ xs := mem_distinct
    by_cases h : a = x <;> simp [distinct, h, ih]

theorem nodup_distinct : ∀ xs : List α, (distinct xs).Nodup
  | [] => List.nodup_nil
  | x :: xs => by
    refine List.nodup_cons.mpr ⟨?_, (nodup_distinct xs).filter _⟩
    simp

@[simp] theorem mem_adjoin {a x : α} {xs : List α} : a ∈ adjoin xs x ↔ a ∈ xs ∨ a = x := by
  unfold adjoin
  split
  · constructor
    · exact Or.inl
    · rintro (h | rfl) <;> assumption
  · simp

@[simp] theorem mem_adjoinAll {a : α} : ∀ {ys xs : List α},
    a ∈ adjoinAll xs ys ↔ a ∈ xs ∨ a ∈ ys
  | [], _ => by simp [adjoinAll]
  | y :: ys, xs => by
    have ih : a ∈ adjoinAll (adjoin xs y) ys ↔ a ∈ adjoin xs y ∨ a ∈ ys := mem_adjoinAll
    simp only [adjoinAll, List.foldl_cons, List.mem_cons] at ih ⊢
    rw [ih, mem_adjoin, or_assoc]

end Deflatten

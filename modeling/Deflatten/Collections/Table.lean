/-!
# Collections/Table — finite maps as lists of bindings

A table holds at most one binding per key: `insert` drops the old one first.  Looking up after each
operation is one equation, so nothing else about the list is ever used.
-/

namespace Deflatten

/-- A finite map from `κ` to `ν`. -/
structure Table (κ ν : Type) where
  /-- The bindings, latest first. -/
  bindings : List (κ × ν) := []
deriving Repr, DecidableEq

namespace Table

variable {κ ν : Type} [DecidableEq κ]

/-- The table with no bindings. -/
def empty : Table κ ν := ⟨[]⟩

/-- The first binding of `k` in a list. -/
def find? (k : κ) : List (κ × ν) → Option ν
  | [] => none
  | (k', v) :: rest => if k' = k then some v else find? k rest

/-- The value bound to a key. -/
def get? (t : Table κ ν) (k : κ) : Option ν := find? k t.bindings

/-- The table without any binding of `k`. -/
def erase (t : Table κ ν) (k : κ) : Table κ ν := ⟨t.bindings.filter fun b => b.1 ≠ k⟩

/-- The table with `k` bound to `v`. -/
def insert (t : Table κ ν) (k : κ) (v : ν) : Table κ ν := ⟨(k, v) :: (t.erase k).bindings⟩

/-- Binds each pair in turn, so a later one wins. -/
def ofList (bs : List (κ × ν)) : Table κ ν := bs.foldl (fun t b => t.insert b.1 b.2) empty

@[simp] theorem get?_empty (k : κ) : (empty : Table κ ν).get? k = none := rfl

theorem find?_filter_ne {k k' : κ} (h : k' ≠ k) :
    ∀ bs : List (κ × ν), find? k (bs.filter fun b => b.1 ≠ k') = find? k bs
  | [] => rfl
  | (a, v) :: rest => by
    have ih := find?_filter_ne h rest
    by_cases ha : a = k'
    · subst ha
      simpa [find?, h] using ih
    · simp only [List.filter_cons, ne_eq, ha, not_false_eq_true, decide_true, if_true, find?]
      split
      · rfl
      · simpa using ih

theorem find?_filter_self (k : κ) :
    ∀ bs : List (κ × ν), find? k (bs.filter fun b => b.1 ≠ k) = none
  | [] => rfl
  | (a, v) :: rest => by
    have ih := find?_filter_self k rest
    by_cases ha : a = k
    · simpa [ha] using ih
    · simpa [find?, ha] using ih

/-- An erased key is unbound, and no other key notices. -/
@[simp] theorem get?_erase (t : Table κ ν) (k k' : κ) :
    (t.erase k').get? k = if k' = k then none else t.get? k := by
  by_cases h : k' = k
  · subst h
    simpa [get?, erase] using find?_filter_self k' t.bindings
  · simpa [get?, erase, h] using find?_filter_ne h t.bindings

/-- An inserted key has its new value, and no other key notices. -/
@[simp] theorem get?_insert (t : Table κ ν) (k k' : κ) (v : ν) :
    (t.insert k' v).get? k = if k' = k then some v else t.get? k := by
  by_cases h : k' = k
  · simp [get?, insert, find?, h]
  · have := get?_erase t k k'
    simpa [get?, insert, find?, h] using this

end Table

end Deflatten

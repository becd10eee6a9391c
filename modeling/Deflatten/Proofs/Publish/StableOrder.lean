import Deflatten.Publish.Diagnostics
import Mathlib.Data.Prod.Lex
import Mathlib.Data.String.Basic

/-!
# Proofs/Publish/StableOrder — what the order of problems depends on

Problems are shown by function and kind, and those of one function and kind as they came.  So two
lists are shown alike if and only if, function by function and kind by kind, the problems came in
the same order (`sorted_eq_iff`); and lists with the same problems always agree in the functions and
kinds they show (`map_place_sorted`).
-/

namespace Deflatten

theorem Text.byteLt_iff {a b : String} : Text.byteLt a b = true ↔ a < b := by
  rw [Text.byteLt, decide_eq_true_iff, String.lt_iff_toList_lt]

namespace Diagnostic

variable {a b d : Diagnostic} {ds es : List Diagnostic}

/-- **The place of a problem**: its function, then its kind. -/
def place (d : Diagnostic) : String ×ₗ String := toLex (d.func, d.kind)

theorem le_iff_place : le a b = true ↔ place a ≤ place b := by
  rw [le, place, place, Prod.Lex.toLex_le_toLex]
  split
  · next h => exact ⟨fun _ => .inl (Text.byteLt_iff.mp h), fun _ => rfl⟩
  · next h =>
    rw [Text.byteLt_iff, not_lt] at h
    split
    · next h' =>
      rw [Text.byteLt_iff] at h'
      simp [h'.ne', h'.not_gt]
    · next h' =>
      rw [Text.byteLt_iff, not_lt] at h'
      rw [Bool.not_eq_true', ← Bool.not_eq_true, Text.byteLt_iff, not_lt]
      simp [le_antisymm h' h]

theorem le_of_le_of_le (a b c : Diagnostic) (hab : le a b = true) (hbc : le b c = true) :
    le a c = true :=
  le_iff_place.mpr ((le_iff_place.mp hab).trans (le_iff_place.mp hbc))

theorem le_or_le (a b : Diagnostic) : (le a b || le b a) = true := by
  rw [Bool.or_eq_true, le_iff_place, le_iff_place]
  exact le_total _ _

theorem perm_sorted (ds : List Diagnostic) : (sorted ds).Perm ds := List.mergeSort_perm ..

theorem pairwise_sorted (ds : List Diagnostic) :
    (sorted ds).Pairwise fun a b => place a ≤ place b :=
  (List.pairwise_mergeSort le_of_le_of_le le_or_le ds).imp le_iff_place.mp

/-- Problems of one place are already in order. -/
theorem pairwise_le_of_place (h : ∀ a ∈ ds, ∀ b ∈ ds, place a = place b) : ds.Pairwise (le · ·) :=
  List.pairwise_of_forall_mem_list fun a ha b hb => le_iff_place.mpr (h a ha b hb).le

theorem sorted_of_place (h : ∀ a ∈ ds, ∀ b ∈ ds, place a = place b) : sorted ds = ds :=
  List.mergeSort_of_pairwise (pairwise_le_of_place h)

/-- Problems of one place are shown as they came. -/
theorem filter_sorted (k : String ×ₗ String) (ds : List Diagnostic) :
    (sorted ds).filter (place · = k) = ds.filter (place · = k) := by
  have hplace : ∀ d ∈ ds.filter (place · = k), place d = k := by simp
  have hties : (ds.filter (place · = k)).Pairwise (le · ·) :=
    pairwise_le_of_place fun a ha b hb => (hplace a ha).trans (hplace b hb).symm
  have hsub := (List.sublist_mergeSort le_of_le_of_le le_or_le hties List.filter_sublist).filter
    (place · = k)
  rw [List.filter_filter] at hsub
  simp only [Bool.and_self] at hsub
  exact (hsub.eq_of_length ((perm_sorted ds).filter _).length_eq.symm).symm

theorem mem_iff_of_filter_place (h : ∀ k, ds.filter (place · = k) = es.filter (place · = k)) :
    d ∈ ds ↔ d ∈ es := by
  have hd : d ∈ ds.filter (place · = place d) ↔ d ∈ es.filter (place · = place d) := by
    rw [h (place d)]
  simpa using hd

/-- Lists in order that agree at each place are equal. -/
theorem eq_of_filter_place (hds : ds.Pairwise fun a b => place a ≤ place b)
    (hes : es.Pairwise fun a b => place a ≤ place b)
    (h : ∀ k, ds.filter (place · = k) = es.filter (place · = k)) : ds = es := by
  induction ds generalizing es with
  | nil =>
    refine (List.eq_nil_iff_forall_not_mem.mpr fun e he => ?_).symm
    exact List.not_mem_nil ((mem_iff_of_filter_place h).mpr he)
  | cons d ds ih =>
    obtain _ | ⟨e, es⟩ := es
    · exact absurd ((mem_iff_of_filter_place h).mp List.mem_cons_self) List.not_mem_nil
    rw [List.pairwise_cons] at hds hes
    -- each of the two heads is somewhere in the other list, so neither comes after the other
    have hde : place d ≤ place e := by
      obtain rfl | he := List.mem_cons.mp ((mem_iff_of_filter_place h).mpr List.mem_cons_self)
      · exact le_rfl
      · exact hds.1 e he
    have hed : place e ≤ place d := by
      obtain rfl | hd := List.mem_cons.mp ((mem_iff_of_filter_place h).mp List.mem_cons_self)
      · exact le_rfl
      · exact hes.1 d hd
    obtain rfl : d = e := by
      have hk := h (place d)
      rw [List.filter_cons_of_pos (by simp),
        List.filter_cons_of_pos (by simp [le_antisymm hed hde])] at hk
      exact (List.cons.inj hk).1
    refine congrArg (d :: ·) (ih hds.2 hes.2 fun k => ?_)
    have hk := h k
    by_cases hd : place d = k
    · rw [List.filter_cons_of_pos (by simpa), List.filter_cons_of_pos (by simpa)] at hk
      exact (List.cons.inj hk).2
    · rwa [List.filter_cons_of_neg (by simpa), List.filter_cons_of_neg (by simpa)] at hk

/-- **Two lists are shown alike** if and only if the problems of each place came alike. -/
theorem sorted_eq_iff : sorted ds = sorted es ↔
    ∀ k, ds.filter (place · = k) = es.filter (place · = k) := by
  refine ⟨fun h k => ?_, fun h => ?_⟩
  · rw [← filter_sorted k ds, ← filter_sorted k es, h]
  · refine eq_of_filter_place (pairwise_sorted ds) (pairwise_sorted es) fun k => ?_
    rw [filter_sorted, filter_sorted, h]

/-- The places that are shown do not depend on how the problems came. -/
theorem map_place_sorted (h : ds.Perm es) :
    (sorted ds).map place = (sorted es).map place := by
  have hperm : ((sorted ds).map place).Perm ((sorted es).map place) :=
    (((perm_sorted ds).trans h).trans (perm_sorted es).symm).map place
  exact hperm.eq_of_pairwise (fun _ _ _ _ => le_antisymm)
    (List.pairwise_map.mpr (pairwise_sorted ds)) (List.pairwise_map.mpr (pairwise_sorted es))

end Diagnostic

end Deflatten

import Mathlib.Logic.Relation
import Mathlib.Tactic.Common
import Deflatten.Microcode.Operand

/-!
# Proofs/Microcode/Sameness — what the comparison of operands identifies

Which fields a comparison looks at depends on the kind, and whether sizes count.  Blanking the rest
gives the core of an operand, and two operands compare equal exactly if their cores are equal
(`Operand.same_iff_core_eq`): with or without sizes, the comparison is an equivalence.

The two comparisons see a literal differently.  With sizes its low bytes count, without them the
whole value does, so leaving sizes out does not only identify more: operands that are the same with
their sizes are the same without them exactly if their literals agree in all bytes
(`Operand.same_equivalences`).  Literals that are cut to their size do.
-/

namespace Deflatten

variable {ignoreSize : Bool}

/-! ## Cores -/

/-- What counts of the value of a literal: its low bytes, or all of it if sizes do not count. -/
def Fields.counted (ignoreSize : Bool) (f : Fields) : UInt64 :=
  if ignoreSize then f.value else truncate f.value f.size

/-- **The fields that a comparison looks at**, the others being blank. -/
def Fields.core (ignoreSize : Bool) (f : Fields) : Fields :=
  let sized : Fields := { kind := f.kind, size := if ignoreSize then 0 else f.size }
  match f.kind with
  | .none | .expr => sized
  | .imm => { sized with value := f.counted ignoreSize }
  | .reg => { sized with reg := f.reg }
  | .stack => { sized with reg := f.reg, off := f.off }
  | .global => { sized with addr := f.addr }
  | .block => { sized with block := f.block }

@[simp] theorem Fields.kind_core (f : Fields) : (f.core ignoreSize).kind = f.kind := by
  cases hk : f.kind <;> simp [core, hk]

theorem Fields.kind_eq_of_core {f g : Fields} (h : f.core ignoreSize = g.core ignoreSize) :
    f.kind = g.kind := by
  simpa using congrArg Fields.kind h

theorem Fields.same_iff_core_eq (f g : Fields) :
    f.same ignoreSize g = true ↔ f.core ignoreSize = g.core ignoreSize := by
  by_cases hk : f.kind = g.kind
  · cases ignoreSize <;> cases hf : f.kind <;> simp [same, core, counted, hf, ← hk]
  · have hne : f.core ignoreSize ≠ g.core ignoreSize := fun h => hk (kind_eq_of_core h)
    simp [same, hk, hne]

theorem Fields.value_core {f : Fields} (hf : f.kind = .imm) :
    (f.core ignoreSize).value = f.counted ignoreSize := by
  simp [core, hf]

theorem Fields.core_true_eq {f g : Fields} (h : f.core false = g.core false)
    (hv : f.kind = .imm → f.value = g.value) : f.core true = g.core true := by
  obtain ⟨kind, _⟩ := f
  obtain ⟨kind', _⟩ := g
  obtain rfl : kind = kind' := kind_eq_of_core h
  cases kind <;> simp_all [core, counted]

namespace Operand

variable {a b : Operand}

/-- **What a comparison looks at**: the fields, and of a nested instruction that counts the
operation and the two sources. -/
def core (ignoreSize : Bool) : Operand → Operand
  | plain f => plain (f.core ignoreSize)
  | nested f op l r _ =>
    if f.kind = .expr then
      nested (f.core ignoreSize) op (l.core ignoreSize) (r.core ignoreSize) empty
    else plain (f.core ignoreSize)

/-- **Operands are the same exactly if their cores are equal.** -/
theorem same_iff_core_eq (a b : Operand) :
    a.same ignoreSize b = true ↔ a.core ignoreSize = b.core ignoreSize := by
  induction a generalizing b with
  | plain f =>
    cases b <;> simp only [same, core, Bool.and_eq_true, Fields.same_iff_core_eq] <;>
      grind [Fields.kind_eq_of_core]
  | nested f op l r d ihl ihr _ =>
    cases b <;> simp only [same, core, Bool.and_eq_true, Fields.same_iff_core_eq] <;>
      grind [Fields.kind_eq_of_core]

/-- With or without sizes, **the comparison is an equivalence**. -/
theorem equivalence_same (ignoreSize : Bool) :
    Equivalence fun a b : Operand => a.same ignoreSize b = true := by
  simp only [same_iff_core_eq]
  exact eq_equivalence.comap (core ignoreSize)

/-! ## Literals -/

/-- **The literals that an operand computes with**, from left to right. -/
def literals : Operand → List Fields
  | plain f => if f.kind = .imm then [f] else []
  | nested f _ l r _ =>
    if f.kind = .expr then l.literals ++ r.literals else if f.kind = .imm then [f] else []

/-- Every literal is cut to its size. -/
def Trimmed (o : Operand) : Prop := ∀ f ∈ o.literals, truncate f.value f.size = f.value

instance (o : Operand) : Decidable o.Trimmed := inferInstanceAs (Decidable (∀ f ∈ o.literals, _))

@[simp] theorem literals_core (o : Operand) :
    (o.core ignoreSize).literals = o.literals.map (Fields.core ignoreSize) := by
  induction o with
  | plain f => by_cases hf : f.kind = .imm <;> simp [core, literals, hf]
  | nested f op l r d ihl ihr _ =>
    by_cases hf : f.kind = .expr
    · simp [core, literals, hf, ihl, ihr]
    · by_cases hf' : f.kind = .imm <;> simp [core, literals, hf, hf']

theorem kind_of_mem_literals {o : Operand} {f : Fields} (h : f ∈ o.literals) : f.kind = .imm := by
  induction o with
  | plain g => grind [literals]
  | nested g op l r d ihl ihr _ => grind [literals]

/-- The literals of operands that are the same agree in what counts of them. -/
theorem map_counted_literals (h : a.core ignoreSize = b.core ignoreSize) :
    a.literals.map (Fields.counted ignoreSize) = b.literals.map (Fields.counted ignoreSize) := by
  have hvalue : ∀ o : Operand, o.literals.map (Fields.counted ignoreSize) =
      (o.core ignoreSize).literals.map Fields.value := by
    intro o
    rw [literals_core, List.map_map]
    exact List.map_congr_left fun f hf => (Fields.value_core (kind_of_mem_literals hf)).symm
  rw [hvalue, hvalue, h]

/-- Sizes apart, operands differ in nothing but what their literals have beyond their sizes. -/
theorem core_true_eq (h : a.core false = b.core false)
    (hv : a.literals.map Fields.value = b.literals.map Fields.value) :
    a.core true = b.core true := by
  induction a generalizing b with
  | plain f => cases b <;> grind [core, literals, Fields.core_true_eq, Fields.kind_eq_of_core]
  | nested f op l r d ihl ihr _ =>
    cases b with
    | plain g => grind [core, literals, Fields.core_true_eq, Fields.kind_eq_of_core]
    | nested g op' l' r' d' =>
      by_cases hf : f.kind = .expr
      · have hg : g.kind = .expr := by
          by_contra hg
          simp [core, hf, hg] at h
        simp only [core, hf, hg, if_true, nested.injEq] at h
        obtain ⟨hfields, rfl, hl, hr, -⟩ := h
        simp only [literals, hf, hg, if_true, List.map_append] at hv
        -- sources that are the same have as many literals, so the lists come apart where they
        -- were joined
        have hlen :
            (l.literals.map Fields.value).length = (l'.literals.map Fields.value).length := by
          simpa using congrArg (fun o : Operand => o.literals.length) hl
        obtain ⟨hvl, hvr⟩ := List.append_inj hv hlen
        have hfields' := Fields.core_true_eq hfields fun h => by simp [hf] at h
        simp only [core, hf, hg, if_true, ihl hl hvl, ihr hr hvr, hfields']
      · grind [core, literals, Fields.core_true_eq, Fields.kind_eq_of_core]

/-- **Sameness of operands.**  With and without sizes it is an equivalence.  Operands that are the
same with their sizes are the same without them exactly if their literals agree in all bytes, which
they do if they are cut to their sizes. -/
theorem same_equivalences (a b : Operand) :
    (∀ ignoreSize, Equivalence fun a b : Operand => a.same ignoreSize b = true) ∧
      (a.same false b = true →
        (a.same true b = true ↔ a.literals.map Fields.value = b.literals.map Fields.value) ∧
        (a.Trimmed → b.Trimmed → a.same true b = true)) := by
  refine ⟨equivalence_same, fun h => ?_⟩
  rw [same_iff_core_eq] at h
  have hiff : a.same true b = true ↔ a.literals.map Fields.value = b.literals.map Fields.value :=
    ⟨fun h' => map_counted_literals ((same_iff_core_eq a b).mp h'),
      fun hv => (same_iff_core_eq a b).mpr (core_true_eq h hv)⟩
  refine ⟨hiff, fun ha hb => hiff.mpr ?_⟩
  calc a.literals.map Fields.value
      = a.literals.map (Fields.counted false) := (List.map_congr_left ha).symm
    _ = b.literals.map (Fields.counted false) := map_counted_literals h
    _ = b.literals.map Fields.value := List.map_congr_left hb

theorem same_masked :
    let masked (name : String) (dest : Operand) : Operand :=
      .derived .and (.global 0x1000 name 4) (.imm 0x1ff 1) dest
    masked "x" .empty ≠ masked "y" (.register 0 4) ∧
      (masked "x" .empty).same false (masked "y" (.register 0 4)) = true ∧
      (masked "x" .empty).Trimmed ∧ (masked "y" (.register 0 4)).Trimmed ∧
      (masked "x" .empty).same true (masked "y" (.register 0 4)) = true :=
  ⟨by decide, by decide, by decide, by decide,
    ((same_equivalences _ _).2 (by decide)).2 (by decide) (by decide)⟩

/-- Two literals of one byte that differ beyond it are the same with their sizes and differ
without. -/
theorem same_overfull :
    let literal (v : UInt64) : Operand := plain { kind := .imm, size := 1, value := v }
    (literal 0x155).same false (literal 0x55) = true ∧
      (literal 0x155).same true (literal 0x55) = false := by
  decide

end Operand

end Deflatten

import Deflatten.Proofs.Execution.Knowledge

/-!
# Proofs/Execution/Freshness — constants that are tracked are never stale

A partial environment goes through the instructions of a list with `Env.exec`, while the interpreter
goes through them with steps of its own: calls, loads and stores are its business, and what was never
set is set to zero before it is read (`Env.fill`).  The two can differ in what they know, never in what
they say (`Env.Holds.value_of_pass`).
-/

namespace Deflatten

/-! ## Setting to zero what is read -/

namespace Env

/-- **The environment in which the variables of a list are set**, to zero if they were not. -/
def fill (e : Env) (vs : List Var) : Env :=
  vs.foldl (fun e v => if (e.get? v).isSome then e else e.insert v 0) e

theorem get?_fill (e : Env) (vs : List Var) (v : Var) :
    (e.fill vs).get? v = if v ∈ vs then some ((e.get? v).getD 0) else e.get? v := by
  induction vs generalizing e with
  | nil => rfl
  | cons w vs ih =>
    -- setting `w` changes what `w` is, and that only if it was nothing
    have hone : ∀ u, (if (e.get? w).isSome then e else e.insert w 0).get? u =
        if u = w then some ((e.get? w).getD 0) else e.get? u := by
      intro u
      by_cases hu : u = w
      · subst hu
        cases hx : e.get? u <;> simp [hx]
      · rw [if_neg hu]
        split
        · rfl
        · rw [Table.get?_insert, if_neg (Ne.symm hu)]
    rw [fill, List.foldl_cons]
    refine (ih _).trans ?_
    rw [hone]
    by_cases hvw : v = w <;> simp [hvw]

end Env

namespace Machine

/-- **Reading zero where nothing is set** is setting the variables of an operand to zero first. -/
theorem value?_fill (m : Machine) (o : Operand) :
    (m.vars.fill o.reads).value? o = o.value? fun v => some (m.read v) :=
  Operand.value?_congr fun v hv => by rw [Env.get?_fill, if_pos hv, read]

/-! ## Lists of instructions -/

/-- **Instructions that are passed are performed.** -/
theorem perform_of_pass {is : List Insn} {m m' : Machine} {left left' : Nat} {next next' : Int}
    (hp : Plain is) (h : m.pass left next is = .through m' left' next') :
    m.perform is = .done m' := by
  induction is generalizing m left with
  | nil =>
    rw [pass] at h
    cases h
    rfl
  | cons i is ih =>
    obtain ⟨hi, his⟩ := List.forall_mem_cons.mp hp
    cases left with
    | zero => cases h
    | succ left =>
      rcases m.step_of_plain hi with ⟨m₁, hs⟩ | hs
      · rw [pass, hs] at h
        exact perform_cons_eq_done.mpr ⟨m₁, hs, ih his h⟩
      · rw [pass, hs] at h
        cases h

end Machine

/-- **Constant tracking never holds a stale value.**  Let instructions that neither jump nor return be
executed to the end of their list.  If all that an environment knows held of the machine before, what it
knows after executing them holds of the machine after them; and where it gives a value to an operand,
that is the value the interpreter computes, with the variables of the operand set to zero where they
were not set. -/
theorem Env.Holds.value_of_pass {e : Env} {m m' : Machine} {is : List Insn} {left left' : Nat}
    {next next' : Int} (h : e.Holds m) (hp : ∀ i ∈ is, i.op.endsBlock = false)
    (hrun : m.pass left next is = .through m' left' next') :
    Env.Holds (is.foldl Env.exec e) m' ∧
      ∀ (o : Operand) (x : UInt64), Env.value? (is.foldl Env.exec e) o = some x →
        m'.value o = x ∧ (m'.vars.fill o.reads).value? o = some x := by
  have hafter : Env.Holds (is.foldl Env.exec e) m' := h.perform hp (Machine.perform_of_pass hp hrun)
  refine ⟨hafter, fun o x hx => ⟨hafter.value hx, ?_⟩⟩
  exact (m'.value?_fill o).trans
    (Operand.value?_mono (fun v y hy => congrArg some (hafter v y hy)) hx)

/-- A sum is computed, passed to a call that overwrites a summand, stored and loaded again, and squared
into a slot. -/
def spill : List Insn :=
  let r (n : Int) := Operand.register n 4
  [.binary .add (r 1) (.imm 2 4) (r 3), .call (.global 64 "f" 8) (r 3) (r 1),
    { op := .stx, l := r 2, r := r 3 }, { op := .ldx, l := r 3, d := r 4 }, .mov (r 4) (r 5),
    .mov (.derived .mul (r 3) (r 3) .empty) (.stack 8 1)]

/-- What is known of the sum and of the slot holds after the call, though the summand is not known any
more; the value of an operand on both is the interpreter's. -/
theorem value_of_pass_spill : ∃ m' : Machine,
    Machine.pass { vars := .ofList [(.reg 1, 5), (.reg 2, 9)] } 6 1 spill = .through m' 0 1 ∧
      Env.Holds (spill.foldl Env.exec (.ofList [(.reg 1, 5)])) m' ∧
      (spill.foldl Env.exec (.ofList [(.reg 1, 5)])).get? (.reg 1) = none ∧
      m'.value (.derived .xor (.stack 8 1) (.register 3 1) .empty) = 54 := by
  have hknown : Env.Holds (.ofList [(.reg 1, 5)])
      { vars := .ofList [(.reg 1, 5), (.reg 2, 9)] } := Env.holds_ofList_singleton rfl
  have hplain : ∀ i ∈ spill, i.op.endsBlock = false := by decide
  refine ⟨_, rfl, ?_⟩
  obtain ⟨hafter, hvalue⟩ := hknown.value_of_pass hplain
    (show Machine.pass _ 6 1 spill = .through _ 0 1 from rfl)
  exact ⟨hafter, rfl, (hvalue _ 54 (by decide)).1⟩

end Deflatten

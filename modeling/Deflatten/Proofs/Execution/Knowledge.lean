import Deflatten.Dispatch.Region
import Deflatten.Proofs.Execution.Agreement

/-!
# Proofs/Execution/Knowledge — what an environment knows is true

`Env.Holds e m` says that every variable bound in `e` has its value in `m`.  Data instructions keep it
(`Env.Holds.perform`), so a block whose exit the environment decides is left by that exit
(`Block.leave_of_choose?`).
-/

namespace Deflatten

/-! ## Values that are known -/

theorem Fields.value?_mono {r r' : Var → Option UInt64} (h : ∀ v x, r v = some x → r' v = some x)
    {f : Fields} {y : UInt64} (hy : f.value? r = some y) : f.value? r' = some y := by
  unfold value? at hy ⊢
  by_cases hk : f.kind = .imm
  · simpa [hk] using hy
  · simp only [hk, if_false, Option.map_eq_some_iff, Option.bind_eq_some_iff] at hy ⊢
    obtain ⟨x, ⟨v, hv, hx⟩, rfl⟩ := hy
    exact ⟨x, ⟨v, hv, h v x hx⟩, rfl⟩

/-- **More knowledge changes no value that is known.** -/
theorem Operand.value?_mono {r r' : Var → Option UInt64} (h : ∀ v x, r v = some x → r' v = some x) :
    ∀ {o : Operand} {y : UInt64}, o.value? r = some y → o.value? r' = some y
  | .plain f, _, hy => Fields.value?_mono h hy
  | .nested f op l r₁ d, y, hy => by
    unfold value? at hy ⊢
    by_cases hk : f.kind = .expr
    · simp only [hk, if_true, Option.bind_eq_some_iff] at hy ⊢
      obtain ⟨x, hx, hy⟩ := hy
      refine ⟨x, value?_mono h hx, ?_⟩
      by_cases hu : op.isUnary
      · simpa [hu] using hy
      · simp only [hu, if_false, Option.bind_eq_some_iff, Bool.false_eq_true] at hy ⊢
        obtain ⟨z, hz, hy⟩ := hy
        exact ⟨z, value?_mono h hz, hy⟩
    · simp only [hk, if_false] at hy ⊢
      exact Fields.value?_mono h hy

theorem Insn.result?_mono {r r' : Var → Option UInt64} (h : ∀ v x, r v = some x → r' v = some x)
    {i : Insn} {y : UInt64} (hy : i.result? r = some y) : i.result? r' = some y := by
  unfold result? at hy ⊢
  simp only [Option.bind_eq_some_iff] at hy ⊢
  obtain ⟨x, hx, hy⟩ := hy
  refine ⟨x, Operand.value?_mono h hx, ?_⟩
  by_cases hu : i.op.isUnary
  · simpa [hu] using hy
  · simp only [hu, if_false, Option.bind_eq_some_iff, Bool.false_eq_true] at hy ⊢
    obtain ⟨z, hz, hy⟩ := hy
    exact ⟨z, Operand.value?_mono h hz, hy⟩

/-- What has a known result is a data operation. -/
theorem Insn.isData_of_result? {r : Var → Option UInt64} {i : Insn} {y : UInt64}
    (h : i.result? r = some y) (hi : i.op.endsBlock = false) : i.op.isData = true := by
  unfold result? at h
  simp only [Option.bind_eq_some_iff] at h
  obtain ⟨x, -, h⟩ := h
  cases hop : i.op <;>
    simp_all [Opcode.isData, Opcode.isUnary, Opcode.compute?, Opcode.endsBlock, Opcode.isJump,
      Opcode.isConditional]

/-! ## Environments and machines -/

/-- **What the environment knows holds of the machine.** -/
def Env.Holds (e : Env) (m : Machine) : Prop := ∀ v x, e.get? v = some x → m.read v = x

namespace Env

variable {e : Env} {m m' : Machine}

theorem holds_empty (m : Machine) : Env.Holds Table.empty m := fun v x h => by simp at h

theorem holds_ofList_singleton {v : Var} {x : UInt64} (h : m.read v = x) :
    Env.Holds (Table.ofList [(v, x)]) m := by
  intro w y hw
  simp only [Table.ofList, List.foldl_cons, List.foldl_nil, Table.get?_insert] at hw
  split at hw
  · next hvw => rw [← hvw, h, Option.some.inj hw]
  · simp at hw

theorem Holds.value (h : e.Holds m) {o : Operand} {x : UInt64} (hx : e.value? o = some x) :
    m.value o = x := by
  have hm : o.value? (fun v => some (m.read v)) = some x :=
    Operand.value?_mono (fun v y hy => congrArg some (h v y hy)) hx
  simp [Machine.value, hm]

/-- **A data instruction keeps knowledge true.** -/
theorem Holds.step (h : e.Holds m) {i : Insn} (hi : i.op.endsBlock = false)
    (hs : m.step i = .next m') : (e.exec i).Holds m' := by
  intro v x hv
  unfold exec at hv
  cases hd : i.def? with
  | none =>
    rw [hd] at hv
    rw [Machine.read_of_step hi hs (by simp [hd])]
    exact h v x hv
  | some w =>
    simp only [hd, get?_assign] at hv
    by_cases hwv : w = v
    · -- the result was known, so the operation computes it, and from the same operands
      subst hwv
      rw [if_pos rfl] at hv
      have hres : (i.result? fun v => some (m.read v)) = some x :=
        Insn.result?_mono (fun v y hy => congrArg some (h v y hy)) hv
      have hdata := Insn.isData_of_result? hv hi
      rcases m.step_cases hi with ⟨hop, _⟩ | ⟨hop, _⟩ | ⟨hop, _⟩ | ⟨hop, _⟩ | ⟨hop, _⟩ |
        ⟨_, hd', _⟩ | ⟨_, w', hd', h₁⟩
      all_goals first
        | (rw [hop] at hdata; cases hdata)
        | (rw [hd] at hd'; cases hd')
      rw [hs, hres] at h₁
      simp [Effect.next.inj h₁, Machine.read]
    · rw [if_neg hwv] at hv
      rw [Machine.read_of_step hi hs (by rw [hd]; simpa using hwv)]
      exact h v x hv

/-- **Instructions in a row keep knowledge true.** -/
theorem Holds.perform {is : List Insn} (h : e.Holds m) (hp : Plain is)
    (hm : m.perform is = .done m') : Holds (is.foldl exec e) m' := by
  induction is generalizing e m with
  | nil =>
    obtain rfl := Performed.done.inj hm
    exact h
  | cons i is ih =>
    obtain ⟨m₁, hs, hm⟩ := Machine.perform_cons_eq_done.mp hm
    exact ih (h.step (hp i (by simp)) hs) (fun j hj => hp j (by simp [hj])) hm

end Env

namespace Block

variable {b : Block} {e : Env} {m : Machine} {s : Int}

/-- **Where the environment decides a block to go, it goes.** -/
theorem leave_of_choose? (h : e.Holds m) (hs : b.choose? e = some s) : b.leave m = .toward s := by
  unfold choose? at hs
  cases ht : b.terminator? with
  | none =>
    simp only [ht] at hs
    split at hs
    · cases hs
    · rw [leave_none ht, Option.some.inj hs]
  | some t =>
    simp only [ht] at hs
    split at hs
    · next hg => rw [leave_goto ht hg, Option.some.inj hs]
    · split at hs
      · simp only [Option.pure_def, Option.bind_eq_bind, Option.bind_eq_some_iff] at hs
        obtain ⟨l, hl, r, hr, taken, htest, hs⟩ := hs
        rw [← h.value hl, ← h.value hr] at htest
        rw [leave_conditional ht htest, Option.some.inj hs]
      · cases hs

theorem holds_execBody {m' : Machine} (h : e.Holds m) (hp : Plain b.body)
    (hm : m.perform b.body = .done m') : (b.execBody e).Holds m' := h.perform hp hm

end Block

end Deflatten

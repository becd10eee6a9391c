import Mathlib.Tactic.Common
import Deflatten.Microcode.Run

/-!
# Proofs/Execution/Visit — what one visit to a block does

    block = body ++ terminator            visit = perform the body, then leave by the terminator

A visit either goes on to another block or stops the execution, and `Block.visit` says which, with
the steps it takes.  `Machine.pass_eq` ties it to the budgeted `Machine.pass`: within its budget a
pass is the visit, beyond it the pass is exhausted.
-/

namespace Deflatten

/-! ## Bodies and terminators -/

/-- Instructions that neither jump nor return. -/
def Plain (is : List Insn) : Prop := ∀ i ∈ is, i.op.endsBlock = false

theorem plain_nil : Plain [] := fun _ h => nomatch h

theorem Plain.append {is js : List Insn} (hi : Plain is) (hj : Plain js) : Plain (is ++ js) :=
  fun i h => (List.mem_append.mp h).elim (hi i) (hj i)

namespace Block

variable {b : Block} {t : Insn} {is : List Insn}

@[simp] theorem insns_ofInsns (s : Int) (is : List Insn) : (ofInsns s is).insns = is := by
  cases is <;> rfl

theorem endsBlock_of_terminator? (h : b.terminator? = some t) : t.op.endsBlock = true :=
  (Option.filter_eq_some_iff.mp h).2

/-- **A block is its body and its terminator.** -/
theorem insns_eq (b : Block) : b.insns = b.body ++ b.terminator?.toList := by
  unfold body
  cases h : b.terminator? with
  | none => simp
  | some t =>
    have ht : b.insns.getLast? = some t := (Option.filter_eq_some_iff.mp h).1
    obtain ⟨is, his⟩ := List.getLast?_eq_some_iff.mp ht
    simp [his]

/-- A block that lists an ending instruction last has it as its terminator. -/
theorem terminator?_of_append (h : b.insns = is ++ [t]) (ht : t.op.endsBlock = true) :
    b.terminator? = some t := by
  simp [terminator?, tail?, h, ht]

theorem body_of_append (h : b.insns = is ++ [t]) (ht : t.op.endsBlock = true) : b.body = is := by
  simp [body, terminator?_of_append h ht, h]

/-- A block without ending instructions has no terminator. -/
theorem terminator?_of_plain (h : Plain b.insns) : b.terminator? = none := by
  unfold terminator? tail?
  cases hl : b.insns.getLast? with
  | none => rfl
  | some t => simp [h t (List.mem_of_getLast? hl)]

theorem body_of_plain (h : Plain b.insns) : b.body = b.insns := by
  simp [body, terminator?_of_plain h]

theorem body_eq_insns (h : b.terminator? = none) : b.body = b.insns := by
  simp [body, h]

theorem insns_eq_append (h : b.terminator? = some t) : b.insns = b.body ++ [t] := by
  rw [insns_eq b, h]
  rfl

theorem length_body_le (b : Block) : b.body.length ≤ b.insns.length := by
  rw [insns_eq b, List.length_append]
  omega

end Block

/-- **Only the last instruction may end a block** exactly when the body is plain. -/
theorem Block.plain_dropLast_iff (b : Block) : Plain b.insns.dropLast ↔ Plain b.body := by
  cases h : b.terminator? with
  | some t => rw [insns_eq_append h, List.dropLast_concat]
  | none =>
    rw [body_eq_insns h]
    refine ⟨fun hp i hi => ?_, fun hp i hi => hp i (List.dropLast_subset _ hi)⟩
    cases hl : b.insns.getLast? with
    | none => simp [List.getLast?_eq_none_iff.mp hl] at hi
    | some t =>
      obtain ⟨is, his⟩ := List.getLast?_eq_some_iff.mp hl
      rw [his, List.dropLast_concat] at hp
      rw [his, List.mem_append, List.mem_singleton] at hi
      rcases hi with hi | rfl
      · exact hp i hi
      · simpa [terminator?, tail?, hl] using h

/-- **No instruction ends a block early** exactly when the body is plain. -/
theorem firstEarlyEnd?_eq_none_iff (b : Block) :
    Func.firstEarlyEnd? b.insns = none ↔ Plain b.body := by
  have key : ∀ is : List Insn, Func.firstEarlyEnd? is = none ↔ Plain is.dropLast := by
    intro is
    induction is with
    | nil => simp [Func.firstEarlyEnd?, Plain]
    | cons i is ih =>
      cases is with
      | nil => simp [Func.firstEarlyEnd?, Plain]
      | cons j is =>
        simp only [Func.firstEarlyEnd?, List.dropLast_cons_cons, Plain, List.mem_cons,
          forall_eq_or_imp]
        cases h : i.op.endsBlock with
        | true => simp
        | false => simpa [Plain] using ih
  rw [key, b.plain_dropLast_iff]

/-! ## Performing a body -/

/-- How far the instructions of a body brought a machine. -/
inductive Performed where
  /-- Through all of them. -/
  | done (m : Machine)
  /-- To one that needs an undefined value, after so many steps, that one included. -/
  | undefined (m : Machine) (steps : Nat)
deriving DecidableEq, Repr

namespace Performed

/-- The same, so many steps later. -/
def later (n : Nat) : Performed → Performed
  | done m => done m
  | undefined m steps => undefined m (n + steps)

@[simp] theorem later_done (n : Nat) (m : Machine) : (done m).later n = done m := rfl

@[simp] theorem later_undefined (n steps : Nat) (m : Machine) :
    (undefined m steps).later n = undefined m (n + steps) := rfl

@[simp] theorem later_eq_done {n : Nat} {p : Performed} {m : Machine} :
    p.later n = done m ↔ p = done m := by cases p <;> simp [later]

end Performed

/-! ### Single instructions -/

namespace Opcode

/-- What may stand last in a block: a return, a jump, a conditional jump. -/
theorem cases_of_endsBlock {op : Opcode} (h : op.endsBlock = true) :
    op = .ret ∨ op = .goto ∨ op.isConditional = true := by
  cases op <;> simp_all [endsBlock, isJump, isConditional]

theorem test?_of_isConditional {op : Opcode} (h : op.isConditional = true) (l r : UInt64)
    (size : Int) : ∃ taken, op.test? l r size = some taken := by
  cases op <;> simp_all [isConditional, test?]

theorem ne_of_isConditional {op : Opcode} (h : op.isConditional = true) :
    op ≠ .ret ∧ op ≠ .goto := by
  cases op <;> simp_all [isConditional]

theorem isConditional_of_test? {op : Opcode} {l r : UInt64} {size : Int} {taken : Bool}
    (h : op.test? l r size = some taken) : op.isConditional = true := by
  cases op <;> simp_all [isConditional, test?]

end Opcode

namespace Machine

variable {m m' m'' : Machine} {i t : Insn} {is : List Insn} {n : Nat}

theorem step_ret (m : Machine) (h : t.op = .ret) :
    m.step t = .finish (if t.l.isNone then 0 else m.value t.l) := by simp only [step, h]

theorem step_goto (m : Machine) (h : t.op = .goto) : m.step t = .jump t.d.block := by
  simp only [step, h]

theorem step_conditional (m : Machine) {taken : Bool}
    (h : t.op.test? (m.value t.l) (m.value t.r) (max t.l.size t.r.size) = some taken) :
    m.step t = if taken then .jump t.d.block else .next m := by
  have hc := Opcode.isConditional_of_test? h
  unfold step
  split <;> first | (rename_i hop; rw [hop] at hc; cases hc) | rw [h]

/-- **Performs instructions that neither jump nor return.** -/
def perform (m : Machine) : List Insn → Performed
  | [] => .done m
  | i :: is =>
    match m.step i with
    | .next m' => (m'.perform is).later 1
    | _ => .undefined m 1

@[simp] theorem perform_nil (m : Machine) : m.perform [] = .done m := rfl

theorem perform_cons_of_next (is : List Insn) (h : m.step i = .next m') :
    m.perform (i :: is) = (m'.perform is).later 1 := by
  rw [perform, h]

/-- A body performed to its end starts with an instruction that changes the machine. -/
theorem perform_cons_eq_done : m.perform (i :: is) = .done m'' ↔
    ∃ m', m.step i = .next m' ∧ m'.perform is = .done m'' := by
  rw [perform]
  cases m.step i <;> simp

/-- What stops a body stops it in front of others. -/
theorem perform_append_of_undefined (js : List Insn) (h : m.perform is = .undefined m' n) :
    m.perform (is ++ js) = .undefined m' n := by
  induction is generalizing m n with
  | nil => cases h
  | cons i is ih =>
    rw [List.cons_append]
    unfold perform at h ⊢
    cases hs : m.step i with
    | next m₁ =>
      simp only [hs] at h ⊢
      cases h₁ : m₁.perform is with
      | done m₂ => simp [h₁] at h
      | undefined m₂ k =>
        rw [h₁, Performed.later_undefined] at h
        obtain ⟨rfl, rfl⟩ := Performed.undefined.inj h
        rw [ih h₁, Performed.later_undefined]
    | jump t => simpa [hs] using h
    | finish v => simpa [hs] using h
    | undefined => simpa [hs] using h

/-- **Bodies in a row.** -/
theorem perform_append_eq_done {is js : List Insn} : m.perform (is ++ js) = .done m'' ↔
      ∃ m', m.perform is = .done m' ∧ m'.perform js = .done m'' := by
  induction is generalizing m with
  | nil => simp
  | cons i is ih =>
    simp only [List.cons_append, perform_cons_eq_done, ih]
    constructor
    · rintro ⟨m₁, h₁, m₂, h₂, h₃⟩
      exact ⟨m₂, ⟨m₁, h₁, h₂⟩, h₃⟩
    · rintro ⟨m₂, ⟨m₁, h₁, h₂⟩, h₃⟩
      exact ⟨m₁, h₁, m₂, h₂, h₃⟩

/-- …and what stops the second stops both. -/
theorem perform_append_of_done (js : List Insn) (h : m.perform is = .done m') :
    m.perform (is ++ js) = (m'.perform js).later is.length := by
  induction is generalizing m with
  | nil =>
    obtain rfl := Performed.done.inj h
    cases hjs : m.perform js <;> simp [hjs]
  | cons i is ih =>
    obtain ⟨m₁, hstep, hrest⟩ := perform_cons_eq_done.mp h
    rw [List.cons_append, perform_cons_of_next _ hstep, ih hrest]
    cases m'.perform js with
    | done m₂ => rfl
    | undefined m₂ n =>
      rw [Performed.later_undefined, Performed.later_undefined, Performed.later_undefined,
        List.length_cons, Nat.add_right_comm, Nat.add_comm 1]

/-- What a plain instruction does: it changes the machine or needs an undefined value. -/
theorem step_of_plain (m : Machine) (h : i.op.endsBlock = false) :
    (∃ m', m.step i = .next m') ∨ m.step i = .undefined := by
  unfold step
  cases hop : i.op <;> simp_all [Opcode.endsBlock, Opcode.isJump, Opcode.isConditional,
    Opcode.test?] <;> split <;> exact .inl ⟨_, rfl⟩

end Machine

/-! ## Leaving a block -/

/-- How control leaves a block. -/
inductive Leaving where
  /-- To another block. -/
  | toward (next : Int)
  /-- Out of the function. -/
  | ret (value : UInt64)
deriving DecidableEq, Repr

/-- **How control leaves a block** whose body is performed. -/
def Block.leave (b : Block) (m : Machine) : Leaving :=
  match b.terminator? with
  | none => .toward b.next
  | some t =>
    match m.step t with
    | .jump s => .toward s
    | .finish v => .ret v
    | _ => .toward b.next

namespace Block

variable {b : Block} {t : Insn}

theorem leave_none (ht : b.terminator? = none) (m : Machine) : b.leave m = .toward b.next := by
  simp [leave, ht]

theorem leave_ret (ht : b.terminator? = some t) (h : t.op = .ret) (m : Machine) :
    b.leave m = .ret (if t.l.isNone then 0 else m.value t.l) := by
  simp [leave, ht, m.step_ret h]

theorem leave_goto (ht : b.terminator? = some t) (h : t.op = .goto) (m : Machine) :
    b.leave m = .toward t.d.block := by
  simp [leave, ht, m.step_goto h]

theorem leave_conditional (ht : b.terminator? = some t) {m : Machine} {taken : Bool}
    (h : t.op.test? (m.value t.l) (m.value t.r) (max t.l.size t.r.size) = some taken) :
    b.leave m = .toward (if taken then t.d.block else b.next) := by
  cases taken <;> simp [leave, ht, m.step_conditional h]

end Block

/-- How an execution ends of itself. -/
inductive Halt where
  /-- It returns. -/
  | returned (value : UInt64)
  /-- It needs an undefined value. -/
  | undefined
  /-- It runs past a block that never falls through. -/
  | fellOff
deriving DecidableEq, Repr

/-- What came of a visit to a block. -/
inductive Visit where
  /-- Control goes on. -/
  | goes (m : Machine) (steps : Nat) (next : Int)
  /-- The execution ends. -/
  | stops (m : Machine) (steps : Nat) (o : Halt)
deriving DecidableEq, Repr

/-- **A visit to a block.** -/
def Block.visit (b : Block) (m : Machine) : Visit :=
  match m.perform b.body with
  | .undefined m' n => .stops m' n .undefined
  | .done m' =>
    match b.leave m' with
    | .ret v => .stops m' b.insns.length (.returned v)
    | .toward s =>
      if s = noBlock then .stops m' b.insns.length .fellOff else .goes m' b.insns.length s

namespace Block

variable {b : Block} {m m' : Machine} {is : List Insn} {n : Nat}

/-- **Control goes on from a block** after its whole body, to where the terminator sends it. -/
theorem visit_eq_goes {s : Int} : b.visit m = .goes m' n s ↔
      m.perform b.body = .done m' ∧ b.leave m' = .toward s ∧ s ≠ noBlock ∧ n = b.insns.length := by
  constructor
  · intro h
    unfold visit at h
    split at h
    · cases h
    · split at h
      · cases h
      · split at h
        · cases h
        · obtain ⟨rfl, rfl, rfl⟩ := Visit.goes.inj h
          exact ⟨‹_›, ‹_›, ‹_›, rfl⟩
  · rintro ⟨hp, hl, hs, rfl⟩
    simp [visit, hp, hl, hs]

/-- **A visit returns** at a terminator that does. -/
theorem visit_eq_returned {v : UInt64} : b.visit m = .stops m' n (.returned v) ↔
      m.perform b.body = .done m' ∧ b.leave m' = .ret v ∧ n = b.insns.length := by
  constructor
  · intro h
    unfold visit at h
    split at h
    · cases h
    · split at h
      · obtain ⟨rfl, rfl, hv⟩ := Visit.stops.inj h
        obtain rfl := Halt.returned.inj hv
        exact ⟨‹_›, ‹_›, rfl⟩
      · split at h <;> cases h
  · rintro ⟨hp, hl, rfl⟩
    simp [visit, hp, hl]

/-- **A visit ends for want of a value** in the body. -/
theorem visit_eq_undefined :
    b.visit m = .stops m' n .undefined ↔ m.perform b.body = .undefined m' n := by
  constructor
  · intro h
    unfold visit at h
    split at h
    · next hp =>
      obtain ⟨rfl, rfl, -⟩ := Visit.stops.inj h
      exact hp
    · split at h
      · cases h
      · split at h <;> cases h
  · intro hp
    simp [visit, hp]

/-- **A visit runs past the block** where control leaves for no block. -/
theorem visit_eq_fellOff : b.visit m = .stops m' n .fellOff ↔
      m.perform b.body = .done m' ∧ b.leave m' = .toward noBlock ∧ n = b.insns.length := by
  constructor
  · intro h
    unfold visit at h
    split at h
    · cases h
    · split at h
      · cases h
      · split at h
        · next hl hs =>
          obtain ⟨rfl, rfl, -⟩ := Visit.stops.inj h
          exact ⟨‹_›, hs ▸ hl, rfl⟩
        · cases h
  · rintro ⟨hp, hl, rfl⟩
    simp [visit, hp, hl]

/-- Visits see the instructions and the fall-through of a block, nothing else. -/
theorem visit_congr {b b' : Block} (hi : b'.insns = b.insns) (hn : b'.next = b.next)
    (m : Machine) : b'.visit m = b.visit m := by
  have ht : b'.terminator? = b.terminator? := by simp only [terminator?, tail?, hi]
  have hb : b'.body = b.body := by simp only [body, ht, hi]
  have hl : ∀ m, b'.leave m = b.leave m := fun m => by simp only [leave, ht, hn]
  simp only [visit, hb, hl, hi]

/-- A block that performs some instructions and jumps. -/
theorem visit_of_goto {j : Insn} (hi : b.insns = is ++ [j]) (hj : j.op = .goto)
    (ht : j.d.block ≠ noBlock) (m : Machine) : b.visit m = match m.perform is with
      | .done m' => .goes m' (is.length + 1) j.d.block
      | .undefined m' n => .stops m' n .undefined := by
  have hends : j.op.endsBlock = true := by rw [hj]; rfl
  have hterm := terminator?_of_append hi hends
  unfold visit
  rw [body_of_append hi hends]
  cases m.perform is with
  | undefined m' n => rfl
  | done m' => simp [leave_goto hterm hj, ht, hi]

end Block

/-! ## Visits and passes -/

namespace Visit

/-- The steps of a visit. -/
def steps : Visit → Nat
  | goes _ n _ => n
  | stops _ n _ => n

/-- The passage that a visit is when `left` steps are enough for it. -/
def within (left : Nat) : Visit → Passage
  | goes m n s => .through m (left - n) s
  | stops m n (.returned v) => .ended m (left - n) v
  | stops m n .undefined => .undefined m (left - n)
  | stops m n .fellOff => .through m (left - n) noBlock

end Visit

namespace Machine

variable {b : Block} {m m' : Machine} {is : List Insn} {n left : Nat}

/-- What a terminator does: it jumps, returns or leaves the machine alone. -/
theorem step_of_endsBlock (m : Machine) {t : Insn} (h : t.op.endsBlock = true) :
    (∃ s, m.step t = .jump s) ∨ (∃ v, m.step t = .finish v) ∨ m.step t = .next m := by
  rcases t.op.cases_of_endsBlock h with hr | hg | hc
  · exact .inr (.inl ⟨_, m.step_ret hr⟩)
  · exact .inl ⟨_, m.step_goto hg⟩
  · obtain ⟨taken, ht⟩ := t.op.test?_of_isConditional hc (m.value t.l) (m.value t.r)
      (max t.l.size t.r.size)
    rw [m.step_conditional ht]
    cases taken with
    | true => exact .inl ⟨_, rfl⟩
    | false => exact .inr (.inr rfl)

theorem pass_append_of_done (next : Int) (ts : List Insn) (h : m.perform is = .done m')
    (hl : is.length ≤ left) : m.pass left next (is ++ ts) = m'.pass (left - is.length) next ts := by
  induction is generalizing m left with
  | nil =>
    obtain rfl : m = m' := Performed.done.inj h
    rfl
  | cons i is ih =>
    obtain ⟨m₁, h₁, h₂⟩ := perform_cons_eq_done.mp h
    cases left with
    | zero => simp at hl
    | succ left =>
      simp only [List.length_cons, Nat.add_le_add_iff_right] at hl
      simp only [List.cons_append, pass, h₁, ih h₂ hl, List.length_cons, Nat.add_sub_add_right]

theorem pass_append_of_undefined (next : Int) (ts : List Insn) (hp : Plain is)
    (h : m.perform is = .undefined m' n) (hl : n ≤ left) :
    m.pass left next (is ++ ts) = .undefined m' (left - n) := by
  induction is generalizing m n left with
  | nil => cases h
  | cons i is ih =>
    obtain ⟨hi, his⟩ := List.forall_mem_cons.mp hp
    rcases m.step_of_plain hi with ⟨m₁, h₁⟩ | h₁
    · rw [perform_cons_of_next is h₁] at h
      cases h₂ : m₁.perform is with
      | done m₂ => rw [h₂] at h; cases h
      | undefined m₂ k =>
        rw [h₂, Performed.later_undefined] at h
        obtain ⟨rfl, rfl⟩ := Performed.undefined.inj h
        obtain ⟨left, rfl⟩ : ∃ l, left = l + 1 := ⟨left - 1, by omega⟩
        have hk : k ≤ left := by omega
        simp only [List.cons_append, pass, h₁, ih his h₂ hk, Passage.undefined.injEq, true_and]
        omega
    · rw [perform, h₁] at h
      obtain ⟨rfl, rfl⟩ := Performed.undefined.inj h
      obtain ⟨left, rfl⟩ : ∃ l, left = l + 1 := ⟨left - 1, by omega⟩
      simp only [List.cons_append, pass, h₁, Nat.add_sub_cancel]

/-- The steps that performing instructions takes. -/
def stepsOf (m : Machine) (is : List Insn) : Nat :=
  match m.perform is with
  | .done _ => is.length
  | .undefined _ n => n

/-- A budget that does not reach through a body is exhausted there. -/
theorem pass_append_exhausted (next : Int) (ts : List Insn) (hp : Plain is)
    (hl : left < m.stepsOf is) : ∃ m', m.pass left next (is ++ ts) = .exhausted m' := by
  induction is generalizing m left with
  | nil => simp [stepsOf] at hl
  | cons i is ih =>
    obtain ⟨hi, his⟩ := List.forall_mem_cons.mp hp
    cases left with
    | zero => exact ⟨m, rfl⟩
    | succ left =>
      rcases m.step_of_plain hi with ⟨m₁, h₁⟩ | h₁
      · have hl₁ : left < m₁.stepsOf is := by
          simp only [stepsOf, perform_cons_of_next is h₁] at hl ⊢
          cases h₂ : m₁.perform is with
          | done m₂ => simp only [h₂, Performed.later_done, List.length_cons] at hl ⊢; omega
          | undefined m₂ k => simp only [h₂, Performed.later_undefined] at hl ⊢; omega
        obtain ⟨m', h'⟩ := ih his hl₁
        exact ⟨m', by simp only [List.cons_append, pass, h₁, h']⟩
      · simp only [stepsOf, perform, h₁] at hl
        omega

/-- **Within its budget a pass through a block is the visit.** -/
theorem pass_eq_within (hb : Plain b.body) (hl : (b.visit m).steps ≤ left) :
    m.pass left b.next b.insns = (b.visit m).within left := by
  have hlen : b.insns.length = b.body.length + b.terminator?.toList.length :=
    (congrArg List.length b.insns_eq).trans List.length_append
  rw [b.insns_eq]
  unfold Block.visit at hl ⊢
  cases hp : m.perform b.body with
  | undefined m' n =>
    simp only [hp, Visit.steps] at hl
    exact pass_append_of_undefined _ _ hb hp hl
  | done m' =>
    have hle : b.body.length ≤ left := by
      simp only [hp] at hl
      split at hl
      · simp only [Visit.steps] at hl; omega
      · split at hl <;> (simp only [Visit.steps] at hl; omega)
    rw [pass_append_of_done _ _ hp hle]
    cases ht : b.terminator? with
    | none =>
      have hlv : b.leave m' = .toward b.next := by simp [Block.leave, ht]
      simp only [ht, Option.toList_none, List.length_nil, Nat.add_zero] at hlen
      simp only [hlv, Option.toList_none, pass]
      split <;> simp_all [Visit.within]
    | some t =>
      simp only [ht, Option.toList_some, List.length_singleton] at hlen
      have hlt : b.body.length < left := by
        simp only [hp] at hl
        split at hl
        · simp only [Visit.steps] at hl; omega
        · split at hl <;> (simp only [Visit.steps] at hl; omega)
      obtain ⟨rest, hrest⟩ : ∃ r, left - b.body.length = r + 1 := ⟨left - b.body.length - 1, by omega⟩
      have hrest' : left - b.insns.length = rest := by omega
      simp only [Option.toList_some, hrest, pass]
      rcases m'.step_of_endsBlock (Block.endsBlock_of_terminator? ht) with ⟨s, hs⟩ | ⟨v, hv⟩ | hn
      · have hlv : b.leave m' = .toward s := by simp [Block.leave, ht, hs]
        simp only [hlv, hs]
        split <;> simp_all [Visit.within]
      · have hlv : b.leave m' = .ret v := by simp [Block.leave, ht, hv]
        simp [hlv, hv, Visit.within, hrest']
      · have hlv : b.leave m' = .toward b.next := by simp [Block.leave, ht, hn]
        simp only [hlv, hn]
        split <;> simp_all [Visit.within]

/-- **Beyond its budget a pass through a block is exhausted.** -/
theorem pass_exhausted (hb : Plain b.body) (hl : left < (b.visit m).steps) :
    ∃ m', m.pass left b.next b.insns = .exhausted m' := by
  rw [b.insns_eq]
  by_cases hlt : left < m.stepsOf b.body
  · exact pass_append_exhausted _ _ hb hlt
  · unfold Block.visit at hl
    cases hp : m.perform b.body with
    | undefined m' n =>
      simp only [stepsOf, hp] at hlt
      simp only [hp, Visit.steps] at hl
      omega
    | done m' =>
      simp only [stepsOf, hp] at hlt
      have hlen : left < b.insns.length := by
        simp only [hp] at hl
        split at hl
        · exact hl
        · split at hl <;> exact hl
      rw [pass_append_of_done _ _ hp (by omega)]
      rw [b.insns_eq, List.length_append] at hlen
      cases ht : b.terminator? with
      | none => simp [ht] at hlen; omega
      | some t =>
        simp only [ht, Option.toList_some, List.length_singleton] at hlen
        rw [show left - b.body.length = 0 by omega]
        exact ⟨m', rfl⟩

end Machine

end Deflatten

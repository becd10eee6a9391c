import Deflatten.Microcode.Edges
import Deflatten.Microcode.Env

/-!
# Microcode/Run — execution

A machine holds the variables, a flat memory of words and the calls made so far.  Unset variables and
words read as zero, a call is recorded and returns its argument plus one, and a jump takes effect at
the end of its block.

Only instructions count as steps.  A run that comes back to an empty block without executing any
would go on for ever; since nothing but the current block decides where such a run goes, it is
recognized after as many empty blocks as the function has blocks, and ends as `RunError.spins`.
-/

namespace Deflatten

/-! ## Machines -/

/-- A call that was made. -/
structure CallEvent where
  /-- The callee. -/
  callee : String
  /-- The argument. -/
  arg : UInt64
deriving DecidableEq, Repr, Inhabited

/-- The state of an execution. -/
structure Machine where
  /-- The variables that were set. -/
  vars : Env := {}
  /-- The words that were stored. -/
  mem : Table UInt64 UInt64 := {}
  /-- The calls so far, in order. -/
  calls : List CallEvent := []
deriving DecidableEq, Repr, Inhabited

namespace Machine

/-- The value of a variable, zero if it was never set. -/
def read (m : Machine) (v : Var) : UInt64 := (m.vars.get? v).getD 0

/-- The value of an operand, zero if it has none. -/
def value (m : Machine) (o : Operand) : UInt64 := (o.value? fun v => some (m.read v)).getD 0

/-- The word at an address, zero if none was stored. -/
def load (m : Machine) (addr : UInt64) : UInt64 := (m.mem.get? addr).getD 0

/-- The machine with a word stored. -/
def store (m : Machine) (addr v : UInt64) : Machine := { m with mem := m.mem.insert addr v }

/-- The machine with a call recorded. -/
def record (m : Machine) (c : CallEvent) : Machine := { m with calls := m.calls ++ [c] }

/-- The machine with a destination set, if it names a variable. -/
def assign (m : Machine) (dest : Operand) (v : UInt64) : Machine :=
  match dest.var? with
  | some x => { m with vars := m.vars.insert x (truncate v dest.size) }
  | none => m

end Machine

/-- What an instruction does. -/
inductive Effect where
  /-- Changes the machine. -/
  | next (m : Machine)
  /-- Sends control elsewhere at the end of the block. -/
  | jump (target : Int)
  /-- Ends the execution. -/
  | finish (ret : UInt64)
  /-- Needs a value that is not defined. -/
  | undefined
deriving DecidableEq, Repr

/-- **The effect of one instruction.** -/
def Machine.step (m : Machine) (i : Insn) : Effect :=
  match i.op with
  | .nop => .next m
  | .ret => .finish (if i.l.isNone then 0 else m.value i.l)
  | .goto => .jump i.d.block
  | .call =>
    let arg := m.value i.r
    .next ((m.record ⟨i.calleeName, arg⟩).assign i.d (arg + 1))
  | .ldx => .next (m.assign i.d (m.load (m.value i.l)))
  | .stx => .next (m.store (m.value i.r) (m.value i.l))
  | .und => .undefined
  | op =>
    match op.test? (m.value i.l) (m.value i.r) (max i.l.size i.r.size) with
    | some taken => if taken then .jump i.d.block else .next m
    | none =>
      match i.def? with
      | none => .next m
      | some v => .next { m with vars := m.vars.assign v (i.result? fun v => some (m.read v)) }

/-! ## Runs -/

/-- Why an execution does not return. -/
inductive RunError where
  /-- The graph has no block to go to. -/
  | flow (e : FlowError)
  /-- The steps are used up. -/
  | stepLimit (limit : Int) (fn : String) (blk : Int)
  /-- A value is needed that is not defined. -/
  | undefined (fn : String) (blk : Int)
  /-- Control circles through empty blocks for ever. -/
  | spins (fn : String) (blk : Int)
deriving DecidableEq, Repr

/-- The wording of an error. -/
def RunError.message : RunError → String
  | flow e => e.message
  | stepLimit limit fn blk =>
    "mcode: step limit reached (" ++ Text.decimal limit ++ ") in " ++ fn ++ " blk " ++
      Text.decimal blk
  | undefined fn blk =>
    "mcode: read of undefined value: " ++ fn ++ " blk " ++ Text.decimal blk ++ ": und"
  | spins fn blk => "mcode: endless run: " ++ fn ++ " blk " ++ Text.decimal blk

/-- What can be observed of an execution, also of one that fails. -/
structure Trace where
  /-- The value returned. -/
  ret : UInt64 := 0
  /-- The calls made, in order. -/
  calls : List CallEvent := []
  /-- The instructions started. -/
  steps : Nat := 0
deriving DecidableEq, Repr, Inhabited

/-- An execution that is over. -/
structure Ending where
  /-- What could be observed. -/
  trace : Trace
  /-- Why it did not return, if it did not. -/
  error? : Option RunError
deriving DecidableEq, Repr, Inhabited

/-- How far the instructions of a block brought an execution. -/
inductive Passage where
  /-- Through the block: the machine, the steps left and the block that comes next. -/
  | through (m : Machine) (left : Nat) (next : Int)
  /-- To its end inside the block. -/
  | ended (m : Machine) (left : Nat) (ret : UInt64)
  /-- To an undefined value. -/
  | undefined (m : Machine) (left : Nat)
  /-- To the step limit. -/
  | exhausted (m : Machine)
deriving DecidableEq, Repr

/-- **Executes the instructions of a block**, `left` steps being left and `next` being where control
goes so far. -/
def Machine.pass (m : Machine) (left : Nat) (next : Int) : List Insn → Passage
  | [] => .through m left next
  | i :: is =>
    match left with
    | 0 => .exhausted m
    | left + 1 =>
      match m.step i with
      | .next m' => m'.pass left next is
      | .jump target => m.pass left target is
      | .finish ret => .ended m left ret
      | .undefined => .undefined m left

/-- No instruction gives steps back. -/
theorem Machine.left_le_of_pass {m' : Machine} {left' : Nat} {next' : Int} :
    ∀ {is : List Insn} {m : Machine} {left : Nat} {next : Int},
      m.pass left next is = .through m' left' next' → left' ≤ left
  | [], m, left, next, h => by
    simp only [Machine.pass, Passage.through.injEq] at h
    omega
  | i :: is, m, left, next, h => by
    unfold Machine.pass at h
    split at h
    · cases h
    · split at h
      · exact Nat.le_succ_of_le (left_le_of_pass h)
      · exact Nat.le_succ_of_le (left_le_of_pass h)
      · cases h
      · cases h

/-- **A block with instructions uses up steps.** -/
theorem Machine.left_lt_of_pass {m m' : Machine} {left left' : Nat} {next next' : Int}
    {i : Insn} {is : List Insn} (h : m.pass left next (i :: is) = .through m' left' next') :
    left' < left := by
  unfold Machine.pass at h
  split at h
  · cases h
  · split at h
    · exact Nat.lt_succ_of_le (left_le_of_pass h)
    · exact Nat.lt_succ_of_le (left_le_of_pass h)
    · cases h
    · cases h

namespace Func

/-- The block that comes next, or why there is none. -/
def follow (f : Func) (cur next : Int) : Except FlowError Block :=
  if next = noBlock then .error (.fallsOff f.name cur)
  else match f.block? next with
    | some b => .ok b
    | none => .error (.noTarget f.name cur next)

/-- A block about to be executed, its first instruction apart. -/
structure Ready where
  /-- Its serial. -/
  cur : Int
  /-- Its first instruction. -/
  first : Insn
  /-- The others. -/
  rest : List Insn
  /-- Its fall-through. -/
  next : Int

/-- Passes empty blocks, as many as `patience` allows, up to the first with instructions. -/
def skipEmpty (f : Func) (patience : Nat) (cur : Int) (b : Block) : Except RunError Ready :=
  match b.insns with
  | i :: is => .ok ⟨cur, i, is, b.next⟩
  | [] =>
    match f.follow cur b.next with
    | .error e => .error (.flow e)
    | .ok b' =>
      match patience with
      | 0 => .error (.spins f.name cur)
      | patience + 1 => f.skipEmpty patience b.next b'

/-- **Executes from the start of a block**, `left` of `limit` steps being left. -/
def runFrom (f : Func) (limit : Int) (left : Nat) (m : Machine) (cur : Int) (b : Block) : Ending :=
  let steps (left' : Nat) : Nat := limit.toNat - left'
  match f.skipEmpty f.blocks.length cur b with
  | .error e => ⟨{ calls := m.calls, steps := steps left }, some e⟩
  | .ok r =>
    match h : m.pass left r.next (r.first :: r.rest) with
    | .ended m' left' ret => ⟨{ ret := ret, calls := m'.calls, steps := steps left' }, none⟩
    | .undefined m' left' =>
      ⟨{ calls := m'.calls, steps := steps left' }, some (.undefined f.name r.cur)⟩
    | .exhausted m' =>
      ⟨{ calls := m'.calls, steps := limit.toNat + 1 }, some (.stepLimit limit f.name r.cur)⟩
    | .through m' left' next =>
      match f.follow r.cur next with
      | .error e => ⟨{ calls := m'.calls, steps := steps left' }, some (.flow e)⟩
      | .ok b' =>
        have := Machine.left_lt_of_pass h
        f.runFrom limit left' m' next b'
termination_by left

/-- **Executes a function from its entry** with the given variables set, for at most `limit` steps.
A function without blocks has no trace. -/
def run (f : Func) (inputs : Env) (limit : Int) : Except FlowError Ending :=
  match f.block? 0 with
  | none => .error (.noBlocks f.name)
  | some b => .ok (f.runFrom limit limit.toNat { vars := inputs } 0 b)

end Func

end Deflatten

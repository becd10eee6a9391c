import Deflatten.Dispatch.Comparison
import Deflatten.Flattening.Generator

/-!
# Flattening/Flatten — control flow through a dispatcher

A flattened function keeps its blocks, and every edge becomes a number: a block writes the number of
its successor into a state variable and jumps to a chain of comparisons, which finds the block of that
number.

    0         mov c₀, state; goto 1
    1 … n-1   jz state, cᵢ → case i, else on; the last falls into case n-1
    n … 2n-1  case i: the block, each edge to j replaced by mov cⱼ, state; goto 1

With a loop end all jumps back go through one block more.  A conditional jump gets a block of its own
for each of its edges, behind all others.
-/

namespace Deflatten

/-! ## The numbers of the cases -/

/-- The number of bits that state constants are balanced over. -/
def stateWidth (size : Int) : Nat :=
  let width := wrapInt (size * 8)
  if width ≤ 0 ∨ 64 < width then 64 else width.toNat

/-- Whether between three and five eighths of the bits are set. -/
def isBalanced (size : Int) (v : UInt64) : Bool :=
  let width := stateWidth size
  width * 3 / 8 ≤ popCount v && popCount v ≤ width * 5 / 8

/-- Draws until `need` balanced constants are found that are not in `seen`; nothing if `draws` are
not enough. -/
def drawConstants (size : Int) : (draws need : Nat) → (seen : List UInt64) → Generator →
    Option (List UInt64)
  | _, 0, _, _ => some []
  | 0, _ + 1, _, _ => none
  | draws + 1, need + 1, seen, g =>
    let (w, g) := g.next
    let v := truncate w size
    if isBalanced size v && v ∉ seen then
      (drawConstants size draws need (v :: seen) g).map (v :: ·)
    else drawConstants size draws (need + 1) seen g

/-- **`n` distinct balanced constants.**  After a whole period no draw brings anything new: if there
are too few such constants, drawing never ends, and there are none. -/
def stateConstants (seed : UInt64) (n : Nat) (size : Int) : Option (List UInt64) :=
  drawConstants size Generator.period n [] (.ofSeed seed)

/-! ## Flattening -/

/-- How a function is flattened. -/
structure FlattenOptions where
  /-- The seed of the constants. -/
  seed : UInt64 := 0
  /-- The state variable; nothing for the default. -/
  state : Operand := .empty
  /-- Whether all jumps back go through one block. -/
  loopEnd : Bool := false
deriving DecidableEq, Repr, Inhabited

/-- The slot that holds the state by default. -/
def defaultState : Operand := .stack (-0x14) 4

/-- Why a function is not flattened. -/
inductive FlattenError where
  /-- The state is no variable. -/
  | notVariable (state : Operand)
  /-- The function uses the state variable. -/
  | stateInUse (fn : String) (blk : Int) (state : Var)
  /-- A block has no successor and does not return. -/
  | fallsOff (fn : String) (blk : Int)
  /-- There are fewer constants than blocks. -/
  | tooFewConstants (fn : String)
  /-- The result is no graph. -/
  | flow (e : FlowError)
deriving DecidableEq, Repr

/-- The wording of an error. -/
def FlattenError.message : FlattenError → String
  | notVariable state => "flatten: state " ++ state.text ++ " is not a variable"
  | stateInUse fn blk state =>
    "flatten: state variable already used by the function: " ++ fn ++ " blk " ++
      Text.decimal blk ++ " uses " ++ state.text
  | fallsOff fn blk => "flatten: block falls off the function: " ++ fn ++ " blk " ++
      Text.decimal blk
  | tooFewConstants fn => "flatten: too few state constants: " ++ fn
  | flow e => e.message

/-- The plan of a flattened function. -/
structure CasePlan where
  /-- The number of blocks to begin with. -/
  count : Nat
  /-- The state variable. -/
  state : Operand
  /-- The number of each case. -/
  consts : List UInt64
  /-- Where a block jumps when it has set the state. -/
  dispatch : Int
  /-- The serial of the first block for an edge of a conditional jump. -/
  firstJump : Int

namespace CasePlan

/-- The serial of a case. -/
def caseSerial (p : CasePlan) (i : Nat) : Int := p.count + i

/-- The number of a case as a literal. -/
def label (p : CasePlan) (j : Int) : Operand := .imm (p.consts[j.toNat]?.getD 0) p.state.size

/-- Sets the state to a case and jumps to the dispatcher. -/
def transfer (p : CasePlan) (j : Int) : List Insn :=
  [.mov (p.label j) p.state, .goto p.dispatch]

/-- The first block: the state is set to the first case. -/
def prologue (p : CasePlan) : Block := .ofInsns 0 [.mov (p.label 0) p.state, .goto 1]

/-- The comparison for a case, which falls on to the next one or to the last case. -/
def comparison (p : CasePlan) (i : Nat) : Block :=
  { Block.ofInsns (1 + i) [.branch .jz p.state (p.label i) (p.caseSerial i)] with
    next := if i + 2 < p.count then i + 2 else p.caseSerial (p.count - 1) }

/-- A case that ends by setting the state. -/
def leaving (p : CasePlan) (i : Nat) (body : List Insn) (j : Int) : Block :=
  { serial := p.caseSerial i, code := some (body ++ p.transfer j), next := noBlock }

/-- The case of a block, and the cases that its conditional jump needs a block for; `jumps` of
those blocks are taken. -/
def caseBlock (p : CasePlan) (fn : String) (i jumps : Nat) (b : Block) :
    Except FlattenError (Block × List Int) :=
  match b.terminator? with
  | none =>
    if b.next = noBlock then .error (.fallsOff fn b.serial)
    else .ok (p.leaving i b.insns b.next, [])
  | some t =>
    if t.op = .goto then .ok (p.leaving i b.body t.d.block, [])
    else if t.op = .ret then .ok ({ b.copy with serial := p.caseSerial i }, [])
    else if t.d.block = b.next then .ok (p.leaving i b.body b.next, [])
    else
      let taken := p.firstJump + jumps
      .ok ({ (b.copy.mapTail fun t => t.withTarget taken) with
              serial := p.caseSerial i, next := taken + 1 }, [t.d.block, b.next])

/-- The cases of blocks in turn, and the cases that need a jump block. -/
def caseBlocks (p : CasePlan) (fn : String) : (i jumps : Nat) → List Block →
    Except FlattenError (List Block × List Int)
  | _, _, [] => .ok ([], [])
  | i, jumps, b :: bs => do
    let (c, edges) ← p.caseBlock fn i jumps b
    let (cs, more) ← p.caseBlocks fn (i + 1) (jumps + edges.length) bs
    pure (c :: cs, edges ++ more)

/-- All blocks of the flattened function. -/
def blocks (p : CasePlan) (fn : String) (loopEnd : Bool) (bs : List Block) :
    Except FlattenError (List Block) := do
  let (cases, edges) ← p.caseBlocks fn 0 0 bs
  let jumps := edges.mapIdx fun k j => Block.ofInsns (p.firstJump + k) (p.transfer j)
  let back := if loopEnd then [Block.ofInsns p.dispatch [.goto 1]] else []
  pure (p.prologue :: (List.range (p.count - 1)).map p.comparison ++ cases ++ back ++ jumps)

end CasePlan

namespace Func

/-- The first block that uses a variable. -/
def userOf? (f : Func) (v : Var) : Option Block :=
  f.blocks.find? fun b => b.definesVar v || v ∈ b.uses

/-- **A flattened copy of a function.**  One with fewer than two blocks stays as it is. -/
def flatten (f : Func) (opts : FlattenOptions) : Except FlattenError Func :=
  let state := if opts.state.isNone then defaultState else opts.state
  let n := f.blocks.length
  match state.var? with
  | none => .error (.notVariable state)
  | some v =>
    if n < 2 then .ok f.copy
    else match f.userOf? v with
      | some b => .error (.stateInUse f.name b.serial v)
      | none =>
        match stateConstants opts.seed n state.size with
        | none => .error (.tooFewConstants f.name)
        | some consts => do
          let p : CasePlan :=
            { count := n, state := state, consts := consts,
              dispatch := if opts.loopEnd then 2 * n else 1,
              firstJump := if opts.loopEnd then 2 * n + 1 else 2 * n }
          let bs ← p.blocks f.name opts.loopEnd f.blocks
          match Func.ofBlocks f.name bs with
          | .ok g => .ok { g with maturity := f.maturity }
          | .error e => .error (.flow e)

end Func

end Deflatten

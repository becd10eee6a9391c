import Deflatten.Dispatch.Config
import Deflatten.Dispatch.Hub
import Deflatten.Microcode.Env

/-!
# Dispatch/Region — a dispatcher and the blocks it chooses between

A region has internal blocks, which only compare and choose, and exits, which do the work.  It is
entered at its first internal block with the state in one variable; `Region.resolve?` runs the chain
of comparisons from there with the state bound to a value and gives the exit that value selects.
-/

namespace Deflatten

/-- The environment after the instructions of a block, the terminator apart. -/
def Block.execBody (b : Block) (e : Env) : Env := b.body.foldl Env.exec e

/-- Where control goes from a block, if the environment decides it. -/
def Block.choose? (b : Block) (e : Env) : Option Int :=
  match b.terminator? with
  | none => if b.next = noBlock then none else some b.next
  | some t =>
    if t.op = .goto then some t.d.block
    else if t.op.isConditional then do
      let l ← e.value? t.l
      let r ← e.value? t.r
      let taken ← t.op.test? l r (max t.l.size t.r.size)
      pure (if taken then t.d.block else b.next)
    else none

/-- A block met while a region was explored. -/
structure BlockInfo where
  /-- The block. -/
  block : Block
  /-- The position it was found at. -/
  place : Int
  /-- The serial of the block it was found from; the entry has none. -/
  father? : Option Int
  /-- The variables it reads. -/
  uses : List Var
  /-- The variables it writes. -/
  defs : List Var
  /-- The variables it inherits. -/
  free : List Var
  /-- The variables that are set on the way down to its end. -/
  assumed : List Var
  /-- The comparison it ends in. -/
  comparison? : Option Comparison
deriving DecidableEq, Repr

namespace BlockInfo

/-- What there is to know of a block, `assumed` being set on the way to it. -/
def ofBlock (b : Block) (place : Int) (father? : Option Int) (assumed : List Var) : BlockInfo :=
  { block := b, place := place, father? := father?, uses := b.uses, defs := b.defs, free := b.free,
    assumed := adjoinAll assumed b.defs, comparison? := b.comparison? }

/-- A block found from another. -/
def child (father : BlockInfo) (b : Block) (place : Int) : BlockInfo :=
  ofBlock b place (some father.block.serial) father.assumed

/-- The serial of the block. -/
def serial (i : BlockInfo) : Int := i.block.serial

/-- Whether every inherited variable is among the given ones. -/
def needsOnly (i : BlockInfo) (vs : List Var) : Bool := i.free.all fun v => v ∈ vs

end BlockInfo

/-- A way out of a region, and the constants that lead there. -/
structure Exit where
  /-- The block. -/
  info : BlockInfo
  /-- The constants that select it. -/
  selectors : List UInt64 := []
deriving DecidableEq, Repr

/-- **A dispatcher region**, or as much of one as was explored. -/
structure Region where
  /-- The guessed hub of the function. -/
  hub : Int := noBlock
  /-- The last block before it. -/
  lastBefore : Int := noBlock
  /-- The internal blocks as they were found, the entry first. -/
  internal : List BlockInfo := []
  /-- The exits as they were found. -/
  exits : List Exit := []
  /-- What the entry compares. -/
  compared : Operand := .empty
  /-- The size of the entry's constant. -/
  cmpSize : Int := 0
  /-- The share of set bits in the constants. -/
  entropy : Binary64 := .zero
  /-- Whether the entry was taken only for being the guessed hub. -/
  viaHub : Bool := false
  /-- The variable the region switches on, if it is one. -/
  state? : Option Var := none
deriving DecidableEq, Repr, Inhabited

/-- Serials in ascending order, each once. -/
def sortedSerials (ss : List Int) : List Int := (distinct ss).mergeSort fun a b => a ≤ b

namespace Region

/-- The entry of a region. -/
def entry? (d : Region) : Option BlockInfo := d.internal.head?

/-- The serial of the entry. -/
def entrySerial (d : Region) : Int := d.entry?.elim noBlock BlockInfo.serial

/-- The constants compared with, in the order of discovery. -/
def values (d : Region) : List UInt64 :=
  d.internal.filterMap fun i => i.comparison?.map Comparison.value

/-- Whether a serial belongs to an internal block. -/
def isInternal (d : Region) (s : Int) : Bool := d.internal.any fun i => i.serial == s

/-- Whether a serial leads out of the region. -/
def isExit (d : Region) (s : Int) : Bool := d.exits.any fun x => x.info.place == s

/-- The internal serials in ascending order. -/
def internalSerials (d : Region) : List Int := sortedSerials (d.internal.map BlockInfo.serial)

/-- The exit serials in ascending order. -/
def exitSerials (d : Region) : List Int := sortedSerials (d.exits.map fun x => x.info.place)

/-- The number of distinct constants. -/
def distinctValues (d : Region) : Nat := (distinct d.values).length

/-- The internal blocks but the entry that can be entered from outside. -/
def enteredFromOutside (d : Region) : List Int :=
  (d.internal.tail.filter fun i => i.block.preds.any fun p => !d.isInternal p).map BlockInfo.serial

/-- The predecessors of the entry outside the region, as the function stands now. -/
def externalFathers (d : Region) (f : Func) : List Int :=
  match d.entry? with
  | none => []
  | some e => ((f.block? e.place).elim [] (·.preds)).filter fun p => !d.isInternal p

/-- The exit that a constant is recorded to select. -/
def exitFor? (d : Region) (value : UInt64) : Option Exit :=
  d.exits.find? fun x => value ∈ x.selectors

/-! ## Resolution -/

/-- Follows internal blocks from `cur` to an exit: the exit and the blocks passed.  Nothing if a
choice is open, control leaves the region otherwise, or a block comes again; an error if an internal
serial is no block of the function. -/
def walk? (d : Region) (f : Func) : (fuel : Nat) → Env → (path : List Int) → (cur : Int) →
    Except FlowError (Option (Int × List Int))
  | 0, _, _, _ => .ok none
  | fuel + 1, e, path, cur =>
    if d.isExit cur then .ok (some (cur, path))
    else if !d.isInternal cur || cur ∈ path then .ok none
    else do
      let b ← f.getBlock cur
      let e := b.execBody e
      match b.choose? e with
      | none => pure none
      | some next => d.walk? f fuel e (path ++ [cur]) next

/-- **The exit that a state value selects, and the internal blocks on the way.** -/
def resolvePath? (d : Region) (f : Func) (value : UInt64) :
    Except FlowError (Option (Int × List Int)) :=
  match d.state?, d.entry? with
  | some state, some entry =>
    d.walk? f (d.internal.length + 1) (Table.ofList [(state, value)]) [] entry.serial
  | _, _ => .ok none

/-- **The exit that a state value selects.** -/
def resolve? (d : Region) (f : Func) (value : UInt64) : Except FlowError (Option Int) :=
  (d.resolvePath? f value).map fun r => r.map (·.1)

end Region

end Deflatten

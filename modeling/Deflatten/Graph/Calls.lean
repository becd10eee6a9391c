import Deflatten.Collections.Distinct
import Deflatten.Microcode.Block
import Deflatten.Microcode.Func

/-!
# Graph/Calls — who calls whom, and from which block

A call graph has a node for every function and an edge for every direct call.  An outline shows the
blocks of one function: the instructions they span, the edges between them and the calls inside.
-/

namespace Deflatten

/-- **The name of a direct callee**: its symbol, or its address. -/
def Insn.callee? (i : Insn) : Option String :=
  if i.op = .call && i.l.kind == .global then
    some (if i.l.fields.name = "" then "0x" ++ Text.hex i.l.fields.addr.toNat else i.l.fields.name)
  else none

/-! ## Call graphs -/

/-- **A call graph.** -/
structure CallGraph where
  /-- The functions. -/
  nodes : List String
  /-- Caller and callee of each call. -/
  edges : List (String × String)
deriving DecidableEq, Repr, Inhabited

/-- The direct callees of a function, in order, with repetitions. -/
def Func.callees (f : Func) : List String :=
  f.blocks.flatMap fun b => b.insns.filterMap Insn.callee?

/-- **The call graph of functions**, each node and edge once, in the order of first appearance. -/
def CallGraph.ofFuncs (fs : List Func) : CallGraph :=
  { nodes := distinct (fs.map Func.name)
    edges := distinct (fs.flatMap fun f => f.callees.map fun c => (f.name, c)) }

/-! ## Outlines -/

/-- **What an outline shows of a block.** -/
structure OutlineBlock where
  /-- The serial. -/
  id : Int
  /-- The number of its first instruction, counting through the function. -/
  start : Nat
  /-- The number of the first instruction after it. -/
  stop : Nat
  /-- Whether control ends here. -/
  isTerminal : Bool
  /-- Where control goes. -/
  edges : List (Int × EdgeLabel)
  /-- The number and the callee of each call. -/
  calls : List (Nat × String)
deriving DecidableEq, Repr, Inhabited

namespace Block

/-- **The edges out of a block**, as its instructions give them; the taken one first. -/
def edges (b : Block) : List (Int × EdgeLabel) :=
  let falls (label : EdgeLabel) := if b.next = noBlock then [] else [(b.next, label)]
  match b.terminator? with
  | none => falls .always
  | some t =>
    if t.op = .ret then []
    else if t.op = .goto then [(t.d.block, .always)]
    else (t.d.block, .taken) :: falls .fallThrough

/-- What is shown for a call: the callee, or the operand it is read from. -/
def callText? (i : Insn) : Option String :=
  if i.op = .call then some (i.callee?.getD ("indirect " ++ i.l.text)) else none

/-- The outline of a block whose first instruction has a number. -/
def outline (start : Nat) (b : Block) : OutlineBlock :=
  { id := b.serial
    start := start
    stop := start + b.insns.length
    isTerminal := b.edges.isEmpty
    edges := b.edges
    calls := b.insns.zipIdx.filterMap fun i => (callText? i.1).map fun c => (start + i.2, c) }

/-- The outlines of blocks in order. -/
def outlines : (start : Nat) → List Block → List OutlineBlock
  | _, [] => []
  | start, b :: bs => b.outline start :: outlines (start + b.insns.length) bs

end Block

/-- **The outline of a function.** -/
def Func.outline (f : Func) : List OutlineBlock := Block.outlines 0 f.blocks

end Deflatten

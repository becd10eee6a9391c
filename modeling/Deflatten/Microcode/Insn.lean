import Deflatten.Collections.Distinct
import Deflatten.Microcode.Operand

/-!
# Microcode/Insn — three-operand instructions

    mov bnot neg ldx        d := op l
    add … shr, setz setnz   d := l op r
    stx                     store l at address r
    call                    d := l(r), where l is the callee
    und                     d := unknown
    ret                     return l, if there is one
    goto                    jump to d
    jcc                     if l cc r jump to d, else fall through
-/

namespace Deflatten

/-- **An instruction**: an operation, two sources and a destination. -/
structure Insn where
  /-- The operation. -/
  op : Opcode := .nop
  /-- The left source. -/
  l : Operand := .empty
  /-- The right source. -/
  r : Operand := .empty
  /-- The destination. -/
  d : Operand := .empty
deriving DecidableEq, Repr, Inhabited

namespace Operand

/-- The instruction nested in an operand. -/
def expr? : Operand → Option Insn
  | plain _ => none
  | nested _ op l r d => some ⟨op, l, r, d⟩

end Operand

namespace Insn

/-! ## Making instructions -/

/-- Copies a source. -/
def mov (src dst : Operand) : Insn := { op := .mov, l := src, d := dst }

/-- Combines two sources. -/
def binary (op : Opcode) (l r dst : Operand) : Insn := ⟨op, l, r, dst⟩

/-- Jumps to a block. -/
def goto (serial : Int) : Insn := { op := .goto, d := .target serial }

/-- Compares and jumps. -/
def branch (op : Opcode) (l r : Operand) (serial : Int) : Insn := ⟨op, l, r, .target serial⟩

/-- Returns a value. -/
def ret (value : Operand) : Insn := { op := .ret, l := value }

/-- Calls a function with one argument. -/
def call (callee arg dst : Operand) : Insn := ⟨.call, callee, arg, dst⟩

/-- The instruction as an operand. -/
def derived (i : Insn) : Operand := .derived i.op i.l i.r i.d

/-! ## Variables -/

/-- The variables read, in order, with repetitions.  A destination that is computed is read, not
written. -/
def reads (i : Insn) : List Var :=
  i.l.reads ++ i.r.reads ++ (if i.d.kind = .expr then i.d.reads else [])

/-- **The variables read**, each once. -/
def uses (i : Insn) : List Var := distinct i.reads

/-- **The variable written**, if any. -/
def def? (i : Insn) : Option Var := if i.op.definesDest then i.d.var? else none

/-- The variables written: none or one. -/
def defs (i : Insn) : List Var := i.def?.toList

/-- The instruction with another jump target. -/
def withTarget (i : Insn) (serial : Int) : Insn := { i with d := i.d.withBlock serial }

/-- The printed form. -/
def text (i : Insn) : String :=
  Operand.joinText i.op [(i.l, i.l.text), (i.r, i.r.text), (i.d, i.d.text)]

/-- The callee of a call: its name, or what is printed for it. -/
def calleeName (i : Insn) : String :=
  if i.l.fields.name = "" then i.l.text else i.l.fields.name

end Insn

end Deflatten

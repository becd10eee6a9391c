import Deflatten.Microcode.Edges

/-!
# Flattening/Samples — small functions to flatten

Over the input register 0 they show branches, a loop, a join by fall-through and calls.
-/

namespace Deflatten.Samples

/-- A four-byte register. -/
def reg (n : Int) : Operand := .register n 4

/-- A four-byte literal. -/
def lit (v : UInt64) : Operand := .imm v 4

/-- A named global. -/
def symbol (addr : UInt64) (name : String) : Operand := .global addr name 8

/-- A block that never falls through. -/
def block (serial : Int) (is : List Insn) : Block := .ofInsns serial is

/-- A block that falls through. -/
def falling (serial : Int) (is : List Insn) (next : Int) : Block :=
  { Block.ofInsns serial is with next := next }

/-- A block that only branches. -/
def branching (serial : Int) (op : Opcode) (l r : Operand) (taken next : Int) : Block :=
  falling serial [.branch op l r taken] next

/-- A function with its edges. -/
def function (name : String) (bs : List Block) : Func :=
  match Func.ofBlocks name bs with
  | .ok f => f
  | .error _ => { name := name, body := some bs }

/-- The absolute value. -/
def abs : Func := function "abs" [
  branching 0 .jl (reg 0) (lit 0) 2 1,
  block 1 [.mov (reg 0) (reg 1), .goto 3],
  falling 2 [{ op := .neg, l := reg 0, d := reg 1 }] 3,
  block 3 [.call (symbol 0x1000 "puts") (reg 1) (reg 2), .ret (reg 1)]]

/-- The sum of the numbers below the input. -/
def sum : Func := function "sum" [
  falling 0 [.mov (lit 0) (reg 1), .mov (lit 0) (reg 2)] 1,
  branching 1 .jae (reg 2) (reg 0) 3 2,
  block 2 [.binary .add (reg 1) (reg 2) (reg 1), .binary .add (reg 2) (lit 1) (reg 2),
    .call (symbol 0x1010 "tick") (reg 2) (reg 3), .goto 1],
  block 3 [.ret (reg 1)]]

/-- A choice between cases. -/
def classify : Func := function "classify" [
  branching 0 .jz (reg 0) (lit 1) 4 1,
  branching 1 .jz (reg 0) (lit 2) 5 2,
  branching 2 .jb (reg 0) (lit 10) 6 3,
  block 3 [.mov (lit 300) (reg 1), .goto 7],
  block 4 [.mov (lit 100) (reg 1), .goto 7],
  block 5 [.mov (lit 200) (reg 1), .call (symbol 0x1020 "log") (reg 0) (reg 2), .goto 7],
  falling 6 [.binary .mul (reg 0) (lit 3) (reg 1)] 7,
  block 7 [.binary .xor (reg 1) (lit 0x5a) (reg 1), .ret (reg 1)]]

/-- The samples in order. -/
def all : List Func := [abs, sum, classify]

end Deflatten.Samples

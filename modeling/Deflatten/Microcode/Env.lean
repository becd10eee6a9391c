import Deflatten.Collections.Table
import Deflatten.Microcode.Insn

/-!
# Microcode/Env — evaluation of operands and data instructions

`Opcode.compute?` and `Opcode.test?` are the arithmetic, cut to a width.  An environment knows some
of the variables; an instruction whose result depends on an unknown one makes its destination
unknown, so an environment never holds a stale value.
-/

namespace Deflatten

namespace Opcode

/-- One if a condition holds, else zero. -/
def flag (b : Bool) : UInt64 := if b then 1 else 0

/-- **The result of a data operation**, cut to `size` bytes; nothing for an operation that computes
none from its operands. -/
def compute? (op : Opcode) (l r : UInt64) (size : Int) : Option UInt64 :=
  let result? : Option UInt64 :=
    match op with
    | mov | ldx => some l
    | add => some (l + r)
    | sub => some (l - r)
    | mul => some (l * r)
    | and => some (l &&& r)
    | or => some (l ||| r)
    | xor => some (l ^^^ r)
    | shl => some (l <<< (r &&& 63))
    | shr => some (l >>> (r &&& 63))
    | bnot => some (~~~l)
    | neg => some (-l)
    | setz => some (flag (truncate l size == truncate r size))
    | setnz => some (flag (truncate l size != truncate r size))
    | _ => none
  result?.map fun v => truncate v size

/-- **Whether a conditional jump is taken**, its operands compared as `size` bytes; nothing for any
other operation. -/
def test? (op : Opcode) (l r : UInt64) (size : Int) : Option Bool :=
  let ul := truncate l size
  let ur := truncate r size
  let sl := signExtend l size
  let sr := signExtend r size
  match op with
  | jnz => some (ul != ur)
  | jz => some (ul == ur)
  | jae => some (decide (ur ≤ ul))
  | jb => some (decide (ul < ur))
  | ja => some (decide (ur < ul))
  | jbe => some (decide (ul ≤ ur))
  | jg => some (decide (sr < sl))
  | jge => some (decide (sr ≤ sl))
  | jl => some (decide (sl < sr))
  | jle => some (decide (sl ≤ sr))
  | _ => none

end Opcode

/-- The value that plain fields name: a literal, or what is read of a variable, cut to its size. -/
def Fields.value? (read : Var → Option UInt64) (f : Fields) : Option UInt64 :=
  if f.kind = .imm then some f.value
  else (f.var?.bind read).map fun v => truncate v f.size

/-- **The value of an operand** where `read` knows the variables it depends on. -/
def Operand.value? (read : Var → Option UInt64) : Operand → Option UInt64
  | .plain f => f.value? read
  | .nested f op l r _ =>
    if f.kind = .expr then
      (l.value? read).bind fun x =>
        if op.isUnary then op.compute? x 0 f.size
        else (r.value? read).bind fun y => op.compute? x y f.size
    else f.value? read

/-- The value a data instruction computes; a load is never known. -/
def Insn.result? (read : Var → Option UInt64) (i : Insn) : Option UInt64 :=
  (i.l.value? read).bind fun x =>
    if i.op.isUnary then
      if i.op = .ldx then none else i.op.compute? x 0 i.d.size
    else (i.r.value? read).bind fun y => i.op.compute? x y i.d.size

/-- **What is known of the variables.** -/
abbrev Env := Table Var UInt64

namespace Env

/-- The value of an operand, if it is known. -/
def value? (e : Env) (o : Operand) : Option UInt64 := o.value? e.get?

/-- The environment with a variable known or unknown. -/
def assign (e : Env) (v : Var) : Option UInt64 → Env
  | some x => e.insert v x
  | none => e.erase v

/-- **The environment after a data instruction.** -/
def exec (e : Env) (i : Insn) : Env :=
  match i.def? with
  | none => e
  | some v => e.assign v (i.result? e.get?)

/-- The known variables in their order, with their values. -/
def sorted (e : Env) : List (Var × UInt64) := e.bindings.mergeSort fun a b => a.1.le b.1

end Env

end Deflatten

import Deflatten.Text.Escape

/-!
# Microcode/Opcode — the thirty operations

Each operation has a name and a number.  The numbers up to 255 are all printable: one that no
operation has is shown by its digits.
-/

namespace Deflatten

/-- An operation of the microcode. -/
inductive Opcode where
  /-- Does nothing. -/
  | nop
  /-- Copies its operand. -/
  | mov
  /-- Sum. -/
  | add
  /-- Difference. -/
  | sub
  /-- Product. -/
  | mul
  /-- Bitwise conjunction. -/
  | and
  /-- Bitwise disjunction. -/
  | or
  /-- Bitwise exclusive disjunction. -/
  | xor
  /-- Shift left. -/
  | shl
  /-- Shift right, zeros coming in. -/
  | shr
  /-- Bitwise complement. -/
  | bnot
  /-- Negation. -/
  | neg
  /-- One if the operands are equal, else zero. -/
  | setz
  /-- One if the operands differ, else zero. -/
  | setnz
  /-- Loads from an address. -/
  | ldx
  /-- Stores at an address. -/
  | stx
  /-- Calls a function. -/
  | call
  /-- A value that the model cannot express. -/
  | und
  /-- Returns. -/
  | ret
  /-- Jumps. -/
  | goto
  /-- Jumps if different. -/
  | jnz
  /-- Jumps if equal. -/
  | jz
  /-- Jumps if above or equal, unsigned. -/
  | jae
  /-- Jumps if below, unsigned. -/
  | jb
  /-- Jumps if above, unsigned. -/
  | ja
  /-- Jumps if below or equal, unsigned. -/
  | jbe
  /-- Jumps if greater, signed. -/
  | jg
  /-- Jumps if greater or equal, signed. -/
  | jge
  /-- Jumps if less, signed. -/
  | jl
  /-- Jumps if less or equal, signed. -/
  | jle
deriving DecidableEq, Repr, Inhabited

namespace Opcode

/-- The operations in the order of their numbers. -/
def all : List Opcode :=
  [.nop, .mov, .add, .sub, .mul, .and, .or, .xor, .shl, .shr, .bnot, .neg, .setz, .setnz,
   .ldx, .stx, .call, .und, .ret, .goto, .jnz, .jz, .jae, .jb, .ja, .jbe, .jg, .jge, .jl, .jle]

/-- The name an operation is written with. -/
def name : Opcode → String
  | nop => "nop"
  | mov => "mov"
  | add => "add"
  | sub => "sub"
  | mul => "mul"
  | and => "and"
  | or => "or"
  | xor => "xor"
  | shl => "shl"
  | shr => "shr"
  | bnot => "bnot"
  | neg => "neg"
  | setz => "setz"
  | setnz => "setnz"
  | ldx => "ldx"
  | stx => "stx"
  | call => "call"
  | und => "und"
  | ret => "ret"
  | goto => "goto"
  | jnz => "jnz"
  | jz => "jz"
  | jae => "jae"
  | jb => "jb"
  | ja => "ja"
  | jbe => "jbe"
  | jg => "jg"
  | jge => "jge"
  | jl => "jl"
  | jle => "jle"

/-- The operation of a name. -/
def ofName? (s : String) : Option Opcode := all.find? fun op => op.name == s

/-- The number of an operation. -/
def code (op : Opcode) : Nat := all.idxOf op

/-- The operation of a number. -/
def ofCode? (n : Nat) : Option Opcode := all[n]?

/-- A two-way conditional jump. -/
def isConditional : Opcode → Bool
  | jnz | jz | jae | jb | ja | jbe | jg | jge | jl | jle => true
  | _ => false

/-- Transfers control to a block. -/
def isJump (op : Opcode) : Bool := op == goto || op.isConditional

/-- May only stand last in a block. -/
def endsBlock (op : Opcode) : Bool := op == ret || op.isJump

/-- Writes its destination. -/
def definesDest : Opcode → Bool
  | nop | stx | ret | goto => false
  | op => !op.isConditional

/-- Reads its left operand only. -/
def isUnary : Opcode → Bool
  | mov | bnot | neg | ldx => true
  | _ => false

/-- Only computes its destination, so it may go when nothing reads that. -/
def isRemovable : Opcode → Bool
  | mov | add | sub | mul | and | or | xor | shl | shr | bnot | neg | setz | setnz | ldx | und =>
    true
  | _ => false

/-! ## Numbers -/

/-- The printed form of a number, with or without an operation. -/
def printCode (n : Nat) : String :=
  match ofCode? n with
  | some op => op.name
  | none => "op(" ++ Text.decimal n ++ ")"

/-- The message for a number that no operation has. -/
def invalidCode (n : Nat) : String := "mcode: invalid opcode " ++ Text.decimal n

/-- The message for a name that no operation has. -/
def unknownName (s : String) : String := "mcode: unknown opcode " ++ Text.quoted s

@[simp] theorem ofName?_name (op : Opcode) : ofName? op.name = some op := by
  cases op <;> rfl

@[simp] theorem ofCode?_code (op : Opcode) : ofCode? op.code = some op := by
  cases op <;> rfl

end Opcode

end Deflatten

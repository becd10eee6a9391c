import Deflatten.Microcode.Opcode
import Deflatten.Microcode.Word

/-!
# Microcode/Operand — what an instruction works on

An operand is a record of plain fields and, for a derived one, the instruction that computes it.  Its
kind says which fields carry the meaning; the others are kept as they were given, and the record is
written back with them.

`Operand.same` compares meaning, with or without sizes; `Operand.value?` evaluates under any partial
reading of the variables.
-/

namespace Deflatten

/-! ## Kinds -/

/-- What an operand stands for. -/
inductive Kind where
  /-- Nothing. -/
  | none
  /-- A literal value. -/
  | imm
  /-- A register. -/
  | reg
  /-- A stack slot. -/
  | stack
  /-- A global address. -/
  | global
  /-- The result of a nested instruction. -/
  | expr
  /-- A block to jump to. -/
  | block
deriving DecidableEq, Repr, Inhabited

namespace Kind

/-- The kinds in the order of their numbers. -/
def all : List Kind := [none, imm, reg, stack, global, expr, block]

/-- The name a kind is written with. -/
def name : Kind → String
  | none => "none"
  | imm => "imm"
  | reg => "reg"
  | stack => "stack"
  | global => "global"
  | expr => "expr"
  | block => "block"

/-- The kind of a name. -/
def ofName? (s : String) : Option Kind := all.find? fun k => k.name == s

/-- The number of a kind. -/
def code (k : Kind) : Nat := all.idxOf k

/-- The kind of a number. -/
def ofCode? (n : Nat) : Option Kind := all[n]?

/-- The printed form of a number, with or without a kind. -/
def printCode (n : Nat) : String :=
  match ofCode? n with
  | some k => k.name
  | Option.none => "kind(" ++ Text.decimal n ++ ")"

/-- The message for a number that no kind has. -/
def invalidCode (n : Nat) : String := "mcode: invalid operand kind " ++ Text.decimal n

/-- The message for a name that no kind has. -/
def unknownName (s : String) : String := "mcode: unknown operand kind " ++ Text.quoted s

@[simp] theorem ofName?_name (k : Kind) : ofName? k.name = some k := by
  cases k <;> rfl

end Kind

/-! ## Operands -/

/-- The plain fields of an operand. -/
structure Fields where
  /-- What the operand stands for. -/
  kind : Kind := .none
  /-- Its width in bytes. -/
  size : Int := 0
  /-- The literal of an `imm`. -/
  value : UInt64 := 0
  /-- The number of a `reg`, the base of a `stack`. -/
  reg : Int := 0
  /-- The offset of a `stack`. -/
  off : Int := 0
  /-- The address of a `global`. -/
  addr : UInt64 := 0
  /-- The symbol of a `global`. -/
  name : String := ""
  /-- The serial of a `block`. -/
  block : Int := 0
deriving DecidableEq, Repr, Inhabited

namespace Fields

/-- The location that plain fields name. -/
def var? (f : Fields) : Option Var :=
  match f.kind with
  | .reg => some (.reg f.reg)
  | .stack => some (.stack f.reg f.off)
  | .global => some (.global f.addr)
  | _ => none

/-- Whether the fields that the common kind gives meaning to agree. -/
def same (ignoreSize : Bool) (f g : Fields) : Bool :=
  f.kind == g.kind && (ignoreSize || f.size == g.size) &&
    match f.kind with
    | .none | .expr => true
    | .imm => if ignoreSize then f.value == g.value
      else truncate f.value f.size == truncate g.value g.size
    | .reg => f.reg == g.reg
    | .stack => f.reg == g.reg && f.off == g.off
    | .global => f.addr == g.addr
    | .block => f.block == g.block

/-- The printed fields, a nested instruction being given as a text. -/
def text (nestedText : String) (f : Fields) : String :=
  let sized (body : String) := body ++ "." ++ Text.decimal f.size
  match f.kind with
  | .none => ""
  | .imm => sized ("#0x" ++ Text.hex f.value.toNat)
  | .reg => sized ("r" ++ Text.decimal f.reg)
  | .stack =>
    if f.reg = stackBase then sized ("%var_" ++ Text.signedHex f.off)
    else sized ("[r" ++ Text.decimal f.reg ++ Text.signedDecimal f.off ++ "]")
  | .global => if f.name = "" then sized ("$0x" ++ Text.hex f.addr.toNat) else "$" ++ f.name
  | .expr => nestedText
  | .block => "@" ++ Text.decimal f.block

end Fields

/-- **An operand**: its fields, and the nested instruction if it has one. -/
inductive Operand where
  /-- No nested instruction. -/
  | plain (fields : Fields)
  /-- The instruction `op l, r, d` nested inside. -/
  | nested (fields : Fields) (op : Opcode) (l r d : Operand)
deriving DecidableEq, Repr

namespace Operand

/-- The operand that says nothing. -/
def empty : Operand := plain {}

instance : Inhabited Operand := ⟨empty⟩

/-- The plain fields. -/
def fields : Operand → Fields
  | plain f => f
  | nested f _ _ _ _ => f

/-- The same operand with other plain fields. -/
def withFields (o : Operand) (f : Fields) : Operand :=
  match o with
  | plain _ => plain f
  | nested _ op l r d => nested f op l r d

/-- What the operand stands for. -/
def kind (o : Operand) : Kind := o.fields.kind

/-- The width in bytes. -/
def size (o : Operand) : Int := o.fields.size

/-- The serial a block operand names. -/
def block (o : Operand) : Int := o.fields.block

/-- The operand with another serial. -/
def withBlock (o : Operand) (serial : Int) : Operand :=
  o.withFields { o.fields with block := serial }

/-! ### Making operands -/

/-- A literal, cut to its size. -/
def imm (v : UInt64) (size : Int) : Operand :=
  plain { kind := .imm, size := size, value := truncate v size }

/-- A register. -/
def register (number size : Int) : Operand := plain { kind := .reg, size := size, reg := number }

/-- A stack slot relative to a base register. -/
def stackAt (base off size : Int) : Operand :=
  plain { kind := .stack, size := size, reg := base, off := off }

/-- A stack slot relative to the default base. -/
def stack (off size : Int) : Operand := stackAt stackBase off size

/-- A global address. -/
def global (addr : UInt64) (name : String) (size : Int) : Operand :=
  plain { kind := .global, size := size, addr := addr, name := name }

/-- The result of an instruction, as wide as its left operand. -/
def derived (op : Opcode) (l r d : Operand) : Operand :=
  nested { kind := .expr, size := l.size } op l r d

/-- A block to jump to. -/
def target (serial : Int) : Operand := plain { kind := .block, block := serial }

/-! ### Classification -/

/-- Stands for nothing. -/
def isNone (o : Operand) : Bool := o.kind == .none

/-- A literal. -/
def isImm (o : Operand) : Bool := o.kind == .imm

/-- **The location a register, slot or global names.** -/
def var? (o : Operand) : Option Var := o.fields.var?

/-- Names a location. -/
def isVar (o : Operand) : Bool := o.var?.isSome

/-- The result of a nested instruction with a given operation. -/
def isExprOf (o : Operand) (op : Opcode) : Bool :=
  match o with
  | nested f op' _ _ _ => f.kind == .expr && op' == op
  | plain _ => false

/-- The variables read when an operand is evaluated, in order, with repetitions. -/
def reads : Operand → List Var
  | plain f => f.var?.toList
  | nested f _ l r d =>
    if f.kind = .expr then l.reads ++ r.reads ++ (if d.kind = .expr then d.reads else [])
    else f.var?.toList

/-! ### Comparison -/

/-- **The same meaning**, sizes compared or not: names do not count, and of a nested instruction the
operation and the two sources do. -/
def same (ignoreSize : Bool) : Operand → Operand → Bool
  | plain f, plain g => f.same ignoreSize g
  | plain f, nested g _ _ _ _ => f.same ignoreSize g && f.kind != .expr
  | nested f _ _ _ _, plain g => f.same ignoreSize g && f.kind != .expr
  | nested f op l r _, nested g op' l' r' _ =>
    f.same ignoreSize g &&
      (f.kind != .expr || (op == op' && l.same ignoreSize l' && r.same ignoreSize r'))

/-! ### Printed form -/

/-- An operation and the operands that stand for something, each given with its text. -/
def joinText (op : Opcode) (operands : List (Operand × String)) : String :=
  match (operands.filter fun o => !o.1.isNone).map (·.2) with
  | [] => op.name
  | texts => op.name ++ " " ++ ", ".intercalate texts

/-- The printed form. -/
def text : Operand → String
  | plain f => f.text "(nil)"
  | nested f op l r d =>
    f.text ("(" ++ joinText op [(l, l.text), (r, r.text), (d, d.text)] ++ ")")

end Operand

end Deflatten

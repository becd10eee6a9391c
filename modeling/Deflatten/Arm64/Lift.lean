import Deflatten.Arm64.Blocks
import Deflatten.Arm64.Form
import Deflatten.Collections.Table
import Deflatten.Microcode.Edges

/-!
# Arm64/Lift — machine code as microcode

Lifting reads a block from top to bottom.  It keeps the microcode so far, the operand that each
register holds and the comparison that the flags stand for.  A register that holds a constant or
a slot is read as that; a pending comparison whose variables are about to change is first saved in
two registers of its own.

Within a block, a register holds an operand from the moment it is loaded with a constant or from a
stack slot until either of the two changes.  Only the general registers are tracked.
-/

namespace Deflatten

/-! ## Registers -/

namespace Reg

/-- The frame pointer. -/
def frame : Nat := 29

/-- The stack pointer, and the register that reads as zero. -/
def stack : Nat := 31

/-- The saved left side of a comparison. -/
def flagLeft : Nat := 40

/-- The saved right side of a comparison. -/
def flagRight : Nat := 41

/-- Flags that no comparison accounts for. -/
def flags : Nat := 42

end Reg

/-! ## What registers hold -/

/-- **The operand each register holds.** -/
abbrev Holdings := Table Int Operand

namespace Holdings

/-- Whether a register is tracked. -/
def isTracked (reg : Int) : Bool := 0 ≤ reg && reg ≤ 30

/-- Records that a register holds what an operand says; an operand that says nothing is forgotten. -/
def define (m : Holdings) (reg : Int) (v : Operand) : Holdings :=
  if !isTracked reg then m else if v.isNone then m.erase reg else m.insert reg v

/-- Keeps the registers whose entry passes a test. -/
def keep (m : Holdings) (p : Int → Operand → Bool) : Holdings :=
  ⟨m.bindings.filter fun b => p b.1 b.2⟩

/-- Forgets every register that holds a variable. -/
def forgetVar (m : Holdings) (v : Var) : Holdings := m.keep fun _ o => o.var? != some v

/-- Whether a call may change a register. -/
def isCallerSaved (reg : Int) : Bool := reg < 19 || reg == 30

/-- Forgets the registers that a call may change. -/
def forgetCallerSaved (m : Holdings) : Holdings := m.keep fun r _ => !isCallerSaved r

/-- The known registers, ascending. -/
def known (m : Holdings) : List (Int × Operand) := m.bindings.mergeSort fun a b => a.1 ≤ b.1

end Holdings

/-! ## Errors -/

/-- Why an instruction cannot be lifted. -/
inductive LiftCause where
  /-- It is not modelled, and everything must be. -/
  | unmodelled (mnemonic : String)
  /-- It tests flags that no comparison accounts for. -/
  | noCompare (cond : Condition)
  /-- It branches on a condition out of the function. -/
  | leaves
deriving DecidableEq, Repr

/-- The wording of a cause. -/
def LiftCause.message (c : LiftCause) : String :=
  "disasm: unsupported: " ++ match c with
  | unmodelled m => m
  | noCompare cond => "condition " ++ Text.decimal cond.code ++ " without a modeled compare"
  | leaves => "conditional branch leaves the function"

/-- Why a function cannot be lifted. -/
inductive LiftError where
  /-- It has no instructions. -/
  | noCode (fn : String)
  /-- One instruction cannot be. -/
  | atInst (fn : String) (inst : Inst) (cause : LiftCause)
  /-- The blocks do not make a function. -/
  | flow (fn : String) (error : FlowError)
deriving DecidableEq, Repr

/-- The wording of an error. -/
def LiftError.message : LiftError → String
  | noCode fn => "disasm: unsupported: " ++ fn ++ " has no code"
  | atInst fn i c =>
    "disasm: lift " ++ fn ++ ": 0x" ++ Text.hex i.addr.toNat ++ " " ++ i.text ++ ": " ++ c.message
  | flow fn e => "disasm: lift " ++ fn ++ ": " ++ e.message

/-! ## The state -/

/-- How to lift. -/
structure LiftOptions where
  /-- The names of call targets. -/
  nameOf : UInt64 → Option String := fun _ => none
  /-- Whether instructions that are not modelled are refused. -/
  strict : Bool := false
  /-- Whether registers are read as what they hold. -/
  substitute : Bool := true
  /-- What is asked about other words. -/
  decoder : Decoder := {}

/-- The comparison that the flags stand for. -/
structure Compare where
  /-- The left side. -/
  l : Operand
  /-- The right side. -/
  r : Operand
deriving DecidableEq, Repr

/-- Whether a comparison reads a variable. -/
def Compare.readsVar (c : Compare) (v : Var) : Bool := c.l.reads.contains v || c.r.reads.contains v

/-- **A block lifted so far.** -/
structure Lifting where
  /-- What registers hold. -/
  held : Holdings := .empty
  /-- The comparison that the flags stand for. -/
  flags? : Option Compare := none
  /-- The microcode. -/
  code : List Insn := []
deriving DecidableEq, Repr

namespace Lifting

/-- Appends an instruction that changes nothing which is tracked. -/
def push (s : Lifting) (i : Insn) : Lifting := { s with code := s.code ++ [i] }

/-- Forgets the registers that a changed variable makes stale. -/
def forget (s : Lifting) (v : Var) : Lifting :=
  match v with
  | .reg n => { s with held := s.held.erase n }
  | .stack .. => { s with held := s.held.forgetVar v }
  | .global _ => s

/-- The registers that a comparison is saved in; a constant right side stays. -/
def savedCompare (c : Compare) : Compare :=
  ⟨.register Reg.flagLeft c.l.size, if c.r.isImm then c.r else .register Reg.flagRight c.r.size⟩

/-- The moves that save a comparison. -/
def saveCode (c : Compare) : List Insn :=
  .mov c.l (savedCompare c).l :: if c.r.isImm then [] else [.mov c.r (savedCompare c).r]

/-- Saves the pending comparison if it reads a variable. -/
def saveFlags (s : Lifting) (v : Var) : Lifting :=
  match s.flags? with
  | some c =>
    if c.readsVar v then { s with code := s.code ++ saveCode c, flags? := some (savedCompare c) }
    else s
  | none => s

/-- Prepares for a change of a variable. -/
def clobber (s : Lifting) (v : Var) : Lifting := (s.forget v).saveFlags v

/-- **Appends an instruction**, having prepared for what it writes. -/
def emit (s : Lifting) (i : Insn) : Lifting := (i.defs.foldl clobber s).push i

/-- Makes a comparison the pending one. -/
def compare (s : Lifting) (l r : Operand) : Lifting := { s with flags? := some ⟨l, r⟩ }

/-- What a register is known to hold. -/
def lookup? (o : LiftOptions) (s : Lifting) (n : Nat) : Option Operand :=
  if o.substitute then s.held.get? n else none

/-- **A register as a source.**  Register 31 is zero. -/
def read (o : LiftOptions) (s : Lifting) (n : Nat) (size : Int) : Operand :=
  if n = 31 then .imm 0 size
  else
    match lookup? o s n with
    | some v =>
      if v.isImm then .imm v.fields.value size
      else if v.size = size then v
      else .register n size
    | none => .register n size

/-- A register as a source, register 31 being the stack pointer. -/
def readStack (o : LiftOptions) (s : Lifting) (n : Nat) (size : Int) : Operand :=
  if n = Reg.stack then .register Reg.stack size else s.read o n size

/-- A register moved by a number of places. -/
def readShifted (o : LiftOptions) (s : Lifting) (n : Nat) (shift : Shift) (size : Int) : Operand :=
  let v := s.read o n size
  match shift with
  | .none => v
  | .left k => .derived .shl v (.imm (UInt64.ofNat k) size) .empty
  | .right k => .derived .shr v (.imm (UInt64.ofNat k) size) .empty

/-- A register as a destination; writes to register 31 are lost. -/
def destination? (rd : Nat) (size : Int) : Option Operand :=
  if rd = 31 then none else some (.register rd size)

/-- Appends an instruction with a register as its destination, or nothing for register 31. -/
def emitTo (s : Lifting) (op : Opcode) (l r : Operand) (rd : Nat) (size : Int) : Lifting :=
  match destination? rd size with
  | some d => s.emit ⟨op, l, r, d⟩
  | none => s

/-- **Copies a source to a register** and remembers a constant or a slot.  The stack pointer can only
be copied from a register. -/
def move (s : Lifting) (src : Operand) (rd : Nat) (size : Int) : Lifting :=
  let d? := if rd = Reg.stack && src.kind == .reg then some (.register Reg.stack size)
    else destination? rd size
  match d? with
  | none => s
  | some d =>
    let s := s.emit (.mov src d)
    if src.isImm || src.kind == .stack then { s with held := s.held.define rd src } else s

/-! ## Memory -/

/-- The operand for an address: a slot off the stack or frame pointer, else the address itself. -/
def memory (rn : Nat) (off size : Int) : Operand :=
  if rn = Reg.stack || rn = Reg.frame then .stackAt rn off size
  else if off = 0 then .register rn 8
  else .derived .add (.register rn 8) (.imm (UInt64.ofInt off) 8) .empty

/-- Loads a register. -/
def load (s : Lifting) (m : Operand) (rt : Nat) (size : Int) : Lifting :=
  if m.kind = .stack then s.move m rt size else s.emitTo .ldx m .empty rt size

/-- Stores a value. -/
def store (s : Lifting) (v m : Operand) : Lifting :=
  if m.kind = .stack then s.emit (.mov v m) else s.emit { op := .stx, l := v, r := m }

/-- Adds to a base register. -/
def stepBase (s : Lifting) (rn : Nat) : Option Int → Lifting
  | none => s
  | some n =>
    s.emit (.binary .add (.register rn 8) (.imm (UInt64.ofInt n) 8) (.register rn 8))

/-! ## Instructions -/

/-- The callee at an address, named after its symbol or its address. -/
def callee (o : LiftOptions) (target : UInt64) : Operand :=
  .global target ((o.nameOf target).getD ("sub_" ++ Text.hex target.toNat)) 8

/-- Addition or subtraction, which may leave a comparison behind.  Adding nothing is a copy. -/
def addSub (s : Lifting) (sub flags : Bool) (a b : Operand) (rd : Nat) (size : Int) : Lifting :=
  let compared :=
    if !flags then s
    else if sub then s.compare a b
    else if b.isImm then s.compare a (.imm (-b.fields.value) size)
    else s.compare a (.derived .neg b .empty .empty)
  if flags && rd = 31 then compared
  else if !sub && b.isImm && b.fields.value == 0 then compared.move a rd size
  else compared.emit ⟨if sub then .sub else .add, a, b, .register rd size⟩

/-- The second source of a logical instruction. -/
def logicSource (o : LiftOptions) (s : Lifting) (size : Int) : LogicSource → Operand
  | .imm v => .imm v size
  | .reg rm shift invert =>
    let b := s.readShifted o rm shift size
    if invert then .derived .bnot b .empty .empty else b

/-- A bitwise operation, which may leave a comparison with zero behind.  Combining with nothing is a
copy. -/
def logical (o : LiftOptions) (s : Lifting) (op : Opcode) (flags : Bool) (b : Operand) (rn rd : Nat)
    (size : Int) : Lifting :=
  if op = .or && rn = 31 then s.move b rd size
  else
    let a := s.read o rn size
    let s := if flags then s.compare (.derived .and a b .empty) (.imm 0 size) else s
    s.emitTo op a b rd size

/-- An instruction that is not modelled: the register it writes becomes unknown and the flags are
lost, unless that is refused. -/
def skip (o : LiftOptions) (i : Inst) (s : Lifting) : Except LiftCause Lifting :=
  if o.strict then .error (.unmodelled i.mnemonic)
  else
    let s := { s with flags? := none }
    match o.decoder.destination? i.raw with
    | some (rd, size) => .ok (s.emit { op := .und, d := .register rd size })
    | none => .ok s

/-- **Lifts one instruction that does not end a block.** -/
def inst (o : LiftOptions) (s : Lifting) (i : Inst) : Except LiftCause Lifting :=
  match Form.decode o.decoder i.raw i.addr with
  | .nothing => .ok s
  | .call c =>
    let x0 := Operand.register 0 8
    let target := match c with
      | .direct t => callee o t
      | .indirect r => .register r 8
    let s := s.emit (.call target x0 x0)
    .ok { s with held := s.held.forgetCallerSaved, flags? := none }
  | .constant v rd size => .ok (s.move (.imm v size) rd size)
  | .insert imm mask rd size =>
    match destination? rd size with
    | none => .ok s
    | some d =>
      match (s.lookup? o rd).filter Operand.isImm with
      | some cur => .ok (s.move (.imm (cur.fields.value &&& ~~~mask ||| imm) size) rd size)
      | none =>
        let s := s.emit (.binary .and d (.imm (~~~mask) size) d)
        .ok (s.emit (.binary .or d (.imm imm size) d))
  | .addSubImm sub flags imm rn rd size =>
    .ok (s.addSub sub flags (s.readStack o rn size) (.imm imm size) rd size)
  | .addSubReg sub flags rm shift rn rd size =>
    if rd = 31 && !flags then .ok s
    else .ok (s.addSub sub flags (s.read o rn size) (s.readShifted o rm shift size) rd size)
  | .logical op flags b rn rd size =>
    .ok (s.logical o op flags (s.logicSource o size b) rn rd size)
  | .multiply sub rm ra rn rd size =>
    let a := s.read o rn size
    let b := s.read o rm size
    let product := Operand.derived .mul a b .empty
    if sub then .ok (s.emitTo .sub (s.read o ra size) product rd size)
    else if ra = 31 then .ok (s.emitTo .mul a b rd size)
    else .ok (s.emitTo .add (s.read o ra size) product rd size)
  | .bitfield op amount rn rd size =>
    .ok (s.emitTo op (s.read o rn size) (.imm amount size) rd size)
  | .shiftBy op rm rn rd size =>
    let places := .derived .and (s.read o rm size) (.imm (UInt64.ofInt (size * 8 - 1)) size) .empty
    .ok (s.emitTo op (s.read o rn size) places rd size)
  | .conditionSet equal rd size =>
    match s.flags? with
    | none => s.skip o i
    | some c => .ok (s.emitTo (if equal then .setz else .setnz) c.l c.r rd size)
  | .access t rt rn off size step =>
    let m := memory rn off size
    let regSize : Int := Encoding.width (size == 8)
    match t with
    | .store => .ok ((s.store (s.read o rt regSize) m).stepBase rn step)
    | .load => .ok ((s.load m rt regSize).stepBase rn step)
    | .other => (s.skip o i).map fun s => s.stepBase rn step
  | .pair isLoad rt rt2 rn off size step =>
    let one (s : Lifting) (r : Nat) (off : Int) : Lifting :=
      let m := memory rn off size
      if isLoad then s.load m r size else s.store (s.read o r size) m
    .ok ((one (one s rt off) rt2 (off + size)).stepBase rn step)
  | .unmodelled => s.skip o i

/-- Lifts instructions in order, up to the first that cannot be. -/
def insts (o : LiftOptions) : Lifting → List Inst → Except (Inst × LiftCause) Lifting
  | s, [] => .ok s
  | s, i :: is =>
    match s.inst o i with
    | .ok s => insts o s is
    | .error c => .error (i, c)

/-! ## Branches -/

/-- The comparison and the jump for a condition on the flags.  Where either is missing, a register
that nothing writes is tested. -/
def flagsJump (o : LiftOptions) (s : Lifting) (cond : Condition) :
    Except LiftCause (Opcode × Compare) :=
  match cond.jump?, s.flags? with
  | some op, some c => .ok (op, c)
  | op?, _ =>
    if o.strict then .error (.noCompare cond)
    else .ok (op?.getD .jnz, ⟨.register Reg.flags 4, .imm 0 4⟩)

/-- **The microcode of a branch**, given the blocks that it goes to. -/
def branch (o : LiftOptions) (s : Lifting) (taken? next? : Option Nat) (b : Branch) :
    Except LiftCause (List Insn) :=
  let x0 := Operand.register 0 8
  match b, taken?, next? with
  | .ret, _, _ => .ok [.ret x0]
  | .always _, some t, _ => .ok [.goto t]
  | .always target, none, _ => .ok [.call (callee o target) x0 x0, .ret x0]
  | .onFlags cond _, some t, some _ => do
    let (op, c) ← s.flagsJump o cond
    pure [.branch op c.l c.r t]
  | .onZero zero reg wide _, some t, some _ =>
    let size := Encoding.width wide
    .ok [.branch (if zero then .jz else .jnz) (s.read o reg size) (.imm 0 size) t]
  | .onBit clear reg wide bit _, some t, some _ =>
    let size := Encoding.width wide
    let tested := .derived .and (s.read o reg size) (.imm (UInt64.ofNat (1 <<< bit)) size) .empty
    .ok [.branch (if clear then .jz else .jnz) tested (.imm 0 size) t]
  | _, _, _ => .error .leaves

end Lifting

/-! ## Functions -/

/-- Lifts a block.  Only what ends without a branch, or with a conditional one, falls through. -/
def BasicBlock.lift (o : LiftOptions) (b : BasicBlock) : Except (Inst × LiftCause) Block := do
  let s ← ({} : Lifting).insts o b.body
  let block (is : List Insn) : Block :=
    { serial := b.id, code := if is.isEmpty then none else some is,
      next := b.next?.elim noBlock Int.ofNat }
  match b.branch?, b.code.getLast? with
  | some t, some last =>
    match s.branch o b.taken? b.next? t with
    | .ok is => pure (block (s.code ++ is))
    | .error c => .error (last, c)
  | _, _ => pure (block s.code)

/-- Lifts blocks in order, up to the first that cannot be. -/
def BasicBlock.liftAll (o : LiftOptions) : List BasicBlock → Except (Inst × LiftCause) (List Block)
  | [] => .ok []
  | b :: bs => do
    let x ← b.lift o
    let xs ← liftAll o bs
    pure (x :: xs)

/-- **Lifts a function.**  Block numbers become serials, so the entry is block 0. -/
def MachineFunc.lift (o : LiftOptions) (f : MachineFunc) : Except LiftError Func :=
  if f.blocks.isEmpty then .error (.noCode f.name)
  else
    match BasicBlock.liftAll o f.blocks with
    | .error (i, c) => .error (.atInst f.name i c)
    | .ok bs =>
      match Func.ofBlocks f.name bs with
      | .ok g => .ok g
      | .error e => .error (.flow f.name e)

/-! ## Listings

One line per instruction: address, bytes, text, and a comment if there is one.  A symbol at the
address is the comment before any other. -/

/-- A comment on an instruction; the empty text is none. -/
abbrev Annotator := Inst → String

namespace Inst

/-- **The comment on an instruction**: its symbol, else the first annotation that says something. -/
def comment (nameOf : UInt64 → Option String) (annotators : List Annotator) (i : Inst) : String :=
  match nameOf i.addr with
  | some name => "<" ++ name ++ ">"
  | none => ((annotators.map fun a => a i).find? fun s => s != "").getD ""

/-- The line of an instruction. -/
def line (nameOf : UInt64 → Option String) (annotators : List Annotator) (i : Inst) : String :=
  let bytes := i.raw.bytes.map fun b => Text.paddedHex 2 b.toNat
  let comment := i.comment nameOf annotators
  "0x" ++ Text.paddedHex 8 i.addr.toNat ++ "  " ++ " ".intercalate bytes ++ "  " ++ i.text ++
    (if comment = "" then "" else "  ; " ++ comment) ++ "\n"

/-- **The microcode of an instruction** on its own, without the block around it. -/
def microcode (nameOf : UInt64 → Option String) : Annotator := fun i =>
  if i.raw.endsBlock then ""
  else
    match ({} : Lifting).inst { nameOf := nameOf } i with
    | .error _ => ""
    | .ok s =>
      let flags := s.flags?.toList.map fun c => "flags " ++ c.l.text ++ " ? " ++ c.r.text
      "; ".intercalate (s.code.map Insn.text ++ flags)

end Inst

/-- **The listing of instructions.** -/
def listing (nameOf : UInt64 → Option String) (annotators : List Annotator) (is : List Inst) :
    String :=
  String.join (is.map (Inst.line nameOf annotators))

end Deflatten

import Deflatten.Json.Reader
import Deflatten.Json.Writer
import Deflatten.Microcode.Edges

/-!
# Microcode/Exchange — functions as lines of JSON

A function is written as one line.  A field of an operand is left out when it is zero or empty, and
an operand when all its fields are; a list that was never set is written `null`.

Reading takes the members of an object in order, each into the record as it stands: a member may
change what an earlier one of its name has set, `null` changes nothing but lists and nested
instructions, and unknown members are passed over.  The first member that does not fit decides the
error.

`null` may stand in a list.  For a block it ends the reading of the text; a function in which it
stands for an instruction is let in as it is.
-/

namespace Deflatten

/-! ## Writing -/

/-- A member unless its value is the absent one. -/
def memberUnless (absent : Bool) (name : String) (value : Json) : List (String × Json) :=
  if absent then [] else [(name, value)]

/-- The members of an operand, the nested instruction being given. -/
def Fields.members (f : Fields) (expr : List (String × Json)) : List (String × Json) :=
  ("t", .str f.kind.name) ::
    memberUnless (f.size = 0) "size" (.int f.size) ++
    memberUnless (f.value = 0) "value" (.nat f.value.toNat) ++
    memberUnless (f.reg = 0) "reg" (.int f.reg) ++
    memberUnless (f.off = 0) "off" (.int f.off) ++
    memberUnless (f.addr = 0) "addr" (.nat f.addr.toNat) ++
    memberUnless (f.name = "") "name" (.str f.name) ++
    expr ++
    memberUnless (f.block = 0) "block" (.int f.block)

/-- The members of an instruction, each operand given with whether it is empty. -/
def insnMembers (op : Opcode) (l r d : Bool × Json) : List (String × Json) :=
  ("op", .str op.name) ::
    memberUnless l.1 "l" l.2 ++ memberUnless r.1 "r" r.2 ++ memberUnless d.1 "d" d.2

/-- An operand as an object. -/
def Operand.toJson : Operand → Json
  | .plain f => .obj (f.members [])
  | .nested f op l r d =>
    .obj (f.members [("expr", .obj (insnMembers op (l = .empty, l.toJson) (r = .empty, r.toJson)
      (d = .empty, d.toJson)))])

/-- An instruction as an object. -/
def Insn.toJson (i : Insn) : Json :=
  .obj (insnMembers i.op (i.l = .empty, i.l.toJson) (i.r = .empty, i.r.toJson)
    (i.d = .empty, i.d.toJson))

/-- A list that may never have been set. -/
def Json.ofList? {α : Type} (f : α → Json) : Option (List α) → Json
  | none => .null
  | some xs => .arr (xs.map f)

/-- A block as an object, without its edges. -/
def Block.toJson (b : Block) : Json :=
  .obj [("serial", .int b.serial), ("insns", Json.ofList? Insn.toJson b.code),
    ("next", .int b.next)]

/-- A function as an object. -/
def Func.toJson (f : Func) : Json :=
  .obj [("name", .str f.name), ("maturity", .str f.maturity.name),
    ("blocks", Json.ofList? Block.toJson f.body)]

/-- **Functions as lines of text.** -/
def writeFuncs (fs : List Func) : String := String.join (fs.map fun f => f.toJson.compact ++ "\n")

/-! ## Reading fields -/

/-- Why a value does not fit where it stands. -/
inductive ValueError where
  /-- It is no JSON, or of the wrong sort or size. -/
  | malformed
  /-- No operation has this name. -/
  | unknownOpcode (name : String)
  /-- No kind has this name. -/
  | unknownKind (name : String)
  /-- No stage has this name. -/
  | unknownMaturity (name : String)
deriving DecidableEq, Repr

/-- The wording of the error. -/
def ValueError.message : ValueError → String
  | malformed => "json"
  | unknownOpcode s => Opcode.unknownName s
  | unknownKind s => Kind.unknownName s
  | unknownMaturity s => Maturity.unknownName s

/-- **A value that is read**, or why it does not fit. -/
abbrev Reading (α : Type) := Except ValueError α

namespace Json

/-- The integer a number spells, if it is written without a point or an exponent. -/
def integer? : List Char → Option Int
  | '-' :: ds => (Text.readDecimal? ds).map fun n => -(n : Int)
  | ds => (Text.readDecimal? ds).map fun n => (n : Int)

/-- A signed 64-bit integer. -/
def readInt (cur : Int) : Json → Reading Int
  | null => pure cur
  | num literal =>
    match (integer? literal).filter Text.isInt64 with
    | some i => pure i
    | none => .error .malformed
  | _ => .error .malformed

/-- An unsigned 64-bit integer. -/
def readWord (cur : UInt64) : Json → Reading UInt64
  | null => pure cur
  | num literal =>
    match (Text.readDecimal? literal).filter (· < UInt64.size) with
    | some n => pure (UInt64.ofNat n)
    | none => .error .malformed
  | _ => .error .malformed

/-- A text. -/
def readString (cur : String) : Json → Reading String
  | null => pure cur
  | str s => pure s
  | _ => .error .malformed

/-- A value given by name. -/
def readName {α : Type} (ofName? : String → Option α) (unknown : String → ValueError) (cur : α) :
    Json → Reading α
  | null => pure cur
  | str s =>
    match ofName? s with
    | some a => pure a
    | none => .error (unknown s)
  | _ => .error .malformed

end Json

/-! ## Reading operands and instructions -/

/-- A plain field of an operand by its name; nothing if no field has the name. -/
def Fields.readMember? (f : Fields) (name : String) (j : Json) : Option (Reading Fields) :=
  if Json.sameName name "t" then
    some ((fun k => { f with kind := k }) <$> Json.readName Kind.ofName? .unknownKind f.kind j)
  else if Json.sameName name "size" then
    some ((fun i => { f with size := i }) <$> Json.readInt f.size j)
  else if Json.sameName name "value" then
    some ((fun w => { f with value := w }) <$> Json.readWord f.value j)
  else if Json.sameName name "reg" then
    some ((fun i => { f with reg := i }) <$> Json.readInt f.reg j)
  else if Json.sameName name "off" then
    some ((fun i => { f with off := i }) <$> Json.readInt f.off j)
  else if Json.sameName name "addr" then
    some ((fun w => { f with addr := w }) <$> Json.readWord f.addr j)
  else if Json.sameName name "name" then
    some ((fun s => { f with name := s }) <$> Json.readString f.name j)
  else if Json.sameName name "block" then
    some ((fun i => { f with block := i }) <$> Json.readInt f.block j)
  else none

/-- The operand with another nested instruction, or none. -/
def Operand.withExpr (o : Operand) : Option Insn → Operand
  | none => .plain o.fields
  | some i => .nested o.fields i.op i.l i.r i.d

mutual

/-- An operand, read into `cur`. -/
def Operand.readInto (cur : Operand) : Json → Reading Operand
  | .null => pure cur
  | .obj ms => cur.readMembers ms
  | _ => .error .malformed

/-- The members of an operand in turn. -/
def Operand.readMembers (cur : Operand) : List (String × Json) → Reading Operand
  | [] => pure cur
  | m :: ms => do
    let cur ← cur.readMember m
    cur.readMembers ms

/-- One member of an operand. -/
def Operand.readMember (cur : Operand) : String × Json → Reading Operand
  | (name, j) =>
    if Json.sameName name "expr" then
      match j with
      | .null => pure (cur.withExpr none)
      | j => (fun i => cur.withExpr (some i)) <$> Insn.readInto (cur.expr?.getD {}) j
    else
      match cur.fields.readMember? name j with
      | some r => cur.withFields <$> r
      | none => pure cur

/-- An instruction, read into `cur`. -/
def Insn.readInto (cur : Insn) : Json → Reading Insn
  | .null => pure cur
  | .obj ms => cur.readMembers ms
  | _ => .error .malformed

/-- The members of an instruction in turn. -/
def Insn.readMembers (cur : Insn) : List (String × Json) → Reading Insn
  | [] => pure cur
  | m :: ms => do
    let cur ← cur.readMember m
    cur.readMembers ms

/-- One member of an instruction. -/
def Insn.readMember (cur : Insn) : String × Json → Reading Insn
  | (name, j) =>
    if Json.sameName name "op" then
      (fun op => { cur with op := op }) <$> Json.readName Opcode.ofName? .unknownOpcode cur.op j
    else if Json.sameName name "l" then (fun o => { cur with l := o }) <$> cur.l.readInto j
    else if Json.sameName name "r" then (fun o => { cur with r := o }) <$> cur.r.readInto j
    else if Json.sameName name "d" then (fun o => { cur with d := o }) <$> cur.d.readInto j
    else pure cur

end

/-! ## Reading blocks and functions

An element that is `null` is found out only when the function is put together, so lists are read with
gaps.  A list that comes again is read into what was read before it: elements past the end of a
shorter one are out of the list, but a longer one after that is read into them again. -/

/-- **A list as it is read**: the elements in it, and the ones past its end that were read before. -/
structure Slots (α : Type) where
  /-- The elements, or nothing if the list was never set. -/
  shown : Option (List (Option α)) := none
  /-- Elements past the end. -/
  behind : List (Option α) := []

namespace Slots

variable {α : Type}

/-- The elements in the list. -/
def elems (s : Slots α) : List (Option α) := s.shown.getD []

/-- Elements that may be `null`, each read into the one that stood there. -/
def readElems (fresh : α) (readInto : α → Json → Reading α) :
    List (Option α) → List Json → Reading (List (Option α))
  | _, [] => pure []
  | cur, j :: js => do
    let head ← match j with
      | .null => pure none
      | j => some <$> readInto ((cur.head?.bind id).getD fresh) j
    let rest ← readElems fresh readInto cur.tail js
    pure (head :: rest)

/-- A list, read into what was read before.  A list without elements and `null` leave nothing of
it. -/
def readInto (fresh : α) (readInto : α → Json → Reading α) (cur : Slots α) :
    Json → Reading (Slots α)
  | .null => pure {}
  | .arr [] => pure { shown := some [] }
  | .arr js => do
    let cells := cur.elems ++ cur.behind
    let elems ← readElems fresh readInto cells js
    pure { shown := some elems, behind := cells.drop js.length }
  | _ => .error .malformed

end Slots

/-- A block as read. -/
structure BlockRecord where
  /-- Its number. -/
  serial : Int := 0
  /-- Its instructions. -/
  insns : Slots Insn := {}
  /-- Its fall-through. -/
  next : Int := 0

/-- A function as read. -/
structure FuncRecord where
  /-- Its name. -/
  name : String := ""
  /-- Its stage. -/
  maturity : Maturity := .lifted
  /-- Its blocks. -/
  blocks : Slots BlockRecord := {}

/-- The members of an object in turn. -/
def readMembersInto {α : Type} (readMember : α → String → Json → Reading α) :
    α → List (String × Json) → Reading α
  | cur, [] => pure cur
  | cur, (name, j) :: ms => do
    let cur ← readMember cur name j
    readMembersInto readMember cur ms

/-- An object, read into `cur` by its members. -/
def readObject {α : Type} (readMember : α → String → Json → Reading α) (cur : α) :
    Json → Reading α
  | .null => pure cur
  | .obj ms => readMembersInto readMember cur ms
  | _ => .error .malformed

/-- One member of a block. -/
def BlockRecord.readMember (b : BlockRecord) (name : String) (j : Json) : Reading BlockRecord :=
  if Json.sameName name "serial" then
    (fun i => { b with serial := i }) <$> Json.readInt b.serial j
  else if Json.sameName name "insns" then
    (fun is => { b with insns := is }) <$> b.insns.readInto {} Insn.readInto j
  else if Json.sameName name "next" then (fun i => { b with next := i }) <$> Json.readInt b.next j
  else pure b

/-- One member of a function. -/
def FuncRecord.readMember (f : FuncRecord) (name : String) (j : Json) : Reading FuncRecord :=
  if Json.sameName name "name" then (fun s => { f with name := s }) <$> Json.readString f.name j
  else if Json.sameName name "maturity" then
    (fun m => { f with maturity := m }) <$>
      Json.readName Maturity.ofName? .unknownMaturity f.maturity j
  else if Json.sameName name "blocks" then
    (fun bs => { f with blocks := bs }) <$>
      f.blocks.readInto {} (readObject BlockRecord.readMember) j
  else pure f

/-! ## Functions that are let in -/

/-- Why a function cannot be read. -/
inductive ReadError where
  /-- A value does not fit. -/
  | value (e : ValueError)
  /-- The edges cannot be built. -/
  | flow (e : FlowError)
  /-- `null` stands where a block or an instruction has to be. -/
  | absent
deriving DecidableEq, Repr

/-- The wording of an error. -/
def ReadError.message : ReadError → String
  | value e => e.message
  | flow e => e.message
  | absent => "null"

/-- **A function as it is let in**: instructions may be `null`. -/
structure Draft where
  /-- The function, with its edges.  It does nothing where an instruction is not there. -/
  func : Func
  /-- The places of the instructions that are not there, each by the position of its block and its
  position in the block. -/
  gaps : List (Nat × Nat) := []
deriving DecidableEq, Repr

/-- The positions of the instructions that are not there. -/
def BlockRecord.gaps (b : BlockRecord) : List Nat :=
  (b.insns.elems.zipIdx.filter fun x => x.1.isNone).map (·.2)

/-- The block of a record, with nothing done where an instruction is not there. -/
def BlockRecord.outline (b : BlockRecord) : Block :=
  { serial := b.serial, code := b.insns.shown.map fun is => is.map (·.getD {}), next := b.next }

/-- The places of the instructions that are not there. -/
def FuncRecord.gaps (f : FuncRecord) : List (Nat × Nat) :=
  f.blocks.elems.zipIdx.flatMap fun x => (x.1.elim [] BlockRecord.gaps).map fun k => (x.2, k)

/-- The function of a record, without edges: the blocks that are there. -/
def FuncRecord.outline (f : FuncRecord) : Func :=
  { name := f.name, maturity := f.maturity
    body := f.blocks.shown.map fun bs => bs.filterMap fun b => b.map BlockRecord.outline }

/-- Each block has to be there and in its place. -/
def checkPlaces (fn : String) : Nat → List (Option BlockRecord) → Except ReadError Unit
  | _, [] => .ok ()
  | _, none :: _ => .error .absent
  | i, some b :: bs =>
    if b.serial ≠ i then .error (.flow (.misplaced fn i b.serial)) else checkPlaces fn (i + 1) bs

/-- The function of a record, with its edges.  Building them looks past instructions that are not
there. -/
def FuncRecord.toDraft (f : FuncRecord) : Except ReadError Draft := do
  checkPlaces f.name 0 f.blocks.elems
  match Func.rebuildEdges f.outline with
  | .error e _ => .error (.flow e)
  | .ok _ g => .ok { func := g, gaps := f.gaps }

namespace Draft

/-- **A function from a value.** -/
def ofJson (j : Json) : Except ReadError Draft := do
  let record ← (readObject FuncRecord.readMember {} j).mapError .value
  record.toDraft

/-- Whether a walk over the instructions of the block at a position comes to one that is not there
before one that ends the block. -/
def comesToGap (d : Draft) (i : Nat) (is : List Insn) : Bool :=
  d.gaps.any fun g => g.1 == i && !(is.take g.2).any fun ins => ins.op.endsBlock

/-- Checks the block at a position.  The walk over its instructions breaks off at one that is not
there. -/
def verifyBlock (d : Draft) (i : Nat) (b : Block) : Except ReadError Unit :=
  if b.serial = i ∧ d.comesToGap i b.insns then .error .absent
  else (d.func.verifyBlock i b).mapError .flow

/-- Checks the blocks from a position on. -/
def verifyFrom (d : Draft) : Nat → List Block → Except ReadError Unit
  | _, [] => .ok ()
  | i, b :: bs => do
    d.verifyBlock i b
    d.verifyFrom (i + 1) bs

/-- **Checks a function that was let in**, as `Func.verify` does one without gaps. -/
def verify (d : Draft) : Except ReadError Unit := d.verifyFrom 0 d.func.blocks

end Draft

/-- A single block from a value, without edges; all its instructions have to be there. -/
def Block.ofJson (j : Json) : Except ReadError Block := do
  let record ← (readObject BlockRecord.readMember {} j).mapError .value
  if record.gaps.isEmpty then .ok record.outline else .error .absent

/-! ## Streams -/

/-- A failure in the reading of several functions: the position it happened at. -/
structure ReadFailure where
  /-- The number of the function that failed, the first being 1. -/
  line : Nat
  /-- Why. -/
  error : ReadError
deriving DecidableEq, Repr

/-- The wording of a failure. -/
def ReadFailure.message (e : ReadFailure) : String :=
  "mcode: line " ++ Text.decimal e.line ++ ": " ++ e.error.message

/-- Reads functions until the text ends, a closing bracket or brace stands where a function could,
or one cannot be read; `line` is the number of the next. -/
def readFuncsFrom : (fuel line : Nat) → List Char → List Draft × Option ReadFailure
  | 0, _, _ => ([], none)
  | fuel + 1, line, cs =>
    match Json.skipBlanks cs with
    | [] => ([], none)
    | '\x7d' :: _ => ([], none)
    | ']' :: _ => ([], none)
    | cs =>
      match Json.readValue cs with
      | none => ([], some ⟨line, .value .malformed⟩)
      | some (j, rest) =>
        match Draft.ofJson j with
        | .error e => ([], some ⟨line, e⟩)
        | .ok d =>
          let (ds, failure) := readFuncsFrom fuel (line + 1) rest
          (d :: ds, failure)

/-- **The functions of a text**, up to the first that cannot be read. -/
def readFuncs (s : String) : List Draft × Option ReadFailure :=
  let cs := s.toList
  readFuncsFrom (cs.length + 1) 1 cs

end Deflatten

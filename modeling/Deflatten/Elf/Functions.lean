import Deflatten.Collections.Table
import Deflatten.Elf.Image
import Deflatten.Text.Bytes

/-!
# Elf/Functions — the functions of an image and their code

The function table lists each address once, in ascending order, under the first name that the static
and then the dynamic symbols give it.  Code is read through the segment that holds its address.
-/

namespace Deflatten.Elf

/-! ## Symbols -/

/-- An entry of a symbol table. -/
structure Symbol where
  /-- Its name. -/
  name : String
  /-- The kind of thing it names. -/
  kind : Nat
  /-- The section it is defined in; zero if it is not. -/
  home : Nat
  /-- Its address. -/
  value : UInt64
  /-- Its bytes. -/
  size : UInt64
deriving DecidableEq, Repr, Inhabited

/-- The bytes of an entry. -/
def symbolSize : Nat := 24

/-- The entry that bytes spell, with its name from a table of texts.  An entry whose name is not in
the table has an empty one. -/
def Symbol.ofBytes (big : Bool) (names entry : List UInt8) : Symbol :=
  let field (off n : Nat) := numberOf big ((entry.drop off).take n)
  { name := Text.ofUtf8 ((textAt? names (field 0 4)).getD [])
    kind := field 4 1 % 16
    home := field 6 2
    value := UInt64.ofNat (field 8 8)
    size := UInt64.ofNat (field 16 8) }

/-- The entries of a symbol table.  Fuel is one per entry. -/
def Symbol.listOf (big : Bool) (names : List UInt8) : Nat → List UInt8 → List Symbol
  | 0, _ => []
  | n + 1, table =>
    .ofBytes big names (table.take symbolSize) :: listOf big names n (table.drop symbolSize)

/-- **The symbols in the first section of a kind**; none if there is no such section.  The first
entry of a table says nothing. -/
def Image.symbols (i : Image) (kind : Nat) : Except Error (List Symbol) :=
  match i.sections.find? fun s => s.kind == kind with
  | none => .ok []
  | some s =>
    match sectionBytes? i.file s with
    | none => .error (.badSymbols "cannot load symbol section: unexpected EOF")
    | some [] => .error (.badSymbols "symbol section is empty")
    | some table =>
      if table.length % symbolSize ≠ 0 then
        .error (.badSymbols "length of symbol section is not a multiple of Sym64Size")
      else
        match if s.link = 0 then none else i.sections[s.link]? with
        | none =>
          .error (.badSymbols
            "cannot load string table section: section has invalid string table link")
        | some texts =>
          match sectionBytes? i.file texts with
          | none => .error (.badSymbols "cannot load string table section: unexpected EOF")
          | some names =>
            .ok (Symbol.listOf i.header.big names (table.length / symbolSize - 1)
              (table.drop symbolSize))

/-! ## Functions -/

/-- **A function with code.** -/
structure Function where
  /-- Its name. -/
  name : String
  /-- Its address. -/
  addr : UInt64
  /-- Its bytes. -/
  size : UInt64
deriving DecidableEq, Repr, Inhabited

/-- Whether a symbol names a function that is defined here and has code. -/
def Symbol.isFunction (s : Symbol) : Bool := s.kind == 2 && s.size != 0 && s.home != 0

/-- The first of the functions at each address, in the given order. -/
def firstAtEach : (seen : List UInt64) → List Function → List Function
  | _, [] => []
  | seen, f :: fs =>
    if seen.contains f.addr then firstAtEach seen fs else f :: firstAtEach (f.addr :: seen) fs

/-- **The function table of symbols.** -/
def functionsOf (symbols : List Symbol) : List Function :=
  let all := (symbols.filter Symbol.isFunction).map fun s => ⟨s.name, s.value, s.size⟩
  (firstAtEach [] all).mergeSort fun f g => f.addr ≤ g.addr

namespace Image

/-- **The functions of an image.** -/
def functions (i : Image) : Except Error (List Function) := do
  let static ← i.symbols Section.symbols
  let dynamic ← i.symbols Section.dynamicSymbols
  pure (functionsOf (static ++ dynamic))

/-- The first function of a name. -/
def function (i : Image) (name : String) : Except Error Function := do
  match (← i.functions).find? fun f => f.name == name with
  | some f => pure f
  | none => .error (.noSymbol name)

end Image

/-- The name of the function at an address. -/
def nameAt? (fs : List Function) (addr : UInt64) : Option String :=
  (fs.find? fun f => f.addr == addr).map Function.name

/-! ## Code -/

/-- Whether a segment holds an address. -/
def Segment.holds (s : Segment) (addr : UInt64) : Bool :=
  s.kind == Segment.loadable && s.address ≤ addr && addr < s.address + s.fileSize

namespace Image

/-- **The place in the file of an address**, by the first segment that holds it. -/
def offsetOf (i : Image) (addr : UInt64) : Except Error UInt64 :=
  match i.segments.find? fun s => s.holds addr with
  | none => .error (.noSegment addr)
  | some s =>
    let off := addr - s.address + s.offset
    if off.toNat < i.file.size then .ok off else .error (.beyondFile addr off i.file.size)

/-- **Up to `n` bytes at an address**, as many as the file has. -/
def bytesAt (i : Image) (addr : UInt64) (n : Int) : Except Error ByteArray := do
  let off ← i.offsetOf addr
  if n < 0 then .error .negativeLength
  else pure (i.file.extract off.toNat (off.toNat + n.toNat))

/-- **The code of a function.**  Its size counts as a signed number. -/
def code (i : Image) (f : Function) : Except Error ByteArray :=
  if f.size = 0 then .error (.noSize f.name) else i.bytesAt f.addr f.size.toBitVec.toInt

end Image

end Deflatten.Elf

import Deflatten.Text.Digits

/-!
# Elf/Image — executable files

An image is a file with its header read: the segments that are mapped into memory and the sections
that describe the file.  Files of either width and byte order are read; only those for 64-bit Arm
that can be loaded are opened.
-/

namespace Deflatten.Elf

/-! ## Numbers -/

/-- The number that bytes spell, the most significant one first or last. -/
def numberOf (big : Bool) (bs : List UInt8) : Nat :=
  if big then bs.foldl (fun n b => n * 256 + b.toNat) 0
  else bs.foldr (fun b n => n * 256 + b.toNat) 0

/-- The number in `n` bytes of a file. -/
def number (file : ByteArray) (big : Bool) (off n : Nat) : Nat :=
  numberOf big (file.extract off (off + n)).data.toList

/-- Whether a stretch lies inside a file; an empty one always does. -/
def isInside (file : ByteArray) (off n : Nat) : Bool := n == 0 || off + n ≤ file.size

/-! ## Parts of an image -/

/-- A stretch of the file that is mapped into memory. -/
structure Segment where
  /-- What it is for. -/
  kind : Nat
  /-- Where it starts in the file. -/
  offset : UInt64
  /-- Where it starts in memory. -/
  address : UInt64
  /-- Its bytes in the file. -/
  fileSize : UInt64
deriving DecidableEq, Repr, Inhabited

/-- The kind of segment that holds code or data. -/
def Segment.loadable : Nat := 1

/-- A described stretch of the file. -/
structure Section where
  /-- Where its name starts in the table of names. -/
  name : Nat
  /-- What it holds. -/
  kind : Nat
  /-- Its attributes. -/
  flags : Nat
  /-- Where it starts. -/
  offset : Nat
  /-- Its bytes. -/
  size : Nat
  /-- A section it refers to. -/
  link : Nat
deriving DecidableEq, Repr, Inhabited

namespace Section

/-- The kind of section that holds symbols. -/
def symbols : Nat := 2

/-- The kind that holds texts. -/
def texts : Nat := 3

/-- The kind that takes no room in the file. -/
def vacant : Nat := 8

/-- The kind that holds the symbols for dynamic linking. -/
def dynamicSymbols : Nat := 11

/-- Whether the contents are compressed. -/
def isCompressed (s : Section) : Bool := s.flags.testBit 11

end Section

/-- The fields of the file header that matter here. -/
structure Header where
  /-- Addresses have 64 bits. -/
  wide : Bool
  /-- The most significant byte comes first. -/
  big : Bool
  /-- What kind of file it is. -/
  kind : Nat
  /-- The machine it is for. -/
  machine : Nat
  /-- Where the segment table starts. -/
  segmentTable : Nat
  /-- The size of its entries. -/
  segmentEntry : Nat
  /-- Their number. -/
  segmentCount : Nat
  /-- Where the section table starts. -/
  sectionTable : Nat
  /-- The size of its entries. -/
  sectionEntry : Nat
  /-- Their number. -/
  sectionCount : Nat
  /-- The section with the names of sections. -/
  nameSection : Nat
deriving DecidableEq, Repr, Inhabited

/-- **A file with its tables read.** -/
structure Image where
  /-- The whole file. -/
  file : ByteArray
  /-- Its header. -/
  header : Header
  /-- Its segments. -/
  segments : List Segment
  /-- Its sections. -/
  sections : List Section

/-! ## Errors -/

/-- Why a file, or something in it, cannot be had. -/
inductive Error where
  /-- It is no image. -/
  | notElf
  /-- It is of the narrow kind. -/
  | not64Bit
  /-- It is for another machine. -/
  | notArm64
  /-- It is not made to be loaded. -/
  | notLoadable
  /-- There is no such function. -/
  | noSymbol (name : String)
  /-- No segment holds the address. -/
  | noSegment (address : UInt64)
  /-- The function has no bytes. -/
  | noSize (name : String)
  /-- The address is mapped from beyond the end of the file. -/
  | beyondFile (address offset : UInt64) (size : Nat)
  /-- A symbol table cannot be read. -/
  | badSymbols (why : String)
  /-- A negative number of bytes is asked for. -/
  | negativeLength
deriving DecidableEq, Repr

/-- The wording of an error. -/
def Error.message : Error → String
  | notElf => "elfx: not an ELF file"
  | not64Bit => "elfx: not 64-bit ELF"
  | notArm64 => "elfx: not ARM64 (EM_AARCH64)"
  | notLoadable => "elfx: not an executable or shared object"
  | noSymbol name => "elfx: symbol not found: " ++ name
  | noSegment a => "elfx: no PT_LOAD segment covers address: VA 0x" ++ Text.hex a.toNat
  | noSize name => "elfx: symbol has zero size: " ++ name
  | beyondFile a off size =>
    "elfx: VA 0x" ++ Text.hex a.toNat ++ " maps to offset 0x" ++ Text.hex off.toNat ++
      " beyond file size 0x" ++ Text.hex size
  | badSymbols why => "elfx: symbols: " ++ why
  | negativeLength => "elfx: negative length"

/-! ## Reading the tables -/

/-- The bytes of an address. -/
def addressSize (wide : Bool) : Nat := if wide then 8 else 4

/-- The file header: mark, width, byte order and version, then the fields. -/
def readHeader? (file : ByteArray) : Option Header := do
  guard (16 ≤ file.size)
  guard ((file.extract 0 4).data.toList = [0x7f, 0x45, 0x4c, 0x46])
  let width := number file false 4 1
  let order := number file false 5 1
  guard (width = 1 ∨ width = 2)
  guard (order = 1 ∨ order = 2)
  guard (number file false 6 1 = 1)
  let wide := width == 2
  let big := order == 2
  guard ((if wide then 64 else 52) ≤ file.size)
  guard (number file big 20 4 = 1)
  let tables := if wide then 32 else 28
  let counts := if wide then 54 else 42
  let a := addressSize wide
  pure
    { wide := wide, big := big, kind := number file big 16 2, machine := number file big 18 2
      segmentTable := number file big tables a, sectionTable := number file big (tables + a) a
      segmentEntry := number file big counts 2, segmentCount := number file big (counts + 2) 2
      sectionEntry := number file big (counts + 4) 2, sectionCount := number file big (counts + 6) 2
      nameSection := number file big (counts + 8) 2 }

/-- The segment described at an offset. -/
def readSegment (file : ByteArray) (h : Header) (off : Nat) : Segment :=
  let a := addressSize h.wide
  let field (n : Nat) := UInt64.ofNat (number file h.big (off + a * n) a)
  { kind := number file h.big off 4, offset := field 1, address := field 2, fileSize := field 4 }

/-- The section described at an offset. -/
def readSection (file : ByteArray) (h : Header) (off : Nat) : Section :=
  let a := addressSize h.wide
  let field (n : Nat) := number file h.big (off + 8 + a * n) a
  { name := number file h.big off 4, kind := number file h.big (off + 4) 4, flags := field 0
    offset := field 2, size := field 3, link := number file h.big (off + 8 + a * 4) 4 }

/-- The size of an entry of the segment table. -/
def segmentEntrySize (wide : Bool) : Nat := if wide then 56 else 32

/-- The size of an entry of the section table. -/
def sectionEntrySize (wide : Bool) : Nat := if wide then 64 else 40

/-- The number from which on a count of sections is kept elsewhere. -/
def reservedCount : Nat := 0xff00

/-- The mark for a section number that is kept elsewhere. -/
def extendedIndex : Nat := 0xffff

/-- The header with the counts that did not fit into it, which are in the first section. -/
def extendHeader? (file : ByteArray) (h : Header) : Option Header :=
  if h.sectionTable = 0 || h.sectionCount ≠ 0 then some h
  else do
    guard (isInside file h.sectionTable (sectionEntrySize h.wide))
    let first := readSection file h h.sectionTable
    guard (first.kind = 0)
    guard (reservedCount ≤ first.size)
    let names := if h.nameSection = extendedIndex then first.link else h.nameSection
    guard (h.nameSection ≠ extendedIndex ∨ reservedCount ≤ names)
    pure { h with sectionCount := first.size, nameSection := names }

/-- Offsets and sizes that a file can have. -/
def isFilePosition (n : Nat) : Bool := n < 0x8000000000000000

/-- The contents of a section, if they are in the file as they are. -/
def sectionBytes? (file : ByteArray) (s : Section) : Option (List UInt8) :=
  if s.kind = Section.vacant || s.isCompressed then none
  else if isInside file s.offset s.size then
    some (file.extract s.offset (s.offset + s.size)).data.toList
  else none

/-- The text at a place of a table: the bytes up to a zero. -/
def textAt? (table : List UInt8) (start : Nat) : Option (List UInt8) :=
  let rest := table.drop start
  if rest.contains 0 then some (rest.takeWhile (· ≠ 0)) else none

/-- Whether every section has a name in the table of names. -/
def namesAreGood (file : ByteArray) (h : Header) (sections : List Section) : Bool :=
  sections.isEmpty || h.nameSection == 0 ||
    match sections[h.nameSection]? with
    | none => false
    | some names =>
      names.kind == Section.texts &&
        match sectionBytes? file names with
        | none => false
        | some table => sections.all fun s => (textAt? table s.name).isSome

/-- **Reads the tables of a file**; nothing if it is no image. -/
def read? (file : ByteArray) : Option Image := do
  let h ← readHeader? file
  guard (isFilePosition h.sectionTable && isFilePosition h.segmentTable)
  guard (h.sectionTable ≠ 0 ∨ h.sectionCount = 0)
  guard (h.sectionCount = 0 ∨ h.nameSection < h.sectionCount)
  guard (h.segmentCount = 0 ∨ segmentEntrySize h.wide ≤ h.segmentEntry)
  guard (isInside file h.segmentTable (h.segmentCount * h.segmentEntry))
  let segments := (List.range h.segmentCount).map fun i =>
    readSegment file h (h.segmentTable + i * h.segmentEntry)
  guard (segments.all fun s => isFilePosition s.offset.toNat && isFilePosition s.fileSize.toNat)
  let h ← extendHeader? file h
  guard (h.sectionCount = 0 ∨ sectionEntrySize h.wide ≤ h.sectionEntry)
  guard (isInside file h.sectionTable (h.sectionCount * h.sectionEntry))
  let sections := (List.range h.sectionCount).map fun i =>
    readSection file h (h.sectionTable + i * h.sectionEntry)
  guard (sections.all fun s => isFilePosition s.offset && isFilePosition s.size)
  guard (sections.all fun s =>
    let packed := if h.wide then 24 else 12
    !s.isCompressed || (packed ≤ s.size && isInside file s.offset packed))
  guard (namesAreGood file h sections)
  pure ⟨file, h, segments, sections⟩

/-- The machine number of 64-bit Arm. -/
def arm64 : Nat := 183

/-- **Opens a file**: an image for 64-bit Arm that is a program or a shared object. -/
def Image.ofFile (file : ByteArray) : Except Error Image :=
  match read? file with
  | none => .error .notElf
  | some i =>
    if !i.header.wide then .error .not64Bit
    else if i.header.machine ≠ arm64 then .error .notArm64
    else if i.header.kind ≠ 2 && i.header.kind ≠ 3 then .error .notLoadable
    else .ok i

end Deflatten.Elf

import Deflatten.Elf.Functions
import Mathlib.Algebra.Group.Nat.Defs
import Mathlib.Data.Option.Basic
import Mathlib.Tactic.Common

/-!
# Proofs/Elf/Code — which bytes of the file are the code of a function

Addresses and sizes are words, and the end of a segment is a word, too: a segment that reaches the end
of the address space holds none of its addresses (`Segment.holds_iff`).  Through the first of the other
segments that cover its address a function has a place in the file, which is computed without
overflow since the file was opened (`toNat_offset`).  `Image.code_reads` says what the code of a
function is in all cases.
-/

namespace Deflatten.Elf

variable {s t : Segment} {addr : UInt64} {i : Image} {file : ByteArray}

/-! ## Segments -/

namespace Segment

/-- **The bytes that a segment has in the file cover an address.** -/
structure Covers (s : Segment) (addr : UInt64) : Prop where
  /-- They hold code or data. -/
  kind : s.kind = loadable
  /-- They begin there or before. -/
  le : s.address.toNat ≤ addr.toNat
  /-- They go on beyond. -/
  lt : addr.toNat < s.address.toNat + s.fileSize.toNat

/-- The end of the segment is an address. -/
def EndsInRange (s : Segment) : Prop := s.address.toNat + s.fileSize.toNat < 2 ^ 64

/-- Where an address that the segment covers is in the file. -/
def place (s : Segment) (addr : UInt64) : Nat := addr.toNat - s.address.toNat + s.offset.toNat

/-- **A segment holds the addresses it covers, if its end is an address.** -/
theorem holds_iff : s.holds addr = true ↔ s.Covers addr ∧ s.EndsInRange := by
  have haddr := addr.toNat_lt
  have hsize := s.fileSize.toNat_lt
  simp only [holds, Bool.and_eq_true, beq_iff_eq, decide_eq_true_eq, UInt64.le_iff_toNat_le,
    UInt64.lt_iff_toNat_lt, UInt64.toNat_add, EndsInRange]
  constructor
  · rintro ⟨⟨hkind, hle⟩, hlt⟩
    exact ⟨⟨hkind, hle, by omega⟩, by omega⟩
  · rintro ⟨⟨hkind, hle, hlt⟩, hends⟩
    exact ⟨⟨hkind, hle⟩, by omega⟩

/-- **The place in the file is computed without overflow.** -/
theorem toNat_offset (hs : s.Covers addr) (hoff : s.offset.toNat < 2 ^ 63)
    (hsize : s.fileSize.toNat < 2 ^ 63) : (addr - s.address + s.offset).toNat = s.place addr := by
  obtain ⟨-, hle, hlt⟩ := hs
  rw [UInt64.toNat_add, UInt64.toNat_sub_of_le _ _ (UInt64.le_iff_toNat_le.mpr hle), place]
  exact Nat.mod_eq_of_lt (by omega)

end Segment

namespace Image

/-! ## Opened images -/

/-- The offsets and sizes of segments are file positions. -/
def Positioned (i : Image) : Prop :=
  ∀ s ∈ i.segments, s.offset.toNat < 2 ^ 63 ∧ s.fileSize.toNat < 2 ^ 63

theorem of_guard {p : Prop} [Decidable p] {u : Unit} (h : (guard p : Option Unit) = some u) : p := by
  simpa [guard] using h

theorem positioned_of_ofFile (h : ofFile file = .ok i) : i.file = file ∧ i.Positioned := by
  have hread : read? file = some i := by
    unfold ofFile at h
    split at h
    · cases h
    · next hread =>
      repeat' split at h
      all_goals cases h
      exact hread
  simp only [read?, Option.bind_eq_bind, Option.bind_eq_some_iff] at hread
  obtain ⟨h₀, -, -, -, -, -, -, -, -, -, -, -, _, hall, h₁, -, -, -, -, -, -, -, -, -, -, -, hi⟩ := hread
  obtain rfl := Option.some.inj hi
  refine ⟨rfl, fun s hs => ?_⟩
  simpa [isFilePosition] using List.all_eq_true.mp (of_guard hall) s hs

/-! ## Places of addresses -/

/-- **The segment through which an address is read**: the first that covers it and whose end is an
address. -/
def Maps (i : Image) (addr : UInt64) (s : Segment) : Prop :=
  ∃ before after, i.segments = before ++ s :: after ∧ s.Covers addr ∧ s.EndsInRange ∧
    ∀ t ∈ before, t.Covers addr → ¬ t.EndsInRange

theorem maps_iff_find? : i.Maps addr s ↔ (i.segments.find? fun t => t.holds addr) = some s := by
  rw [List.find?_eq_some_iff_append, Segment.holds_iff]
  constructor
  · rintro ⟨before, after, hsegs, hs, he, hbefore⟩
    refine ⟨⟨hs, he⟩, before, after, hsegs, fun t ht => ?_⟩
    rw [Bool.not_eq_true', ← Bool.not_eq_true, Segment.holds_iff]
    exact fun ⟨hc, he⟩ => hbefore t ht hc he
  · rintro ⟨⟨hs, he⟩, before, after, hsegs, hbefore⟩
    refine ⟨before, after, hsegs, hs, he, fun t ht hc he => ?_⟩
    simpa [Segment.holds_iff.mpr ⟨hc, he⟩] using hbefore t ht

/-- No segment is found for an address that none with an end covers. -/
theorem find?_eq_none_iff : (i.segments.find? fun t => t.holds addr) = none ↔
    ∀ t ∈ i.segments, t.Covers addr → ¬ t.EndsInRange := by
  rw [List.find?_eq_none]
  exact forall₂_congr fun t _ => by rw [Segment.holds_iff, not_and]

/-- What is taken stops at the end of the file. -/
theorem extract_add_min (file : ByteArray) (off n : Nat) :
    file.extract off (off + min n (file.size - off)) = file.extract off (off + n) := by
  apply ByteArray.ext
  rw [ByteArray.data_extract, ByteArray.data_extract, Array.extract_eq_extract_right,
    ByteArray.size_data]
  omega

/-! ## Code -/

/-- **The code of a function, with its place told in numbers.** -/
theorem code_eq (hi : i.Positioned) (f : Function) : i.code f =
    if f.size = 0 then .error (.noSize f.name)
    else match i.segments.find? fun t => t.holds f.addr with
      | none => .error (.noSegment f.addr)
      | some s =>
        if s.place f.addr < i.file.size then
          if f.size.toNat < 2 ^ 63 then
            .ok (i.file.extract (s.place f.addr)
              (s.place f.addr + min f.size.toNat (i.file.size - s.place f.addr)))
          else .error .negativeLength
        else .error (.beyondFile f.addr (UInt64.ofNat (s.place f.addr)) i.file.size) := by
  unfold code
  split
  · rfl
  · cases hfind : i.segments.find? fun t => t.holds f.addr with
    | none => simp [bytesAt, offsetOf, hfind, bind, Except.bind]
    | some s =>
      have hholds : s.holds f.addr = true := by simpa using List.find?_some hfind
      obtain ⟨hoff, hsize⟩ := hi s (List.mem_of_find?_eq_some hfind)
      have hplace := Segment.toNat_offset (Segment.holds_iff.mp hholds).1 hoff hsize
      have hword : f.addr - s.address + s.offset = UInt64.ofNat (s.place f.addr) := by
        rw [← hplace, UInt64.ofNat_toNat]
      have hsigned := f.size.toBitVec.toInt_eq_toNat_cond
      simp only [bytesAt, offsetOf, hfind, hplace, bind, Except.bind]
      by_cases hlt : s.place f.addr < i.file.size
      · simp only [hlt, if_true, hplace]
        by_cases hneg : f.size.toNat < 2 ^ 63
        · have hn : f.size.toBitVec.toInt = f.size.toNat := by
            rw [hsigned, if_pos (by simpa using by omega)]
            rfl
          rw [if_pos hneg, extract_add_min, hn, if_neg (by omega), Int.toNat_natCast]
          rfl
        · have hn : f.size.toBitVec.toInt < 0 := by
            have := f.size.toNat_lt
            rw [hsigned, if_neg (by simpa using by omega), UInt64.toNat_toBitVec]
            omega
          rw [if_neg hneg, if_pos hn]
      · simp only [hlt, if_false, hword]

/-- **What the code of a function of an opened file is.**  Its bytes are read from the place of its
address up to its size or the end of the file, unless its size is no signed number; there is an error
exactly if it has no size, no segment for its address or its place is beyond the file. -/
theorem code_reads (h : ofFile file = .ok i) (f : Function) :
    (∀ bytes, i.code f = .ok bytes ↔ f.size ≠ 0 ∧ f.size.toNat < 2 ^ 63 ∧
      ∃ s, i.Maps f.addr s ∧ s.place f.addr < file.size ∧ bytes = file.extract (s.place f.addr)
        (s.place f.addr + min f.size.toNat (file.size - s.place f.addr))) ∧
    (i.code f = .error .negativeLength ↔ 2 ^ 63 ≤ f.size.toNat ∧
      ∃ s, i.Maps f.addr s ∧ s.place f.addr < file.size) ∧
    ((∃ e, i.code f = .error e ∧ e ≠ .negativeLength) ↔ f.size = 0 ∨
      (∀ s ∈ i.segments, s.Covers f.addr → ¬ s.EndsInRange) ∨
      ∃ s, i.Maps f.addr s ∧ file.size ≤ s.place f.addr) := by
  obtain ⟨rfl, hi⟩ := positioned_of_ofFile h
  simp only [maps_iff_find?, ← find?_eq_none_iff, code_eq hi]
  by_cases hzero : f.size = 0
  · simp [hzero]
  · -- which bound the size has to keep does not matter for the cases
    generalize 2 ^ 63 = bound
    cases hfind : i.segments.find? fun t => t.holds f.addr with
    | none => simp [hzero]
    | some s =>
      by_cases hlt : s.place f.addr < i.file.size
      · by_cases hneg : f.size.toNat < bound
        · simp [hzero, hlt, hneg, eq_comm]
        · simp [hzero, hlt, hneg, Nat.le_of_not_lt hneg]
      · simp [hzero, hlt, Nat.le_of_not_lt hlt]

/-! ## A file with one segment -/

/-- The bytes of a number, the least significant one first. -/
def littleEndian : (count n : Nat) → List UInt8
  | 0, _ => []
  | count + 1, n => UInt8.ofNat n :: littleEndian count (n / 256)

/-- A program of 128 bytes that is mapped as a whole; it ends in a return and an idle instruction. -/
def oneSegment (address : Nat) : ByteArray :=
  ⟨([0x7f, 0x45, 0x4c, 0x46, 2, 1, 1, 0] ++ littleEndian 8 0 ++
    -- kind and machine, the entry, one segment described after the header, no sections
    littleEndian 2 2 ++ littleEndian 2 183 ++ littleEndian 4 1 ++ littleEndian 8 (address + 120) ++
    littleEndian 8 64 ++ littleEndian 8 0 ++ littleEndian 4 0 ++ littleEndian 2 64 ++
    littleEndian 2 56 ++ littleEndian 2 1 ++ littleEndian 2 64 ++ littleEndian 4 0 ++
    -- the segment: kind, access, offset, addresses, sizes, alignment
    littleEndian 4 1 ++ littleEndian 4 5 ++ littleEndian 8 0 ++ littleEndian 8 address ++
    littleEndian 8 address ++ littleEndian 8 128 ++ littleEndian 8 128 ++ littleEndian 8 4096 ++
    [0xc0, 0x03, 0x5f, 0xd6, 0x1f, 0x20, 0x03, 0xd5]).toArray⟩

theorem exists_of_segments {ss : List Segment} (h : (ofFile file).map segments = .ok ss) :
    ∃ i, ofFile file = .ok i ∧ i.segments = ss := by
  cases hi : ofFile file with
  | error e => simp [hi, Except.map] at h
  | ok i => exact ⟨i, rfl, by simpa [hi, Except.map] using h⟩

theorem opens_oneSegment : ∃ i, ofFile (oneSegment 0x400000) = .ok i ∧
    i.segments = [⟨1, 0, 0x400000, 128⟩] := exists_of_segments (by decide +kernel)

/-- A function in the last eight bytes is cut off at the end of the file. -/
theorem code_oneSegment : ∃ i, ofFile (oneSegment 0x400000) = .ok i ∧
    i.code ⟨"f", 0x400078, 0x7fffffffffffffff⟩ =
      .ok ⟨#[0xc0, 0x03, 0x5f, 0xd6, 0x1f, 0x20, 0x03, 0xd5]⟩ := by
  obtain ⟨i, hi, hsegs⟩ := opens_oneSegment
  refine ⟨i, hi, ((code_reads hi _).1 _).mpr ⟨by decide, by decide, ⟨1, 0, 0x400000, 128⟩, ?_⟩⟩
  exact ⟨maps_iff_find?.mpr (by rw [hsegs]; rfl), by decide +kernel, by decide +kernel⟩

/-- **A size with the highest bit set is refused although there are bytes**, and so is a function in a
segment that reaches the end of the address space. -/
theorem code_refuses : (∃ i, ofFile (oneSegment 0x400000) = .ok i ∧
      (∃ s ∈ i.segments, s.Covers 0x400078 ∧ s.place 0x400078 = 120) ∧
      i.code ⟨"f", 0x400078, 0x8000000000000000⟩ = .error .negativeLength) ∧
    ∃ i, ofFile (oneSegment 0xffffffffffffff80) = .ok i ∧
      (∃ s ∈ i.segments, s.Covers 0xfffffffffffffff8 ∧ s.place 0xfffffffffffffff8 = 120) ∧
      i.code ⟨"f", 0xfffffffffffffff8, 4⟩ = .error (.noSegment 0xfffffffffffffff8) := by
  constructor
  · obtain ⟨i, hi, hsegs⟩ := opens_oneSegment
    obtain ⟨hfile, hpos⟩ := positioned_of_ofFile hi
    refine ⟨i, hi, ⟨⟨1, 0, 0x400000, 128⟩, by simp [hsegs], ⟨rfl, by decide, by decide⟩, rfl⟩, ?_⟩
    rw [code_eq hpos, hsegs, hfile]
    decide +kernel
  · obtain ⟨i, hi, hsegs⟩ : ∃ i, ofFile (oneSegment 0xffffffffffffff80) = .ok i ∧
        i.segments = [⟨1, 0, 0xffffffffffffff80, 128⟩] := exists_of_segments (by decide +kernel)
    obtain ⟨hfile, hpos⟩ := positioned_of_ofFile hi
    refine ⟨i, hi, ⟨⟨1, 0, 0xffffffffffffff80, 128⟩, by simp [hsegs],
      ⟨rfl, by decide, by decide⟩, rfl⟩, ?_⟩
    rw [code_eq hpos, hsegs, hfile]
    decide +kernel

end Image

end Deflatten.Elf

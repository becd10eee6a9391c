import Deflatten.Elf.Functions
import Mathlib.Data.List.Sort
import Mathlib.Tactic.Common

/-!
# Proofs/Elf/FunctionTable — each address once, in order, under its first name

A table lists functions by strictly ascending address, one for every address that a symbol with code
gives, and each is the first such symbol at its address (`Tabulates`).  There is one such list
(`Tabulates.eq`), and it is the function table of an image, whose static symbols come before the
dynamic ones (`Image.functions_tabulate`).
-/

namespace Deflatten.Elf

/-! ## The first at each address -/

variable {f g : Function} {fs gs : List Function} {seen : List UInt64}

/-- **What is kept is the first at its address**, unless that was seen before. -/
theorem mem_firstAtEach :
    f ∈ firstAtEach seen fs ↔ f.addr ∉ seen ∧ fs.find? (fun g => g.addr == f.addr) = some f := by
  induction fs generalizing seen with
  | nil => simp [firstAtEach]
  | cons g fs ih =>
    rw [firstAtEach]
    by_cases hseen : g.addr ∈ seen
    · rw [if_pos (by simpa using hseen), ih]
      refine and_congr_right fun hf => ?_
      have hne : g.addr ≠ f.addr := fun h => hf (h ▸ hseen)
      rw [List.find?_cons_of_neg (by simpa using hne)]
    · rw [if_neg (by simpa using hseen), List.mem_cons, ih]
      by_cases haddr : g.addr = f.addr
      · rw [List.find?_cons_of_pos (by simpa using haddr), Option.some.injEq, ← haddr]
        simp [hseen, eq_comm]
      · have hfg : f ≠ g := fun h => haddr (h ▸ rfl)
        rw [List.find?_cons_of_neg (by simpa using haddr)]
        simp [hfg, Ne.symm haddr]

theorem pairwise_firstAtEach (seen : List UInt64) (fs : List Function) :
    (firstAtEach seen fs).Pairwise fun f g => f.addr ≠ g.addr := by
  induction fs generalizing seen with
  | nil => exact .nil
  | cons f fs ih =>
    rw [firstAtEach]
    split
    · exact ih seen
    · refine .cons (fun g hg => ?_) (ih _)
      exact fun h => (mem_firstAtEach.mp hg).1 (h ▸ List.mem_cons_self)

/-! ## Tables -/

/-- A symbol of a function that is defined and has code. -/
structure Symbol.Codes (s : Symbol) : Prop where
  /-- It names a function. -/
  kind : s.kind = 2
  /-- It has bytes. -/
  size : s.size ≠ 0
  /-- It is defined in some section. -/
  home : s.home ≠ 0

theorem Symbol.isFunction_iff {s : Symbol} : s.isFunction = true ↔ s.Codes := by
  simp only [isFunction, Bool.and_eq_true, beq_iff_eq, bne_iff_ne, and_assoc]
  exact ⟨fun ⟨hk, hs, hh⟩ => ⟨hk, hs, hh⟩, fun ⟨hk, hs, hh⟩ => ⟨hk, hs, hh⟩⟩

/-- **A symbol is the first with code at its address.** -/
def Symbol.FirstAtAddress (s : Symbol) (symbols : List Symbol) : Prop :=
  ∃ before after, symbols = before ++ s :: after ∧ s.Codes ∧
    ∀ t ∈ before, t.Codes → t.value ≠ s.value

/-- **A function table of symbols.** -/
structure Tabulates (symbols : List Symbol) (fs : List Function) : Prop where
  /-- The addresses ascend. -/
  ascending : fs.Pairwise fun f g => f.addr < g.addr
  /-- The addresses are those of the symbols with code. -/
  complete : ∀ a, (∃ f ∈ fs, f.addr = a) ↔ ∃ s ∈ symbols, s.Codes ∧ s.value = a
  /-- The first symbol at the address gives the name and the size. -/
  first : ∀ f ∈ fs, ∃ s : Symbol, s.FirstAtAddress symbols ∧ f = ⟨s.name, s.value, s.size⟩

variable {symbols : List Symbol} {s t : Symbol}

theorem Symbol.firstAtAddress_iff_find? : s.FirstAtAddress symbols ↔
    symbols.find? (fun t => t.isFunction && t.value == s.value) = some s := by
  rw [List.find?_eq_some_iff_append]
  constructor
  · rintro ⟨before, after, rfl, hs, hbefore⟩
    refine ⟨by simp [isFunction_iff.mpr hs], before, after, rfl, fun t ht => ?_⟩
    by_cases hc : t.isFunction = true
    · simpa [hc] using hbefore t ht (isFunction_iff.mp hc)
    · simp [hc]
  · rintro ⟨hs, before, after, rfl, hbefore⟩
    simp only [beq_self_eq_true, Bool.and_true] at hs
    refine ⟨before, after, rfl, isFunction_iff.mp hs, fun t ht hc => ?_⟩
    simpa [isFunction_iff.mpr hc] using hbefore t ht

/-- One symbol is the first at an address. -/
theorem Symbol.FirstAtAddress.eq (hs : s.FirstAtAddress symbols) (ht : t.FirstAtAddress symbols)
    (h : s.value = t.value) : s = t := by
  rw [firstAtAddress_iff_find?] at hs ht
  rw [h] at hs
  exact Option.mem_unique hs ht

/-- **The functions that are kept are those of leading symbols.** -/
theorem mem_functionsOf : f ∈ functionsOf symbols ↔
    ∃ s : Symbol, s.FirstAtAddress symbols ∧ f = ⟨s.name, s.value, s.size⟩ := by
  rw [functionsOf, List.mem_mergeSort, mem_firstAtEach, List.find?_map, List.find?_filter]
  simp only [List.not_mem_nil, not_false_eq_true, true_and, Option.map_eq_some_iff,
    Symbol.firstAtAddress_iff_find?, Function.comp_def, Bool.decide_and, Bool.decide_eq_true]
  constructor
  · rintro ⟨s, hs, rfl⟩
    exact ⟨s, hs, rfl⟩
  · rintro ⟨s, hs, rfl⟩
    exact ⟨s, hs, rfl⟩

theorem pairwise_functionsOf (symbols : List Symbol) :
    (functionsOf symbols).Pairwise fun f g => f.addr < g.addr := by
  unfold functionsOf
  dsimp only
  generalize hkept : firstAtEach [] ((symbols.filter Symbol.isFunction).map _) = kept
  have hne : (kept.mergeSort fun f g => f.addr ≤ g.addr).Pairwise fun f g => f.addr ≠ g.addr :=
    (hkept ▸ pairwise_firstAtEach ..).perm (List.mergeSort_perm ..).symm fun h => Ne.symm h
  have hle : (kept.mergeSort fun f g => f.addr ≤ g.addr).Pairwise fun f g =>
      decide (f.addr ≤ g.addr) = true :=
    List.pairwise_mergeSort
      (fun _ _ _ h₁ h₂ => by simpa using UInt64.le_trans (by simpa using h₁) (by simpa using h₂))
      (fun f g => by simpa using UInt64.le_total f.addr g.addr) kept
  exact (hle.and hne).imp fun h => UInt64.lt_of_le_of_ne (by simpa using h.1) h.2

/-- Where a symbol has code, one is the first. -/
theorem Symbol.Codes.exists_firstAtAddress (hc : s.Codes) (hs : s ∈ symbols) :
    ∃ t : Symbol, t.FirstAtAddress symbols ∧ t.value = s.value := by
  have hfound : (symbols.find? fun t => t.isFunction && t.value == s.value).isSome := by
    rw [List.find?_isSome]
    exact ⟨s, hs, by simp [isFunction_iff.mpr hc]⟩
  obtain ⟨t, ht⟩ := Option.isSome_iff_exists.mp hfound
  have hvalue : t.value = s.value := by
    have := List.find?_some ht
    simp only [Bool.and_eq_true, beq_iff_eq] at this
    exact this.2
  exact ⟨t, firstAtAddress_iff_find?.mpr (hvalue ▸ ht), hvalue⟩

theorem tabulates_functionsOf (symbols : List Symbol) : Tabulates symbols (functionsOf symbols) where
  ascending := pairwise_functionsOf symbols
  complete a := by
    constructor
    · rintro ⟨f, hf, rfl⟩
      obtain ⟨s, hs, rfl⟩ := mem_functionsOf.mp hf
      obtain ⟨before, after, rfl, hc, -⟩ := hs
      exact ⟨s, by simp, hc, rfl⟩
    · rintro ⟨s, hs, hc, rfl⟩
      obtain ⟨t, ht, hvalue⟩ := hc.exists_firstAtAddress hs
      exact ⟨_, mem_functionsOf.mpr ⟨t, ht, rfl⟩, hvalue⟩
  first f hf := mem_functionsOf.mp hf

/-- A table lists the functions of all leading symbols. -/
theorem Tabulates.mem_iff (h : Tabulates symbols fs) : f ∈ fs ↔
    ∃ s : Symbol, s.FirstAtAddress symbols ∧ f = ⟨s.name, s.value, s.size⟩ := by
  refine ⟨h.first f, ?_⟩
  rintro ⟨s, hs, rfl⟩
  obtain ⟨before, after, hsym, hc, -⟩ := id hs
  obtain ⟨g, hg, haddr⟩ := (h.complete s.value).mpr ⟨s, by simp [hsym], hc, rfl⟩
  obtain ⟨t, ht, rfl⟩ := h.first g hg
  exact ht.eq hs haddr ▸ hg

/-- **Symbols have one function table.** -/
theorem Tabulates.eq (h : Tabulates symbols fs) (h' : Tabulates symbols gs) : fs = gs := by
  have hnodup : ∀ {l : List Function}, (l.Pairwise fun f g => f.addr < g.addr) → l.Nodup :=
    fun hl => List.Pairwise.imp (fun hlt heq => UInt64.ne_of_lt hlt (congrArg _ heq)) hl
  have hperm : fs.Perm gs := (List.perm_ext_iff_of_nodup (hnodup h.ascending)
    (hnodup h'.ascending)).mpr fun f => h.mem_iff.trans h'.mem_iff.symm
  exact List.Perm.eq_of_pairwise (fun f g _ _ hfg hgf => absurd hgf (UInt64.lt_asymm hfg))
    h.ascending h'.ascending hperm

namespace Image

/-- **An image has a function table**: the one table of its static and then its dynamic symbols. -/
theorem functions_tabulate {i : Image} {static dynamic : List Symbol}
    (hs : i.symbols Section.symbols = .ok static)
    (hd : i.symbols Section.dynamicSymbols = .ok dynamic) :
    ∃ fs, i.functions = .ok fs ∧ Tabulates (static ++ dynamic) fs ∧
      ∀ gs, Tabulates (static ++ dynamic) gs → gs = fs := by
  refine ⟨functionsOf (static ++ dynamic), ?_, tabulates_functionsOf _, fun gs hgs =>
    hgs.eq (tabulates_functionsOf _)⟩
  simp only [functions, hs, hd, bind, Except.bind, pure, Except.pure]

/-- An entry of a symbol table. -/
def entryBytes (name : UInt8) (kind home : UInt8) (address : List UInt8) (size : UInt8) : List UInt8 :=
  [name, 0, 0, 0, kind, 0, home, 0] ++ address ++ [0, 0, 0, 0, 0, 0, size, 0, 0, 0, 0, 0, 0, 0]

/-- Two tables that name the address 256 three times; of the others one is not defined and one has
no bytes. -/
def namesakes : Image :=
  { file := ⟨([0, 102, 0, 103, 0, 104, 0, 0] ++ entryBytes 0 0 0 [0, 0] 0 ++
      entryBytes 1 2 1 [0, 1] 4 ++ entryBytes 3 2 1 [0, 1] 8 ++ entryBytes 5 2 0 [0, 3] 8 ++
      entryBytes 0 0 0 [0, 0] 0 ++ entryBytes 5 2 1 [0, 1] 8 ++ entryBytes 3 2 1 [64, 0] 12 ++
      entryBytes 1 2 1 [0, 2] 0).toArray⟩
    header := { (default : Header) with wide := true }
    segments := []
    sections := [default, { (default : Section) with kind := Section.texts, size := 8 },
      { (default : Section) with kind := Section.symbols, offset := 8, size := 96, link := 1 },
      { (default : Section) with
        kind := Section.dynamicSymbols, offset := 104, size := 96, link := 1 }] }

theorem functions_namesakes :
    namesakes.symbols Section.symbols =
      .ok [⟨"f", 2, 1, 256, 4⟩, ⟨"g", 2, 1, 256, 8⟩, ⟨"h", 2, 0, 768, 8⟩] ∧
    namesakes.symbols Section.dynamicSymbols =
      .ok [⟨"h", 2, 1, 256, 8⟩, ⟨"g", 2, 1, 64, 12⟩, ⟨"f", 2, 1, 512, 0⟩] ∧
    namesakes.functions = .ok [⟨"g", 64, 12⟩, ⟨"f", 256, 4⟩] := by
  have hs : namesakes.symbols Section.symbols =
      .ok [⟨"f", 2, 1, 256, 4⟩, ⟨"g", 2, 1, 256, 8⟩, ⟨"h", 2, 0, 768, 8⟩] := by decide +kernel
  have hd : namesakes.symbols Section.dynamicSymbols =
      .ok [⟨"h", 2, 1, 256, 8⟩, ⟨"g", 2, 1, 64, 12⟩, ⟨"f", 2, 1, 512, 0⟩] := by decide +kernel
  have htable : Tabulates ([⟨"f", 2, 1, 256, 4⟩, ⟨"g", 2, 1, 256, 8⟩, ⟨"h", 2, 0, 768, 8⟩] ++
      [⟨"h", 2, 1, 256, 8⟩, ⟨"g", 2, 1, 64, 12⟩, ⟨"f", 2, 1, 512, 0⟩])
      [⟨"g", 64, 12⟩, ⟨"f", 256, 4⟩] := by
    refine ⟨by decide, fun a => ?_, ?_⟩
    · simp only [← Symbol.isFunction_iff, Symbol.isFunction, List.cons_append, List.nil_append,
        List.exists_mem_cons_iff]
      grind
    · simp only [Symbol.firstAtAddress_iff_find?, List.forall_mem_cons]
      exact ⟨⟨⟨"g", 2, 1, 64, 12⟩, rfl, rfl⟩, ⟨⟨"f", 2, 1, 256, 4⟩, rfl, rfl⟩, fun _ h => nomatch h⟩
  obtain ⟨fs, hfs, -, hone⟩ := functions_tabulate hs hd
  exact ⟨hs, hd, hone _ htable ▸ hfs⟩

end Image

end Deflatten.Elf

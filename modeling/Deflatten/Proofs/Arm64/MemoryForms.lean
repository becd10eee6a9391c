import Deflatten.Proofs.Arm64.Order
import Deflatten.Proofs.Arm64.Patterns
import Deflatten.Proofs.Arm64.Transparency

/-!
# Proofs/Arm64/MemoryForms — which words are lifted to memory accesses

Only the forms of loads and stores touch memory: whatever else is lifted, no load, store or stack slot is
in the code (`Lifting.MemoryFree.of_inst`), unless a register held a slot before.  Of the words that have
such a form all but one class are loads and stores (`Form.isLoadStore_of_isAccess`).  That class is the
additions of an extended register that set the flags, which have the form of loads and stores of two
registers.
-/

namespace Deflatten

open Encoding

/-! ## What touches memory -/

/-- A load or a store. -/
def Opcode.isMemory (op : Opcode) : Bool := op == .ldx || op == .stx

theorem Opcode.isMemory_of_isData {op : Opcode} (h : op.isData = true) : op.isMemory = false := by
  cases op <;> first | rfl | exact absurd h (by decide)

/-- A stack slot, or what has a slot, a load or a store inside. -/
def Operand.touchesMemory : Operand → Bool
  | plain f => f.kind == .stack
  | nested f op l r d =>
    f.kind == .stack || op.isMemory || l.touchesMemory || r.touchesMemory || d.touchesMemory

/-- **Whether an instruction touches memory**: it loads or stores, or an operand does or is a stack slot. -/
def Insn.touchesMemory (i : Insn) : Bool :=
  i.op.isMemory || i.l.touchesMemory || i.r.touchesMemory || i.d.touchesMemory

/-- A comparison with a side that touches memory. -/
def Compare.touchesMemory (c : Compare) : Bool := c.l.touchesMemory || c.r.touchesMemory

namespace Operand

@[simp] theorem touchesMemory_empty : empty.touchesMemory = false := rfl

@[simp] theorem touchesMemory_imm (v : UInt64) (size : Int) : (imm v size).touchesMemory = false := rfl

@[simp] theorem touchesMemory_register (n size : Int) : (register n size).touchesMemory = false := rfl

@[simp] theorem touchesMemory_global (a : UInt64) (name : String) (size : Int) :
    (global a name size).touchesMemory = false := rfl

@[simp] theorem touchesMemory_derived (op : Opcode) (a b : Operand) :
    (derived op a b .empty).touchesMemory =
      (op.isMemory || a.touchesMemory || b.touchesMemory) := by
  simp only [derived, touchesMemory, touchesMemory_empty, Bool.or_false]
  rfl

theorem touchesMemory_of_fills {P : Operand → Prop} {op : Opcode} {b : Operand} (hb : Fills P op b)
    (hP : P b → b.touchesMemory = false) : b.touchesMemory = false := by
  unfold Fills at hb
  split at hb
  · rw [hb]
    rfl
  · exact hP hb

theorem touchesMemory_of_kind {a : Operand} (h : a.kind = .stack) : a.touchesMemory = true := by
  cases a <;> simp_all [kind, fields, touchesMemory]

end Operand

namespace Lifting

variable {o : LiftOptions} {s t : Lifting} {x : Inst} {c : Compare} {a : Action} {as : List Action}
  {i : Insn} {op : Opcode} {l r src : Operand} {rd rn : Nat} {size : Int}

/-- **Nothing in a block touches memory**, neither what registers hold nor the comparison nor the code. -/
structure MemoryFree (s : Lifting) : Prop where
  held : ∀ {n x}, (n, x) ∈ s.held.bindings → x.touchesMemory = false
  flags : ∀ {c}, s.flags? = some c → c.touchesMemory = false
  code : ∀ i ∈ s.code, i.touchesMemory = false

/-- An action that brings nothing in that touches memory. -/
def Action.MemoryFree : Action → Prop
  | record c => c.touchesMemory = false
  | append i => i.touchesMemory = false
  | hold _ src => src.touchesMemory = false
  | drop | release => True

theorem memoryFree_empty : ({} : Lifting).MemoryFree := ⟨nofun, nofun, nofun⟩

/-! ## One action -/

theorem touchesMemory_savedCompare (h : c.touchesMemory = false) :
    (savedCompare c).touchesMemory = false ∧ ∀ i ∈ saveCode c, i.touchesMemory = false := by
  simp only [Compare.touchesMemory, Bool.or_eq_false_iff] at h
  obtain ⟨hl, hr⟩ := h
  unfold saveCode savedCompare
  cases c.r.isImm <;>
    simp [Compare.touchesMemory, Insn.touchesMemory, Insn.mov, Opcode.isMemory, hl, hr]

theorem MemoryFree.clobber (h : s.MemoryFree) (v : Var) : (s.clobber v).MemoryFree := by
  have hforget : (s.forget v).MemoryFree :=
    ⟨fun hx => h.held (bindings_forget s v _ hx), fun hc => h.flags (flags?_forget s v ▸ hc),
      fun i hi => h.code i (code_forget s v ▸ hi)⟩
  unfold Lifting.clobber saveFlags
  split
  · next c hc =>
    split
    · obtain ⟨hsaved, hcode⟩ := touchesMemory_savedCompare (hforget.flags hc)
      refine ⟨hforget.held, fun hc' => Option.some.inj hc' ▸ hsaved, ?_⟩
      exact List.forall_mem_append.mpr ⟨hforget.code, hcode⟩
    · exact hforget
  · exact hforget

theorem MemoryFree.push (h : s.MemoryFree) (hi : i.touchesMemory = false) : (s.push i).MemoryFree :=
  ⟨h.held, h.flags, List.forall_mem_append.mpr ⟨h.code, by simpa using hi⟩⟩

theorem MemoryFree.act (h : s.MemoryFree) (ha : a.MemoryFree) : (s.act a).MemoryFree := by
  cases a with
  | record c => exact ⟨h.held, fun hc => Option.some.inj hc ▸ ha, h.code⟩
  | drop => exact ⟨h.held, nofun, h.code⟩
  | append i =>
    cases hd : i.def? with
    | none =>
      rw [Lifting.act, emit_of_def?_none hd]
      exact h.push ha
    | some v =>
      rw [Lifting.act, emit_of_def? hd]
      exact (h.clobber v).push ha
  | hold rd src => exact ⟨fun hx => (mem_define hx).elim (· ▸ ha) h.held, h.flags, h.code⟩
  | release => exact ⟨fun hx => h.held (List.mem_filter.mp hx).1, h.flags, h.code⟩

theorem MemoryFree.replay (h : s.MemoryFree) (has : ∀ a ∈ as, a.MemoryFree) : (s.replay as).MemoryFree :=
  replay_induction MemoryFree.act h has

/-! ## Sources -/

theorem MemoryFree.read (h : s.MemoryFree) (o : LiftOptions) (n : Nat) (size : Int) :
    (s.read o n size).touchesMemory = false := by
  unfold Lifting.read
  split
  · rfl
  split
  · next v hv =>
    split
    · rfl
    split
    · exact h.held (mem_of_lookup? hv)
    · rfl
  · rfl

theorem Source.touchesMemory {b : Operand} (hb : s.Source o size b) (h : s.MemoryFree) :
    b.touchesMemory = false := by
  induction hb with
  | imm | register => rfl
  | read => exact h.read ..
  | unary hop _ _ ih => simp [Opcode.isMemory_of_isData hop, ih]
  | binary hop _ _ _ iha ihb => simp [Opcode.isMemory_of_isData hop, iha, ihb]

/-! ## Actions -/

/-- **What is no load or store logs nothing that touches memory.** -/
theorem Logged.memoryFree {form : Form} (ha : s.Logged o form a) (h : s.MemoryFree)
    (hform : form.isAccess = false) : a.MemoryFree := by
  cases ha with
  | record _ _ hl hr => exact Bool.or_eq_false_iff.mpr ⟨hl.touchesMemory h, hr.touchesMemory h⟩
  | compute hop hl hr _ =>
    have hr := Operand.touchesMemory_of_fills hr fun hr => hr.touchesMemory h
    simp [Action.MemoryFree, Insn.touchesMemory, Opcode.isMemory_of_isData hop, hl.touchesMemory h, hr]
  | @test c equal _ _ hc _ =>
    obtain ⟨hl, hr⟩ := Bool.or_eq_false_iff.mp (h.flags hc)
    cases equal <;> simp [Action.MemoryFree, Insn.touchesMemory, Opcode.isMemory, hl, hr]
  | note hsrc _ => exact hsrc.touchesMemory h
  | @call c _ =>
    cases c <;> simp [Action.MemoryFree, Insn.touchesMemory, Insn.call, Opcode.isMemory, Call.operand,
      callee]
  | release | drop => trivial
  | transfer haccess | slot haccess => cases hform.symm.trans haccess

theorem memoryFree_skipLog (h : skipLog o x = .ok as) : ∀ a ∈ as, a.MemoryFree := by
  unfold skipLog at h
  split at h
  · cases h
  · split at h <;> cases h <;> simp [Action.MemoryFree, Insn.touchesMemory, Opcode.isMemory]

end Lifting

/-! ## Forms of loads and stores -/

namespace Lifting

variable {o : LiftOptions} {s t : Lifting} {x : Inst} {as : List Action}

/-- Lifting what is no load or store. -/
theorem MemoryFree.of_inst (h : s.MemoryFree) (hx : s.inst o x = .ok t)
    (hform : (Form.decode o.decoder x.raw x.addr).isAccess = false) : t.MemoryFree := by
  obtain ⟨as, hlog, rfl⟩ := exists_log_of_inst hx
  exact h.replay (forall_mem_log hlog (fun _ => memoryFree_skipLog) fun _ ha => ha.memoryFree h hform)

end Lifting

namespace Encoding

variable {w : Encoding}

/-- **The loads and stores** among the words. -/
def isLoadStore (w : Encoding) : Bool := w.bit 27 && !w.bit 25

/-- **The additions of an extended register that set the flags**, whatever the two bits that such words
have clear. -/
def isExtendedSum (w : Encoding) : Bool := w.fits 0x7F200000 0x2B200000

/-- **The additions that are taken for a store of two registers**, or for a load of two of which at least
one can be written. -/
def takenForPair (w : Encoding) : Bool :=
  w.isExtendedSum && (!w.bit 22 || w.rd != 31 || w.ra != 31)

theorem takenForPair_iff :
    w.takenForPair = true ↔ w.isExtendedSum = true ∧ (w.bit 22 = false ∨ w.rd ≠ 31 ∨ w.ra ≠ 31) := by
  simp [takenForPair, or_assoc]

end Encoding

namespace Form

variable {w : Encoding} {k : Decoder} {pc : UInt64} {p : Prop} [Decidable p] {a b : Form}

theorem isAccess_ite (ha : a.isAccess = false) (hb : b.isAccess = false) :
    (if p then a else b).isAccess = false := by
  split
  · exact ha
  · exact hb

theorem isAccess_of_ite (ha : a.isAccess = false) (h : (if p then a else b).isAccess = true) :
    ¬p ∧ b.isAccess = true := by
  split at h
  · cases ha.symm.trans h
  · next hp => exact ⟨hp, h⟩

theorem isAccess_moveWide (w : Encoding) : (moveWide w).isAccess = false := by
  unfold moveWide
  dsimp only
  split
  · rfl
  · rfl
  · rfl
  · exact isAccess_ite rfl rfl

theorem isAccess_bitfieldMove (w : Encoding) : (bitfieldMove w).isAccess = false :=
  isAccess_ite rfl (isAccess_ite rfl (isAccess_ite rfl (isAccess_ite rfl rfl)))

theorem isAccess_address (w : Encoding) (pc : UInt64) : (address w pc).isAccess = false :=
  isAccess_ite rfl rfl

/-- The words that have the form of a load or store. -/
theorem fits_of_isAccess (h : (decode k w pc).isAccess = true) :
    w.fits 0x3F000000 0x39000000 = true ∨ w.fits 0x3F200000 0x38000000 = true ∨
      (w.fits 0x3C000000 0x28000000 = true ∧ ¬w.fits 0x1F200000 0x0B000000 = true ∧
        ¬w.fits 0x1F000000 0x0A000000 = true ∧ (pairOf w).isAccess = true) := by
  unfold decode at h
  cases hc : Call.decode? w pc with
  | some c =>
    rw [hc] at h
    cases h
  | none =>
    simp only [hc] at h
    obtain ⟨-, h⟩ := isAccess_of_ite rfl h
    obtain ⟨-, h⟩ := isAccess_of_ite (isAccess_moveWide w) h
    obtain ⟨-, h⟩ := isAccess_of_ite rfl h
    obtain ⟨haddSub, h⟩ := isAccess_of_ite (by split <;> rfl) h
    obtain ⟨-, h⟩ := isAccess_of_ite (by split <;> rfl) h
    obtain ⟨hlogical, h⟩ := isAccess_of_ite (by split <;> rfl) h
    obtain ⟨-, h⟩ := isAccess_of_ite rfl h
    obtain ⟨-, h⟩ := isAccess_of_ite (isAccess_bitfieldMove w) h
    obtain ⟨-, h⟩ := isAccess_of_ite (by split <;> rfl) h
    obtain ⟨-, h⟩ := isAccess_of_ite (by split <;> rfl) h
    obtain ⟨-, h⟩ := isAccess_of_ite (isAccess_address w pc) h
    split at h
    · next hscaled => exact .inl hscaled
    split at h
    · next hunscaled => exact .inr (.inl hunscaled)
    split at h
    · next hpair => exact .inr (.inr ⟨hpair, haddSub, hlogical, h⟩)
    · cases h

/-- Only whole registers and their lower halves are loaded or stored side by side. -/
theorem bit_of_isAccess_pairOf (h : (pairOf w).isAccess = true) : w.bit 30 = false := by
  have hslice : w.slice 30 2 = 0 ∨ w.slice 30 2 = 2 := by
    unfold pairOf at h
    dsimp only at h
    split at h
    · next h30 => exact .inl h30
    · next h30 => exact .inr h30
    · cases h
  apply bit_of_slice
  rw [slice_eq] at hslice ⊢
  simp only [Bool.toNat_false]
  omega

/-- **A word with the form of a load or store is one**, or else an addition of an extended register that
sets the flags. -/
theorem isLoadStore_of_isAccess (h : (decode k w pc).isAccess = true) :
    w.isLoadStore = true ∨ w.isExtendedSum = true := by
  have hbits : ∀ {mask value : BitVec 32}, w.fits mask value = true →
      mask.getLsbD 27 = true → value.getLsbD 27 = true → mask.getLsbD 25 = true →
      value.getLsbD 25 = false → w.isLoadStore = true := by
    intro mask value hfits hm27 hv27 hm25 hv25
    rw [isLoadStore, bit_eq_of_fits hfits hm27, bit_eq_of_fits hfits hm25, hv27,
      hv25]
    rfl
  rcases fits_of_isAccess h with hscaled | hunscaled | ⟨hpair, haddSub, hlogical, hp⟩
  · exact .inl (hbits hscaled rfl rfl rfl rfl)
  · exact .inl (hbits hunscaled rfl rfl rfl rfl)
  cases h25 : w.bit 25 with
  | false => exact .inl (hbits (fits_or hpair (fits_bit h25)) rfl rfl rfl rfl)
  | true =>
    -- the classes tried before leave the bits that tell an extended register
    have hreg := fits_or hpair (fits_bit h25)
    have h24 : w.bit 24 = true := by
      by_contra h24
      have hfits := fits_or hreg (fits_bit (Bool.eq_false_iff.mpr h24))
      exact hlogical (fits_within hfits rfl rfl)
    have hsum := fits_or hreg (fits_bit h24)
    have h21 : w.bit 21 = true := by
      by_contra h21
      have hfits := fits_or hsum (fits_bit (Bool.eq_false_iff.mpr h21))
      exact haddSub (fits_within hfits rfl rfl)
    have hfits := fits_or (fits_or hsum (fits_bit h21))
      (fits_bit (bit_of_isAccess_pairOf hp))
    exact .inr (fits_within hfits rfl rfl)

/-- Such an addition has the form of a load or store of two registers. -/
theorem decode_of_isExtendedSum (h : w.isExtendedSum = true) (k : Decoder) (pc : UInt64) :
    decode k w pc = .pair (w.bit 22) w.rd w.ra w.rn (w.signed 15 7 * w.size) w.size none := by
  rw [isExtendedSum] at h
  simp (disch := decide) only [decode, Call.decode?, isConditionSet, fits_apart h,
    fits_within h, Bool.false_eq_true, Bool.false_and, ↓reduceIte]
  have h24 : w.slice 24 2 = 3 := slice_of_fits h rfl
  have h30 : w.slice 30 1 = 0 := slice_of_fits h rfl
  have hmode : w.slice 23 3 = 6 ∨ w.slice 23 3 = 7 := by
    rw [slice_eq] at h24 ⊢
    omega
  have hsize : w.slice 30 2 = 2 * (w.bit 31).toNat := by
    rw [slice_eq] at h30
    rw [← slice_one, slice_eq, slice_eq]
    omega
  simp only [pairOf, hsize, size, wide]
  cases w.bit 31 <;> rcases hmode with hmode | hmode <;> rw [hmode] <;> rfl

end Form

/-! ## Loads and stores of two registers -/

namespace Lifting

variable {o : LiftOptions} {s t : Lifting} {x : Inst} {m : Operand} {n rt rt2 rn : Nat} {off size : Int}
  {isLoad : Bool}

/-- A store is one instruction, which touches memory. -/
theorem exists_storeLog (v m : Operand) :
    ∃ i : Insn, storeLog v m = [.append i] ∧ i.touchesMemory = true := by
  refine ⟨_, rfl, ?_⟩
  split
  · next hk => simp [Insn.mov, Insn.touchesMemory, Operand.touchesMemory_of_kind hk]
  · rfl

/-- A load is one instruction, which touches memory, and a note of what the register then holds.  What
cannot be written is not loaded. -/
theorem exists_loadLog (m : Operand) (hn : n ≠ 31) (size : Int) :
    ∃ i : Insn, i.touchesMemory = true ∧
      (loadLog m n size = [.append i] ∨ loadLog m n size = [.append i, .hold n m]) := by
  unfold loadLog
  split
  · next hk =>
    refine ⟨.mov m (.register n size), ?_, .inr ?_⟩
    · simp [Insn.mov, Insn.touchesMemory, Operand.touchesMemory_of_kind hk]
    · simp [moveLog, destination?, hk, hn]
  · exact ⟨⟨.ldx, m, .empty, .register n size⟩, rfl, .inl (by simp [emitToLog, destination?, hn])⟩

theorem loadLog_zero (m : Operand) (size : Int) : loadLog m 31 size = [] := by
  unfold loadLog
  split
  · next hk => simp [moveLog, destination?, hk]
  · rfl

/-- One transfer where no comparison is pending: it touches memory unless it loads what cannot be
written. -/
theorem code_transferLog (h : s.flags? = none) (o : LiftOptions) (isLoad : Bool) (m : Operand) (n : Nat)
    (size : Int) :
    ∃ is, (s.replay (s.transferLog o isLoad m n size)).code = s.code ++ is ∧
      (s.replay (s.transferLog o isLoad m n size)).flags? = none ∧
      ((∃ i ∈ is, i.touchesMemory = true) ↔ isLoad = false ∨ n ≠ 31) := by
  unfold transferLog
  cases isLoad with
  | false =>
    obtain ⟨i, hlog, hi⟩ := exists_storeLog (s.read o n size) m
    obtain ⟨hcode, hflags⟩ := emit_of_flags?_none h i
    rw [if_neg (by decide), hlog]
    exact ⟨[i], hcode, hflags, fun _ => .inl rfl, fun _ => ⟨i, .head _, hi⟩⟩
  | true =>
    rw [if_pos rfl]
    by_cases hn : n = 31
    · subst hn
      rw [loadLog_zero]
      exact ⟨[], (List.append_nil _).symm, h, by simp⟩
    · obtain ⟨i, hi, hlog⟩ := exists_loadLog m hn size
      obtain ⟨hcode, hflags⟩ := emit_of_flags?_none h i
      refine ⟨[i], ?_, ?_, fun _ => .inr hn, fun _ => ⟨i, .head _, hi⟩⟩
      · rcases hlog with hlog | hlog <;> rw [hlog] <;> exact hcode
      · rcases hlog with hlog | hlog <;> rw [hlog] <;> exact hflags

/-- **Two registers side by side**, in an empty block. -/
theorem touchesMemory_pair
    (hform : Form.decode o.decoder x.raw x.addr = .pair isLoad rt rt2 rn off size none) :
    ∃ t, Lifting.inst o {} x = .ok t ∧
      ((∃ i ∈ t.code, i.touchesMemory = true) ↔ isLoad = false ∨ rt ≠ 31 ∨ rt2 ≠ 31) := by
  obtain ⟨is, hcode, hflags, his⟩ :=
    code_transferLog (s := {}) rfl o isLoad (memory rn off size) rt size
  obtain ⟨js, hcode', -, hjs⟩ :=
    code_transferLog hflags o isLoad (memory rn (off + size) size) rt2 size
  refine ⟨_, by rw [inst_eq_log, Lifting.log, hform]; rfl, ?_⟩
  rw [stepBaseLog, List.append_nil, replay_append, hcode', hcode, List.nil_append]
  simp only [List.mem_append, or_and_right, exists_or, his, hjs]
  tauto

/-! ## Lifting to memory -/

/-- **Which words are lifted to memory accesses.**  If any instruction in the code of a word touches
memory, the word is a load or store, or it is one of the additions of an extended register that are taken
for a load or store of two registers.  Those are no loads or stores, and each of them that does not seem
to load what cannot be written is accepted and lifted to code that touches memory. -/
theorem isLoadStore_of_touchesMemory (o : LiftOptions) (x : Inst) :
    (∀ t, Lifting.inst o {} x = .ok t → ∀ i ∈ t.code, i.touchesMemory = true →
      x.raw.isLoadStore = true ∨ x.raw.takenForPair = true) ∧
    (x.raw.takenForPair = true → x.raw.isLoadStore = false ∧
      ∃ t, Lifting.inst o {} x = .ok t ∧ ∃ i ∈ t.code, i.touchesMemory = true) := by
  constructor
  · intro t ht i hi htouches
    by_cases haccess : (Form.decode o.decoder x.raw x.addr).isAccess = true
    · refine (Form.isLoadStore_of_isAccess haccess).imp_right fun hsum => ?_
      obtain ⟨t', ht', hiff⟩ := touchesMemory_pair (Form.decode_of_isExtendedSum hsum o.decoder x.addr)
      obtain rfl : t = t' := Except.ok.inj (ht.symm.trans ht')
      exact takenForPair_iff.mpr ⟨hsum, hiff.mp ⟨i, hi, htouches⟩⟩
    · have hfree := memoryFree_empty.of_inst ht (Bool.eq_false_iff.mpr haccess)
      cases (hfree.code i hi).symm.trans htouches
  · intro h
    obtain ⟨hsum, hwrites⟩ := takenForPair_iff.mp h
    obtain ⟨t, ht, hiff⟩ := touchesMemory_pair (Form.decode_of_isExtendedSum hsum o.decoder x.addr)
    refine ⟨?_, t, ht, hiff.mpr hwrites⟩
    rw [isLoadStore, bit_eq_of_fits hsum (i := 25) rfl]
    exact Bool.and_false _

/-- A load of one register, and a sum of a register and an extended byte. -/
theorem isLoadStore_of_touchesMemory_word :
    let load : Inst := ⟨0x1000, 0xF9400001, "", ""⟩
    let sum : Inst := ⟨0x1000, 0x2B220020, "", ""⟩
    let i : Insn := { op := .ldx, l := .register 0 8, d := .register 1 8 }
    (Lifting.inst {} {} load = .ok { code := [i] } ∧ i.touchesMemory = true ∧
      (load.raw.isLoadStore = true ∨ load.raw.takenForPair = true)) ∧
    sum.raw.takenForPair = true ∧ sum.raw.isLoadStore = false ∧
      ∃ t, Lifting.inst {} {} sum = .ok t ∧ ∃ i ∈ t.code, i.touchesMemory = true := by
  intro load sum i
  have hload : Lifting.inst {} {} load = .ok { code := [i] } := by decide +kernel
  have hsum : sum.raw.takenForPair = true := by decide
  exact ⟨⟨hload, rfl, (isLoadStore_of_touchesMemory {} load).1 _ hload i (.head _) rfl⟩, hsum,
    (isLoadStore_of_touchesMemory {} sum).2 hsum⟩

end Lifting

/-! ## A sum that is stored -/

namespace MachineFunc

/-- Adds an extended byte to a register, sets the flags and returns. -/
def addsExtended : List Inst := ofWords 0x1000 [0x2B220020, 0xD65F03C0]

/-- **A sum is lifted to two stores**, although everything that is not modelled is to be refused. -/
theorem stores_addsExtended :
    let below (n : UInt64) := Operand.derived .add (.register 1 8) (.imm (-n) 8) .empty
    (∀ x ∈ addsExtended, x.raw.isLoadStore = false) ∧
    (ofInsts "f" addsExtended).lift { strict := true } = .ok (ofCode
      [{ op := .stx, l := .register 0 4, r := below 240 },
        { op := .stx, l := .register 0 4, r := below 236 }, .ret (.register 0 8)]) := by
  decide +kernel

end MachineFunc

end Deflatten

import Deflatten.Proofs.Arm64.Tracking

/-!
# Proofs/Arm64/Operations — the operations that lifted code is made of

Data operations, copies, register sources, loads and stores: what the code of each does to a machine,
whether registers are read as what they hold or not.  A copy to the stack pointer is made only from
a register (`Lifting.Sound.computes_move`).
-/

namespace Deflatten

/-! ## Words -/

theorem testBit_truncate (x : UInt64) (size : Int) (i : Nat) :
    (truncate x size).toNat.testBit i = (decide (i < bitWidth size) && x.toNat.testBit i) := by
  rw [toNat_truncate, Nat.testBit_mod_two_pow]

theorem truncate_and (x y : UInt64) (size : Int) :
    truncate (x &&& y) size = truncate x size &&& truncate y size := by
  apply UInt64.toNat_inj.mp
  refine Nat.eq_of_testBit_eq fun i => ?_
  rw [testBit_truncate, UInt64.toNat_and, UInt64.toNat_and, Nat.testBit_and, Nat.testBit_and,
    testBit_truncate, testBit_truncate]
  cases decide (i < bitWidth size) <;> simp

theorem truncate_or (x y : UInt64) (size : Int) :
    truncate (x ||| y) size = truncate x size ||| truncate y size := by
  apply UInt64.toNat_inj.mp
  refine Nat.eq_of_testBit_eq fun i => ?_
  rw [testBit_truncate, UInt64.toNat_or, UInt64.toNat_or, Nat.testBit_or, Nat.testBit_or,
    testBit_truncate, testBit_truncate]
  cases decide (i < bitWidth size) <;> simp

@[simp] theorem truncate_zero (size : Int) : truncate 0 size = 0 := by simp [truncate]

/-- What fits in some bytes fits in more. -/
theorem truncate_truncate_of_le {size size' : Int} (h : bitWidth size ≤ bitWidth size') (x : UInt64) :
    truncate (truncate x size) size' = truncate x size := by
  apply UInt64.toNat_inj.mp
  rw [toNat_truncate, toNat_truncate]
  exact Nat.mod_eq_of_lt (Nat.lt_of_lt_of_le (Nat.mod_lt _ (Nat.two_pow_pos _))
    (Nat.pow_le_pow_right (by decide) h))

namespace Lifting

open Machine (Agree)

variable {o : LiftOptions} {s t u : Lifting} {m m' m₁ : Machine} {v w : Var} {p q : Option Sides}
  {a b : Operand} {op : Opcode} {rd rn : Nat} {size : Int}

/-! ## Data -/

/-- **An operand that can be read** while the pending comparison is saved. -/
structure Readable (s : Lifting) (a : Operand) : Prop where
  sized : a.Sized
  /-- Saving does not change it. -/
  steady : ∀ v ∈ a.reads, s.Steady v

theorem readable_of_isSource (h : a.IsSource) : s.Readable a :=
  ⟨h.sized, fun v hv => .inl (h.visible v hv)⟩

theorem Sound.computes_data (h : s.Sound m) {d : Operand} (hop : op.isData = true)
    (ha : s.Readable a) (hb : Operand.Fills s.Readable op b) (hd : d.var? = some v) (hv : Visible v) :
    s.Computes m (s.emit ⟨op, a, b, d⟩) (m.assign d (op.result (m.value a) (m.value b) d.size))
      (s.pending m) := by
  obtain ⟨hwrites, hends⟩ := Opcode.writes_of_isData hop
  refine h.computes_emit hends (fun w hw => ?_) (fun w hw => ?_)
    (Machine.step_data hop ha.sized (hb.mono Readable.sized) hd)
  · have hdef : Insn.def? ⟨op, a, b, d⟩ = some v := by simp [Insn.def?, hwrites, hd]
    exact Option.mem_unique hdef hw ▸ hv
  · simp only [Insn.reads, if_neg (Operand.kind_of_var? hd).2, List.append_nil, List.mem_append] at hw
    rcases hw with hw | hw
    · exact ha.steady w hw
    · unfold Operand.Fills at hb
      split at hb
      · rw [hb] at hw
        cases hw
      · exact hb.steady w hw

theorem Sound.computes_mov (h : s.Sound m) {d : Operand} (ha : a.IsSource) (hd : d.var? = some v)
    (hv : Visible v) :
    s.Computes m (s.emit (.mov a d)) (m.assign d (m.value a)) (s.pending m) := by
  have hdata := h.computes_data (show Opcode.mov.isData = true from rfl) (readable_of_isSource ha)
    (Operand.fills_empty rfl) hd hv
  rwa [show Opcode.mov.result (m.value a) (m.value .empty) d.size = truncate (m.value a) d.size from rfl,
    Machine.assign_truncate] at hdata

theorem Sound.computes_emitTo (h : s.Sound m) (hop : op.isData = true) (ha : s.Readable a)
    (hb : Operand.Fills s.Readable op b) (hrd : rd < 32) (size : Int) :
    s.Computes m (s.emitTo op a b rd size)
      (m.setReg rd size (op.result (m.value a) (m.value b) size)) (s.pending m) := by
  unfold emitTo destination? Machine.setReg
  by_cases h31 : rd = 31
  · rw [if_pos h31, if_pos h31]
    exact .refl h
  · rw [if_neg h31, if_neg h31]
    exact h.computes_data hop ha hb rfl (visible_reg hrd)

/-- A register is combined with a constant. -/
theorem Sound.computes_inPlace (h : s.Sound m) (hop : op.isData = true) (hunary : op.isUnary = false)
    (hrd : rd < 32) (size : Int) (x : UInt64) :
    s.Computes m (s.emit (.binary op (.register rd size) (.imm x size) (.register rd size)))
      (m.assign (.register rd size)
        (op.result (truncate (m.read (.reg rd)) size) (truncate x size) size)) (s.pending m) := by
  have hdata := h.computes_data hop (readable_of_isSource (Operand.isSource_register hrd size))
    (Operand.fills_of hunary (readable_of_isSource (Operand.isSource_imm x size)))
    (d := .register rd size) rfl (visible_reg hrd)
  rwa [Machine.value_register, Machine.value_imm] at hdata

/-! ## Copies -/

/-- A register that was set to a constant or to a slot holds it. -/
theorem Computes.define (hc : s.Computes m t (m.assign (.register rd size) (m.value a)) p)
    (ha : a.IsSource) (hrd : rd ≤ 30) (hk : a.kind = .imm ∨ a.kind = .stack)
    (hfit : ∀ m : Machine, truncate (m.value a) size = m.value a) :
    s.Computes m { t with held := t.held.define rd a } (m.assign (.register rd size) (m.value a)) p := by
  obtain ⟨is, m₁, hcode, hrun, hsound, hagree, hp⟩ := hc
  have hbindings : (t.held.define rd a).bindings = ((rd : Int), a) :: (t.held.erase rd).bindings := by
    have htracked : Holdings.isTracked rd = true := by
      simp [Holdings.isTracked]
      omega
    have hsome : a.isNone = false := by
      rcases hk with hk | hk <;> simp [Operand.isNone, hk]
    simp [Holdings.define, htracked, hsome, Table.insert]
  have herase : ∀ {n x}, (n, x) ∈ (t.held.erase (rd : Int)).bindings → (n, x) ∈ t.held.bindings :=
    fun hx => (List.mem_filter.mp hx).1
  -- the slot that the register holds is not the register
  have hvalue : m₁.value a = m.value a := by
    rw [hagree.value_eq ha.visible]
    refine Machine.value_congr fun v hv => ?_
    rw [Machine.read_assign_register, if_neg]
    rintro rfl
    rcases hk with hk | hk
    · rw [Operand.reads_of_isImm hk] at hv
      cases hv
    · rw [Operand.reads_of_var? (Operand.var?_of_stack hk), List.mem_singleton] at hv
      cases hv
  have hreg : m₁.read (.reg rd) = m₁.value a := by
    rw [hagree.read_eq _ (visible_reg (by omega)), Machine.read_assign_register, if_pos rfl, hfit,
      hvalue]
  refine ⟨is, m₁, hcode, hrun, ⟨?_, ?_, ?_, hsound.kept⟩, hagree, hp⟩
  · intro n x hx
    rw [hbindings] at hx
    rcases List.mem_cons.mp hx with heq | hx
    · cases heq
      omega
    · exact hsound.general (herase hx)
  · intro n x hx
    rw [hbindings] at hx
    rcases List.mem_cons.mp hx with heq | hx
    · cases heq
      exact hk
    · exact hsound.simple (herase hx)
  · intro n x hx
    rw [hbindings] at hx
    rcases List.mem_cons.mp hx with heq | hx
    · cases heq
      exact hreg
    · exact hsound.held (herase hx)

/-- **A copy to a register**; to the stack pointer only a register can be copied. -/
theorem Sound.computes_move (h : s.Sound m) (ha : a.IsSource) (hrd : rd < 32)
    (hfit : a.kind = .imm ∨ a.kind = .stack → ∀ m : Machine, truncate (m.value a) size = m.value a) :
    s.Computes m (s.move a rd size)
      (if rd = 31 ∧ a.kind ≠ .reg then m else m.assign (.register rd size) (m.value a))
      (s.pending m) := by
  have hmov := h.computes_mov (d := .register rd size) ha rfl (visible_reg hrd)
  by_cases h31 : rd = 31
  · subst h31
    by_cases hreg : a.kind = .reg
    · have hmove : s.move a 31 size = s.emit (.mov a (.register 31 size)) := by
        simp [move, hreg, Reg.stack, Operand.isImm]
      rw [hmove, if_neg (by simp [hreg])]
      exact hmov
    · have hmove : s.move a 31 size = s := by
        simp [move, hreg, Reg.stack, destination?]
      rw [hmove, if_pos ⟨rfl, hreg⟩]
      exact .refl h
  · rw [if_neg (by simp [h31])]
    have hd : (if (decide (rd = Reg.stack) && a.kind == .reg) = true
        then some (Operand.register Reg.stack size) else destination? rd size) =
        some (.register rd size) := by
      simp [Reg.stack, destination?, h31]
    unfold move
    simp only [hd]
    split
    · next hk =>
      have hk : a.kind = .imm ∨ a.kind = .stack := by simpa [Operand.isImm] using hk
      exact hmov.define ha (by omega) hk (hfit hk)
    · exact hmov

/-! ## Register sources -/

theorem Orderly.isSource_readStack (h : s.Orderly) (o : LiftOptions) (hn : rn < 32) (size : Int) :
    (s.readStack o rn size).IsSource ∧ (s.readStack o rn size).size = size := by
  unfold readStack
  split
  · exact ⟨Operand.isSource_register (n := Reg.stack) (by decide) size, rfl⟩
  · exact h.isSource_read o hn size

theorem Orderly.isSource_readShifted (h : s.Orderly) (o : LiftOptions) {rm : Nat} (hm : rm < 32)
    (shift : Shift) (size : Int) :
    (s.readShifted o rm shift size).IsSource ∧ (s.readShifted o rm shift size).size = size := by
  obtain ⟨hsource, hsize⟩ := h.isSource_read o hm size
  cases shift with
  | none => exact ⟨hsource, hsize⟩
  | left k =>
    exact ⟨hsource.derived rfl (Operand.fills_of rfl (Operand.isSource_imm _ size)), hsize⟩
  | right k =>
    exact ⟨hsource.derived rfl (Operand.fills_of rfl (Operand.isSource_imm _ size)), hsize⟩

theorem Orderly.isSource_logicSource (h : s.Orderly) (o : LiftOptions) {b : LogicSource}
    (hb : b.Proper) (size : Int) :
    (s.logicSource o size b).IsSource ∧ (s.logicSource o size b).size = size := by
  cases b with
  | imm v => exact ⟨Operand.isSource_imm v size, rfl⟩
  | reg rm shift invert =>
    obtain ⟨hsource, hsize⟩ := h.isSource_readShifted o (show rm < 32 from hb) shift size
    cases invert with
    | false => exact ⟨hsource, hsize⟩
    | true => exact ⟨hsource.derived rfl (Operand.fills_empty rfl), hsize⟩

theorem Sound.readStack_spec (h : s.Sound m) (o : LiftOptions) (hn : rn < 32) (size : Int) :
    (s.readStack o rn size).IsSource ∧ (s.readStack o rn size).size = size ∧
      m.value (s.readStack o rn size) = truncate (m.read (.reg rn)) size := by
  obtain ⟨hsource, hsize⟩ := h.orderly.isSource_readStack o hn size
  refine ⟨hsource, hsize, ?_⟩
  unfold readStack
  split
  · next hstack => rw [Machine.value_register, hstack]
  · next hne => exact (h.value_read o rn size).trans (if_neg hne)

theorem Sound.readShifted_spec (h : s.Sound m) (o : LiftOptions) {rm : Nat} (hm : rm < 32)
    (shift : Shift) (size : Int) :
    (s.readShifted o rm shift size).IsSource ∧ (s.readShifted o rm shift size).size = size ∧
      m.value (s.readShifted o rm shift size) = m.shifted rm size shift := by
  obtain ⟨hsource, hsize⟩ := h.orderly.isSource_readShifted o hm shift size
  refine ⟨hsource, hsize, ?_⟩
  obtain ⟨hread, hreadsize⟩ := h.isSource_read o hm size
  have hvalue := h.value_read o rm size
  cases shift with
  | none => exact hvalue
  | left k =>
    refine (Machine.value_derived rfl hread.sized (Operand.fills_of rfl (Operand.sized_imm _ _)) m).trans ?_
    rw [hvalue, hreadsize]
    rfl
  | right k =>
    refine (Machine.value_derived rfl hread.sized (Operand.fills_of rfl (Operand.sized_imm _ _)) m).trans ?_
    rw [hvalue, hreadsize]
    rfl

theorem Sound.logicSource_spec (h : s.Sound m) (o : LiftOptions) {b : LogicSource} (hb : b.Proper)
    (size : Int) :
    (s.logicSource o size b).IsSource ∧ (s.logicSource o size b).size = size ∧
      m.value (s.logicSource o size b) = m.logicValue size b := by
  obtain ⟨hsource, hsize⟩ := h.orderly.isSource_logicSource o hb size
  refine ⟨hsource, hsize, ?_⟩
  cases b with
  | imm v => exact Machine.value_imm ..
  | reg rm shift invert =>
    obtain ⟨hread, hreadsize, hvalue⟩ := h.readShifted_spec o (show rm < 32 from hb) shift size
    cases invert with
    | false => exact hvalue
    | true =>
      refine (Machine.value_derived rfl hread.sized (Operand.fills_empty rfl) m).trans ?_
      rw [hvalue, hreadsize]
      rfl

/-! ## Memory -/

theorem isSource_memory (hn : rn < 32) (off size : Int) : (memory rn off size).IsSource := by
  refine ⟨?_, visible_memory hn off size⟩
  unfold memory
  split
  · exact Operand.sized_of_var? rfl
  split
  · exact Operand.sized_of_var? rfl
  · exact (Operand.sized_of_var? rfl).derived rfl (Operand.fills_of rfl (Operand.sized_imm _ _))

theorem Sound.computes_store (h : s.Sound m) (ha : a.IsSource) (hn : rn < 32) (off size : Int) :
    s.Computes m (s.store a (memory rn off size)) (m.stored rn off size (m.value a))
      (s.pending m) := by
  have hmem := isSource_memory hn off size
  unfold store Machine.stored
  dsimp only
  split
  · next hk =>
    exact h.computes_mov ha (Operand.var?_of_stack hk) (visible_stack _ _)
  · refine h.computes_emit rfl nofun (fun v hv => .inl ?_) rfl
    simp only [Insn.reads, List.mem_append] at hv
    rcases hv with (hv | hv) | hv
    · exact ha.visible v hv
    · exact hmem.visible v hv
    · cases hv

theorem Sound.computes_load (h : s.Sound m) (hn : rn < 32) (off size : Int) {rt : Nat} (ht : rt < 32)
    {width : Int} (hfit : bitWidth size ≤ bitWidth width) :
    s.Computes m (s.load (memory rn off size) rt width) (m.loaded rn off size rt width)
      (s.pending m) := by
  have hmem := isSource_memory hn off size
  unfold load Machine.loaded
  dsimp only
  split
  · next hk =>
    have hsize : (memory rn off size).size = size := by
      unfold memory at hk ⊢
      split
      · rfl
      · next hne =>
        rw [if_neg hne] at hk
        split at hk <;> cases hk
    have hcut : ∀ m : Machine, truncate (m.value (memory rn off size)) width =
        m.value (memory rn off size) := fun m => by
      rw [Machine.value_of_var? (Operand.var?_of_stack hk), hsize, truncate_truncate_of_le hfit]
    have hmove := h.computes_move hmem ht fun _ => hcut
    simp only [hk, ne_eq, reduceCtorEq, not_false_eq_true, and_true] at hmove
    exact hmove
  · unfold emitTo destination? Machine.setReg
    by_cases h31 : rt = 31
    · rw [if_pos h31, if_pos h31]
      exact .refl h
    · rw [if_neg h31, if_neg h31]
      refine h.computes_emit rfl (fun v hv => ?_) (fun v hv => .inl ?_) rfl
      · exact Option.some.inj hv ▸ visible_reg ht
      · simp only [Insn.reads, List.mem_append] at hv
        rcases hv with (hv | hv) | hv
        · exact hmem.visible v hv
        · cases hv
        · cases hv

theorem Sound.computes_stepBase (h : s.Sound m) (hn : rn < 32) (step : Option Int) :
    s.Computes m (s.stepBase rn step) (m.stepped rn step) (s.pending m) := by
  cases step with
  | none => exact .refl h
  | some n =>
    refine (h.computes_inPlace (show Opcode.add.isData = true from rfl) rfl hn 8 (.ofInt n)).congr ?_
    rw [Machine.stepped, ← Machine.assign_truncate]
    exact .refl _ _

theorem Computes.stepBase (h : s.Computes m t m' p) (hn : rn < 32) (step : Option Int) :
    s.Computes m (t.stepBase rn step) (m'.stepped rn step) p :=
  h.trans fun _ hsound hagree hp => hp ▸ (hsound.computes_stepBase hn step).congr (hagree.stepped hn step)

theorem Sound.computes_transfer (h : s.Sound m) (o : LiftOptions) (isLoad : Bool) (hn : rn < 32)
    (off size : Int) {r : Nat} (hr : r < 32) :
    s.Computes m
      (if isLoad then s.load (memory rn off size) r size
        else s.store (s.read o r size) (memory rn off size))
      (m.transferred isLoad rn off size r) (s.pending m) := by
  unfold Machine.transferred
  split
  · exact h.computes_load hn off size hr (Nat.le_refl _)
  · have hstore := h.computes_store (h.isSource_read o hr size).1 hn off size
    rwa [h.value_read] at hstore

end Lifting

end Deflatten

import Deflatten.Proofs.Arm64.Actions
import Deflatten.Proofs.Arm64.Operations

/-!
# Proofs/Arm64/Translation — lifted instructions do what the instructions do

The code that lifting appends for an instruction has the instruction's meaning, whether registers are
read as what they hold or not (`Lifting.Sound.renders_inst`): there is a lemma for each class of
instructions, and the theorem goes through the forms.

The one exception are copies to the stack pointer.  The lifter makes them only from registers, so a
copy from a register that is read as what it holds is missed (`Lifting.misses`).
-/

namespace Deflatten

open Machine (Agree)

/-- The register that a form copies to the stack pointer, with the bytes copied. -/
def Form.stackCopy? : Form → Option (Nat × Int)
  | addSubImm false false imm rn rd size =>
    if rd = 31 ∧ rn ≠ 31 ∧ truncate imm size = 0 then some (rn, size) else none
  | logical .or _ b rn rd size => if rn = 31 ∧ rd = 31 then b.general?.map (·, size) else none
  | _ => none

namespace Lifting

variable {o : LiftOptions} {s t u : Lifting} {m m' m₁ : Machine} {v : Var} {p : Option Sides}
  {a b : Operand} {op : Opcode} {rd rn rm : Nat} {size : Int} {x : Inst} {r r' : Executed}

/-- **Whether a copy to the stack pointer is missed**: its source is read as what it holds. -/
def misses (o : LiftOptions) (s : Lifting) (x : Inst) : Bool :=
  (Form.decode o.decoder x.raw x.addr).stackCopy?.any fun c => (s.read o c.1 c.2).kind != .reg

/-! ## Constants -/

theorem Sound.computes_constant (h : s.Sound m) (x : UInt64) (hrd : rd < 32) (size : Int) :
    s.Computes m (s.move (.imm x size) rd size) (m.setReg rd size x) (s.pending m) := by
  have hmove := h.computes_move (Operand.isSource_imm x size) hrd fun _ m =>
    (Operand.sized_imm x size).cut m
  refine hmove.congr ?_
  rw [Machine.setReg, Machine.value_imm]
  by_cases h31 : rd = 31
  · rw [if_pos h31, if_pos ⟨h31, nofun⟩]
    exact .refl _ _
  · rw [if_neg h31, if_neg (fun hand => h31 hand.1), ← Machine.assign_truncate m _ x]
    exact .refl _ _

/-- Sixteen bits of a register are set, in one step or in two. -/
theorem Sound.computes_insert (h : s.Sound m) (o : LiftOptions) (imm mask : UInt64) (hrd : rd < 31)
    (size : Int) :
    s.Computes m
      (match (s.lookup? o rd).filter Operand.isImm with
        | some cur => s.move (.imm (cur.fields.value &&& ~~~mask ||| imm) size) rd size
        | none =>
          (s.emit (.binary .and (.register rd size) (.imm (~~~mask) size) (.register rd size))).emit
            (.binary .or (.register rd size) (.imm imm size) (.register rd size)))
      (m.assign (.register rd size) (m.read (.reg rd) &&& ~~~mask ||| imm)) (s.pending m) := by
  have hrd' : rd < 32 := by omega
  split
  · next cur hcur =>
    obtain ⟨hlookup, himm⟩ := Option.filter_eq_some_iff.mp hcur
    have hmove := h.computes_move
      (Operand.isSource_imm (cur.fields.value &&& ~~~mask ||| imm) size) hrd'
      fun _ m => (Operand.sized_imm _ size).cut m
    have hread : m.read (.reg rd) = cur.fields.value := by
      rw [h.held (mem_of_lookup? hlookup),
        Machine.value_of_isImm (by simpa [Operand.isImm] using himm)]
    rw [if_neg (by omega), Machine.value_imm] at hmove
    rw [hread]
    exact hmove.congr (by rw [← Machine.assign_truncate]; exact .refl _ _)
  · have hand : Opcode.and.isData = true := rfl
    have hor : Opcode.or.isData = true := rfl
    refine (h.computes_inPlace hand rfl hrd' size (~~~mask)).trans fun m₁ hsound hagree hp => ?_
    refine hp ▸ (hsound.computes_inPlace hor rfl hrd' size imm).congr ?_
    -- the second step overwrites what the first has set
    refine ⟨fun w hw => ?_, ?_, ?_⟩
    · rw [Machine.read_assign_register, Machine.read_assign_register]
      split
      · rw [hagree.read_eq _ (visible_reg hrd'), Machine.read_assign_register, if_pos rfl]
        simp only [Opcode.result, Opcode.compute?, Option.map_some, Option.getD_some, truncate_and,
          truncate_or, truncate_truncate]
      · next hne => rw [hagree.read_eq _ hw, Machine.read_assign_register, if_neg hne]
    · rw [Machine.mem_assign, hagree.mem_eq, Machine.mem_assign, Machine.mem_assign]
    · rw [Machine.calls_assign, hagree.calls_eq, Machine.calls_assign, Machine.calls_assign]

/-! ## Addition and subtraction -/

theorem Sound.compare (h : s.Sound m) (ha : a.IsSource) (hb : b.IsSource) :
    (s.compare a b).Sound m :=
  ⟨h.general, h.simple, h.held, fun hc => Option.some.inj hc ▸ Compare.kept_of_isSource ha hb⟩

@[simp] theorem pending_compare (s : Lifting) (a b : Operand) (m : Machine) :
    (s.compare a b).pending m = some ⟨m.value a, m.value b, a.size, b.size⟩ := rfl

/-- The block with the comparison that an addition or subtraction leaves behind. -/
def compared (s : Lifting) (sub flags : Bool) (a b : Operand) (size : Int) : Lifting :=
  if !flags then s
  else if sub then s.compare a b
  else if b.isImm then s.compare a (.imm (-b.fields.value) size)
  else s.compare a (.derived .neg b .empty .empty)

theorem addSub_eq (s : Lifting) (sub flags : Bool) (a b : Operand) (rd : Nat) (size : Int) :
    s.addSub sub flags a b rd size =
      if flags && rd = 31 then s.compared sub flags a b size
      else if !sub && b.isImm && b.fields.value == 0 then
        (s.compared sub flags a b size).move a rd size
      else (s.compared sub flags a b size).emit
        ⟨if sub then .sub else .add, a, b, .register rd size⟩ := rfl

theorem Sound.compared (h : s.Sound m) (sub flags : Bool) (ha : a.IsSource) (hb : b.IsSource)
    (hasize : a.size = size) (hbsize : b.size = size) :
    (s.compared sub flags a b size).code = s.code ∧ (s.compared sub flags a b size).Sound m ∧
      (s.compared sub flags a b size).pending m =
        if flags then some (.ofAddSub sub (m.value a) (m.value b) size) else s.pending m := by
  unfold Lifting.compared
  cases flags with
  | false => exact ⟨rfl, h, rfl⟩
  | true =>
    cases sub with
    | true =>
      refine ⟨rfl, h.compare ha hb, ?_⟩
      exact (pending_compare s a b m).trans (by rw [hasize, hbsize]; rfl)
    | false =>
      simp only [Bool.not_true, Bool.false_eq_true, if_false, if_true]
      split
      · next himm =>
        refine ⟨rfl, h.compare ha (Operand.isSource_imm _ _), ?_⟩
        have hvalue : m.value b = b.fields.value :=
          Machine.value_of_isImm (by simpa [Operand.isImm] using himm)
        rw [pending_compare, Machine.value_imm, hasize, hvalue]
        rfl
      · have hneg := hb.derived (show Opcode.neg.isData = true from rfl) (Operand.fills_empty rfl)
        refine ⟨rfl, h.compare ha hneg, ?_⟩
        rw [pending_compare,
          Machine.value_derived (show Opcode.neg.isData = true from rfl) hb.sized
            (Operand.fills_empty rfl) m,
          show (Operand.derived .neg b .empty .empty).size = b.size from rfl, hasize, hbsize]
        rfl

/-- **Addition and subtraction**, with the comparison they leave behind. -/
theorem Sound.computes_addSub (h : s.Sound m) (sub flags : Bool) (ha : a.IsSource) (hb : b.IsSource)
    (hasize : a.size = size) (hbsize : b.size = size) (hrd : rd < 32)
    (hstack : rd = 31 → flags = false → sub = false → b.isImm = true → b.fields.value = 0 →
      a.kind = .reg) :
    s.Computes m (s.addSub sub flags a b rd size)
      (if flags && rd = 31 then m
        else m.assign (.register rd size)
          ((if sub then Opcode.sub else .add).result (m.value a) (m.value b) size))
      (if flags then some (.ofAddSub sub (m.value a) (m.value b) size) else s.pending m) := by
  obtain ⟨hcode, hsound, hp⟩ := h.compared sub flags ha hb hasize hbsize
  rw [addSub_eq, ← hp]
  by_cases hflags : (flags && decide (rd = 31)) = true
  · rw [if_pos hflags, if_pos hflags]
    exact (Computes.refl hsound).of_code_eq hcode
  rw [if_neg hflags, if_neg hflags]
  split
  · next hzero =>
    simp only [Bool.and_eq_true, Bool.not_eq_true', beq_iff_eq] at hzero
    obtain ⟨⟨rfl, himm⟩, hzero⟩ := hzero
    have hmove := hsound.computes_move ha hrd fun _ m => hasize ▸ ha.sized.cut m
    have hvalue : m.value b = 0 := by
      rw [Machine.value_of_isImm (by simpa [Operand.isImm] using himm), hzero]
    have hreg : ¬ (rd = 31 ∧ a.kind ≠ .reg) := by
      rintro ⟨h31, hk⟩
      refine hk (hstack h31 ?_ rfl himm hzero)
      simpa [h31] using hflags
    rw [if_neg hreg] at hmove
    refine (hmove.of_code_eq hcode).congr ?_
    rw [hvalue, ← Machine.assign_truncate m _ (m.value a)]
    simp only [Bool.false_eq_true, if_false, Opcode.result, Opcode.compute?, Option.map_some,
      Option.getD_some, UInt64.add_zero]
    exact .refl _ _
  · have hdata := hsound.computes_data (d := .register rd size)
      (show (if sub then Opcode.sub else .add).isData = true by cases sub <;> rfl)
      (readable_of_isSource ha)
      (Operand.fills_of (by cases sub <;> rfl) (readable_of_isSource hb)) rfl (visible_reg hrd)
    exact hdata.of_code_eq hcode

theorem Sound.computes_addSubImm (h : s.Sound m) (o : LiftOptions) (sub flags : Bool) (imm : UInt64)
    (hn : rn < 32) (hd : rd < 32) (size : Int)
    (hcopy : (Form.addSubImm sub flags imm rn rd size).stackCopy? = some (rn, size) →
      (s.read o rn size).kind = .reg) :
    s.Computes m (s.addSub sub flags (s.readStack o rn size) (.imm imm size) rd size)
      (if flags && rd = 31 then m
        else m.assign (.register rd size) ((if sub then Opcode.sub else .add).result
          (truncate (m.read (.reg rn)) size) (truncate imm size) size))
      (if flags then
        some (.ofAddSub sub (truncate (m.read (.reg rn)) size) (truncate imm size) size)
      else s.pending m) := by
  obtain ⟨ha, hasize, hvalue⟩ := h.readStack_spec o hn size
  have hadd := h.computes_addSub sub flags ha (Operand.isSource_imm imm size) hasize rfl hd
  rw [hvalue, Machine.value_imm] at hadd
  refine hadd ?_
  rintro rfl rfl rfl - hzero
  unfold readStack
  split
  · rfl
  · next hne => exact hcopy (if_pos ⟨rfl, hne, hzero⟩)

theorem Sound.computes_addSubReg (h : s.Sound m) (o : LiftOptions) (sub flags : Bool) (hm : rm < 32)
    (shift : Shift) (hn : rn < 32) (hd : rd < 32) (size : Int) (hflags : rd = 31 → flags = true) :
    s.Computes m (s.addSub sub flags (s.read o rn size) (s.readShifted o rm shift size) rd size)
      (m.setReg rd size ((if sub then Opcode.sub else .add).result (m.reg rn size)
        (m.shifted rm size shift) size))
      (if flags then some (.ofAddSub sub (m.reg rn size) (m.shifted rm size shift) size)
      else s.pending m) := by
  obtain ⟨ha, hasize⟩ := h.isSource_read o hn size
  obtain ⟨hb, hbsize, hvalue⟩ := h.readShifted_spec o hm shift size
  have hadd := h.computes_addSub sub flags ha hb hasize hbsize hd fun h31 hno =>
    absurd (hflags h31) (by simp [hno])
  rw [h.value_read, hvalue] at hadd
  refine hadd.congr ?_
  by_cases h31 : rd = 31
  · simp only [Machine.setReg, h31, hflags h31, decide_true, Bool.and_self, if_true]
    exact .refl _ _
  · simp only [Machine.setReg, h31, decide_false, Bool.and_false, Bool.false_eq_true, if_false]
    exact .refl _ _

/-! ## Bitwise operations -/

/-- What is no general register as it stands is no register in microcode. -/
theorem kind_logicSource {b : LogicSource} (hb : b.general? = none) (size : Int) :
    (s.logicSource o size b).kind ≠ .reg := by
  cases b with
  | imm v => exact nofun
  | reg rm shift invert =>
    cases invert with
    | true => exact nofun
    | false =>
      cases shift with
      | left k => exact nofun
      | right k => exact nofun
      | none =>
        have hrm : rm = 31 := by simpa [LogicSource.general?] using hb
        subst hrm
        exact nofun

theorem logicSource_of_general? {b : LogicSource} {n : Nat} (hb : b.general? = some n) (size : Int) :
    s.logicSource o size b = s.read o n size := by
  unfold LogicSource.general? at hb
  split at hb
  · split at hb
    · cases hb
    · cases hb
      rfl
  · cases hb

/-- **A copy of a logical source**; to the stack pointer it is made only from a register. -/
theorem Sound.computes_copy (h : s.Sound m) (o : LiftOptions) {b : LogicSource} (hb : b.Proper)
    (hd : rd < 32) (size : Int)
    (hcopy : rd = 31 → ∀ n, b.general? = some n → (s.read o n size).kind = .reg) :
    s.Computes m (s.move (s.logicSource o size b) rd size)
      (if rd = 31 && b.general?.isSome then m.assign (.register Reg.stack size) (m.logicValue size b)
        else m.setReg rd size (m.logicValue size b)) (s.pending m) := by
  obtain ⟨hsource, hsize, hvalue⟩ := h.logicSource_spec o hb size
  have hmove := h.computes_move hsource hd fun _ m => hsize ▸ hsource.sized.cut m
  rw [hvalue] at hmove
  refine hmove.congr ?_
  by_cases h31 : rd = 31
  · subst h31
    cases hgen : b.general? with
    | none =>
      simp only [Machine.setReg, kind_logicSource hgen, decide_true, Option.isSome_none, Bool.and_false,
        Bool.false_eq_true, if_false, if_true, ne_eq, not_false_eq_true, and_self]
      exact .refl _ _
    | some n =>
      simp only [logicSource_of_general? hgen, hcopy rfl n hgen, Reg.stack, decide_true,
        Option.isSome_some, Bool.and_self, if_true, ne_eq, not_true_eq_false, and_false, if_false]
      exact .refl _ _
  · simp only [h31, Machine.setReg, decide_false, Bool.false_and, Bool.false_eq_true, if_false,
      false_and]
    exact .refl _ _

/-- **A bitwise operation**, with the comparison it leaves behind. -/
theorem Sound.computes_bitwise (h : s.Sound m) (o : LiftOptions) (flags : Bool)
    (hop : op ∈ [Opcode.and, .or, .xor]) {c : LogicSource} (hc : c.Proper) (hn : rn < 32)
    (hrd : rd < 32) (size : Int) :
    s.Computes m
      ((if flags then s.compare (.derived .and (s.read o rn size) (s.logicSource o size c) .empty)
        (.imm 0 size) else s).emitTo op (s.read o rn size) (s.logicSource o size c) rd size)
      (m.setReg rd size (op.result (m.reg rn size) (m.logicValue size c) size))
      (if flags then
        some ⟨Opcode.and.result (m.reg rn size) (m.logicValue size c) size, 0, size, size⟩
      else s.pending m) := by
  obtain ⟨ha, hasize⟩ := h.isSource_read o hn size
  obtain ⟨hb, -, hbvalue⟩ := h.logicSource_spec o hc size
  have hvalue := h.value_read o rn size
  generalize s.read o rn size = a at ha hasize hvalue
  generalize s.logicSource o size c = b at hb hbvalue
  obtain ⟨hdata, hbinary, -⟩ := Opcode.binary_of_mem (by decide) hop
  have hemit : ∀ {s : Lifting}, s.Sound m → s.Computes m (s.emitTo op a b rd size)
      (m.setReg rd size (op.result (m.reg rn size) (m.logicValue size c) size)) (s.pending m) := by
    intro s h
    have hto := h.computes_emitTo hdata (readable_of_isSource ha)
      (Operand.fills_of hbinary (readable_of_isSource hb)) hrd size
    rwa [hvalue, hbvalue] at hto
  cases flags with
  | false => exact hemit h
  | true =>
    have hand : Opcode.and.isData = true := rfl
    have htested := ha.derived hand (Operand.fills_of rfl hb)
    have hsides : (s.compare (.derived .and a b .empty) (.imm 0 size)).pending m =
        some ⟨Opcode.and.result (m.reg rn size) (m.logicValue size c) size, 0, size, size⟩ := by
      rw [pending_compare, Machine.value_derived hand ha.sized (Operand.fills_of rfl hb.sized) m,
        show (Operand.derived .and a b .empty).size = a.size from rfl, Machine.value_imm, hasize, hvalue,
        hbvalue, truncate_zero]
      rfl
    exact hsides ▸ (hemit (h.compare htested (Operand.isSource_imm 0 size))).of_code_eq rfl

/-! ## Products, shifts and conditions -/

theorem Sound.computes_multiply (h : s.Sound m) (o : LiftOptions) (sub : Bool) {ra : Nat}
    (hm : rm < 32) (ha : ra < 32) (hn : rn < 32) (hd : rd < 32) (size : Int) :
    s.Computes m
      (if sub then
        s.emitTo .sub (s.read o ra size) (.derived .mul (s.read o rn size) (s.read o rm size) .empty)
          rd size
      else if ra = 31 then s.emitTo .mul (s.read o rn size) (s.read o rm size) rd size
      else
        s.emitTo .add (s.read o ra size) (.derived .mul (s.read o rn size) (s.read o rm size) .empty)
          rd size)
      (m.setReg rd size
        (if sub then
          Opcode.sub.result (m.reg ra size) (Opcode.mul.result (m.reg rn size) (m.reg rm size) size) size
        else if ra = 31 then Opcode.mul.result (m.reg rn size) (m.reg rm size) size
        else
          Opcode.add.result (m.reg ra size) (Opcode.mul.result (m.reg rn size) (m.reg rm size) size)
            size)) (s.pending m) := by
  obtain ⟨hl, hlsize⟩ := h.isSource_read o hn size
  obtain ⟨hr, -⟩ := h.isSource_read o hm size
  obtain ⟨hadd, -⟩ := h.isSource_read o ha size
  have hmul : Opcode.mul.isData = true := rfl
  have hproduct := hl.derived hmul (Operand.fills_of rfl hr)
  have hvalue := Machine.value_derived hmul hl.sized (Operand.fills_of rfl hr.sized) m
  rw [h.value_read, h.value_read, hlsize] at hvalue
  -- the product is added or subtracted as an operand of its own
  have hwith : ∀ {op : Opcode}, op.isData = true → op.isUnary = false → s.Computes m
      (s.emitTo op (s.read o ra size) (.derived .mul (s.read o rn size) (s.read o rm size) .empty) rd size)
      (m.setReg rd size (op.result (m.reg ra size)
        (Opcode.mul.result (m.reg rn size) (m.reg rm size) size) size)) (s.pending m) := by
    intro op hop hunary
    have hemit := h.computes_emitTo hop (readable_of_isSource hadd)
      (Operand.fills_of hunary (readable_of_isSource hproduct)) hd size
    rwa [hvalue, h.value_read] at hemit
  split
  · exact hwith rfl rfl
  split
  · have hemit := h.computes_emitTo hmul (readable_of_isSource hl)
      (Operand.fills_of rfl (readable_of_isSource hr)) hd size
    rwa [h.value_read, h.value_read] at hemit
  · exact hwith rfl rfl

theorem Sound.computes_bitfield (h : s.Sound m) (o : LiftOptions)
    (hop : op ∈ [Opcode.shl, .shr, .and]) (amount : UInt64) (hn : rn < 32) (hd : rd < 32)
    (size : Int) :
    s.Computes m (s.emitTo op (s.read o rn size) (.imm amount size) rd size)
      (m.setReg rd size (op.result (m.reg rn size) (truncate amount size) size)) (s.pending m) := by
  obtain ⟨ha, -⟩ := h.isSource_read o hn size
  obtain ⟨hdata, hbinary, -⟩ := Opcode.binary_of_mem (by decide) hop
  have hemit := h.computes_emitTo hdata (readable_of_isSource ha)
    (Operand.fills_of hbinary (readable_of_isSource (Operand.isSource_imm amount size))) hd size
  rwa [h.value_read, Machine.value_imm] at hemit

theorem Sound.computes_shiftBy (h : s.Sound m) (o : LiftOptions) (hop : op ∈ [Opcode.shl, .shr])
    (hm : rm < 32) (hn : rn < 32) (hd : rd < 32) (size : Int) :
    s.Computes m
      (s.emitTo op (s.read o rn size)
        (.derived .and (s.read o rm size) (.imm (UInt64.ofInt (size * 8 - 1)) size) .empty) rd size)
      (m.setReg rd size (op.result (m.reg rn size)
        (Opcode.and.result (m.reg rm size) (truncate (UInt64.ofInt (size * 8 - 1)) size) size) size))
      (s.pending m) := by
  obtain ⟨ha, -⟩ := h.isSource_read o hn size
  obtain ⟨hb, hbsize⟩ := h.isSource_read o hm size
  obtain ⟨hdata, hbinary, -⟩ := Opcode.binary_of_mem (by decide) hop
  have hand : Opcode.and.isData = true := rfl
  have hmask := Operand.isSource_imm (UInt64.ofInt (size * 8 - 1)) size
  have hplaces := hb.derived hand (Operand.fills_of rfl hmask)
  have hvalue := Machine.value_derived hand hb.sized (Operand.fills_of rfl hmask.sized) m
  rw [h.value_read, hbsize, Machine.value_imm] at hvalue
  have hemit := h.computes_emitTo hdata (readable_of_isSource ha)
    (Operand.fills_of hbinary (readable_of_isSource hplaces)) hd size
  rwa [h.value_read, hvalue] at hemit

theorem Sound.computes_conditionSet (h : s.Sound m) {c : Compare} (hc : s.flags? = some c)
    (equal : Bool) (hd : rd < 32) (size : Int) :
    s.Computes m (s.emitTo (if equal then .setz else .setnz) c.l c.r rd size)
      (m.setReg rd size
        ((if equal then Opcode.setz else .setnz).result (m.value c.l) (m.value c.r) size))
      (s.pending m) := by
  have hkept := h.kept hc
  have hdata : (if equal then Opcode.setz else .setnz).isData = true ∧
      (if equal then Opcode.setz else .setnz).isUnary = false := by
    cases equal <;> exact ⟨rfl, rfl⟩
  exact h.computes_emitTo hdata.1
    ⟨hkept.left, fun v hv => h.steady_flags hc (List.mem_append_left _ hv)⟩
    (Operand.fills_of hdata.2
      ⟨hkept.right, fun v hv => h.steady_flags hc (List.mem_append_right _ hv)⟩) hd size

/-! ## Results -/

/-- **The code appended from `s` to `t` does what a result says.** -/
def Renders (s : Lifting) (m : Machine) (t : Lifting) : Executed → Prop
  | .ok (m', p) => s.Computes m t m' p
  | .error m' => s.Stops m t m'.calls

theorem Renders.congr (h : s.Renders m t r) (hr : Executed.SameVisible r' r) : s.Renders m t r' := by
  match r, r' with
  | .ok (_, _), .ok (_, _) =>
    obtain ⟨hagree, rfl⟩ := hr
    exact Computes.congr h hagree
  | .error m₁, .error m₂ =>
    change s.Stops m t m₂.calls
    rw [← Agree.calls_eq hr]
    exact h

theorem Computes.renders (h : s.Computes m t m' p)
    (h' : ∀ m₁, t.Sound m₁ → Agree Visible m' m₁ → t.pending m₁ = p → t.Renders m₁ u r) :
    s.Renders m u r := by
  cases r with
  | ok y => exact h.trans h'
  | error m₂ => exact h.stops h'

/-- The base register of an access is stepped after it, whatever it comes to. -/
theorem Renders.stepBase (h : s.Renders m t r) (hn : rn < 32) (step : Option Int) :
    s.Renders m (t.stepBase rn step) (r.map fun x => (x.1.stepped rn step, x.2)) := by
  cases r with
  | ok y => exact Computes.stepBase h hn step
  | error m₂ => exact Stops.grows h (grows_stepBase ..)

/-! ## Calls and instructions that are not modelled -/

/-- What is known may be forgotten, and the comparison dropped. -/
theorem Computes.drop (h : s.Computes m t m' p) (hcode : u.code = t.code)
    (hheld : ∀ x ∈ u.held.bindings, x ∈ t.held.bindings) (hflags : u.flags? = none) :
    s.Computes m u m' none := by
  obtain ⟨is, m₁, ht, hrun, hsound, hagree, -⟩ := h
  refine ⟨is, m₁, hcode.trans ht, hrun, ⟨fun hx => hsound.general (hheld _ hx),
    fun hx => hsound.simple (hheld _ hx), fun hx => hsound.held (hheld _ hx), ?_⟩, hagree, ?_⟩
  · rw [hflags]
    exact nofun
  · rw [pending, hflags]
    rfl

theorem Sound.computes_call (h : s.Sound m) (o : LiftOptions) {c : Call} (hc : (Form.call c).Proper) :
    s.Computes m (s.emit (.call (c.operand o) (.register 0 8) (.register 0 8)))
      (m.called (c.operand o)) (s.pending m) := by
  refine h.computes_emit rfl (fun v hv => ?_) (fun v hv => .inl ?_) rfl
  · exact Option.some.inj hv ▸ visible_reg (n := 0) (by decide)
  · simp only [Insn.call, Insn.reads, List.mem_append] at hv
    rcases hv with (hv | hv) | hv
    · cases c with
      | direct target => exact List.mem_singleton.mp hv ▸ ⟨by simp, by simp⟩
      | indirect n => exact List.mem_singleton.mp hv ▸ visible_reg hc
    · exact List.mem_singleton.mp hv ▸ visible_reg (n := 0) (by decide)
    · cases hv

/-- **An instruction that is not modelled** makes its destination undefined, or drops the comparison. -/
theorem Sound.renders_skip (h : s.Sound m) (hs : s.skip o x = .ok t) : s.Renders m t
    (if (o.decoder.destination? x.raw).isSome then .error m else .ok (m, none)) := by
  unfold skip at hs
  split at hs
  · cases hs
  · cases hd : o.decoder.destination? x.raw with
    | none =>
      simp only [hd] at hs
      cases hs
      exact (Computes.refl h).drop rfl (fun _ hx => hx) rfl
    | some d =>
      simp only [hd] at hs
      cases hs
      refine ⟨[{ op := .und, d := .register d.1 d.2 }], m, 1, ?_, rfl, rfl⟩
      -- there is no comparison left to be saved
      have hclobber : ∀ v, (({ s with flags? := none } : Lifting).clobber v).code = s.code := by
        intro v
        rw [clobber, saveFlags, flags?_forget]
        exact code_forget { s with flags? := none } v
      exact congrArg (· ++ _) (hclobber (.reg d.1))

/-! ## Instructions -/

/-- **What lifting appends for an instruction does what the instruction does**, unless a copy to the
stack pointer is missed. -/
theorem Sound.renders_inst (h : s.Sound m) (hx : s.inst o x = .ok t) (hmiss : s.misses o x = false) :
    s.Renders m t (x.exec o m (s.pending m)) := by
  have hproper := Form.proper_decode x.raw x.addr o.decoder
  unfold inst at hx
  unfold misses at hmiss
  unfold Inst.exec
  cases hform : Form.decode o.decoder x.raw x.addr with
  | nothing =>
    rw [hform] at hx
    cases hx
    exact Computes.refl h
  | call c =>
    rw [hform] at hx hproper
    have hcall := h.computes_call o hproper
    have hkeep : ∀ u : Lifting, ∀ y ∈ u.held.forgetCallerSaved.bindings, y ∈ u.held.bindings :=
      fun _ _ hy => (List.mem_filter.mp hy).1
    cases c <;> cases hx <;> exact hcall.drop rfl (hkeep _) rfl
  | constant v rd size =>
    rw [hform] at hx hproper
    cases hx
    exact h.computes_constant v hproper.1 size
  | insert imm mask rd size =>
    simp only [hform] at hx
    rw [hform] at hproper
    by_cases h31 : rd = 31
    · rw [destination?, if_pos h31] at hx
      cases hx
      simp only [Machine.setReg, if_pos h31]
      exact Computes.refl h
    · rw [destination?, if_neg h31] at hx
      have hinsert := h.computes_insert o imm mask (show rd < 31 by have := hproper.1; omega) size
      simp only [Machine.setReg, if_neg h31]
      cases hcur : (s.lookup? o rd).filter Operand.isImm <;> rw [hcur] at hx hinsert <;> cases hx <;>
        exact hinsert
  | addSubImm sub flags imm rn rd size =>
    rw [hform] at hx hproper hmiss
    cases hx
    obtain ⟨hn, hd, -⟩ := hproper
    exact h.computes_addSubImm o sub flags imm hn hd size fun hcopy => by simpa [hcopy] using hmiss
  | addSubReg sub flags rm shift rn rd size =>
    simp only [hform] at hx
    rw [hform] at hproper
    obtain ⟨hm, hn, hd, -⟩ := hproper
    split at hx
    · next hlost =>
      cases hx
      obtain ⟨h31, hflags⟩ : rd = 31 ∧ flags = false := by simpa using hlost
      simp only [Machine.setReg, if_pos h31, hflags, Bool.false_eq_true, if_false]
      exact Computes.refl h
    · next hkept =>
      cases hx
      exact h.computes_addSubReg o sub flags hm shift hn hd size (by simpa using hkept)
  | logical op flags b rn rd size =>
    rw [hform] at hx hproper hmiss
    cases hx
    obtain ⟨hop, hb, hn, hd, -⟩ := hproper
    unfold logical
    dsimp only
    split
    · next hcopy =>
      obtain ⟨rfl, rfl⟩ : op = .or ∧ rn = 31 := by simpa using hcopy
      refine h.computes_copy o hb hd size ?_
      rintro rfl n hgen
      simpa [Form.stackCopy?, hgen] using hmiss
    · exact h.computes_bitwise o flags hop hb hn hd size
  | multiply sub rm ra rn rd size =>
    simp only [hform] at hx
    rw [hform] at hproper
    obtain ⟨hm, ha, hn, hd, -⟩ := hproper
    have hmul := h.computes_multiply o sub hm ha hn hd size
    split at hx
    · next hsub =>
      cases hx
      rwa [if_pos hsub] at hmul
    split at hx
    · next hsub h31 =>
      cases hx
      rwa [if_neg hsub, if_pos h31] at hmul
    · next hsub h31 =>
      cases hx
      rwa [if_neg hsub, if_neg h31] at hmul
  | bitfield op amount rn rd size =>
    rw [hform] at hx hproper
    cases hx
    obtain ⟨hop, hn, hd, -⟩ := hproper
    exact h.computes_bitfield o hop amount hn hd size
  | shiftBy op rm rn rd size =>
    rw [hform] at hx hproper
    cases hx
    obtain ⟨hop, hm, hn, hd, -⟩ := hproper
    exact h.computes_shiftBy o hop hm hn hd size
  | conditionSet equal rd size =>
    simp only [hform] at hx
    rw [hform] at hproper
    cases hc : s.flags? with
    | none =>
      rw [hc] at hx
      simp only [pending, hc]
      exact h.renders_skip hx
    | some c =>
      rw [hc] at hx
      cases hx
      have hset := h.computes_conditionSet hc equal hproper.1 size
      simp only [pending, hc] at hset ⊢
      exact hset
  | access tr rt rn off size step =>
    simp only [hform] at hx
    rw [hform] at hproper
    obtain ⟨ht, hn, hsize⟩ := hproper
    cases tr with
    | store =>
      cases hx
      have hstore := h.computes_store (h.isSource_read o ht (Encoding.width (size == 8))).1 hn off size
      rw [h.value_read] at hstore
      exact hstore.stepBase hn step
    | load =>
      cases hx
      have hfit : bitWidth size ≤ bitWidth (Encoding.width (size == 8)) := by
        rcases hsize with rfl | rfl | rfl | rfl <;> decide
      exact (h.computes_load hn off size ht hfit).stepBase hn step
    | other =>
      cases hskip : s.skip o x with
      | error c =>
        simp only [hskip] at hx
        cases hx
      | ok s₁ =>
        simp only [hskip] at hx
        cases hx
        exact (h.renders_skip hskip).stepBase hn step
  | pair isLoad rt rt2 rn off size step =>
    simp only [hform] at hx
    rw [hform] at hproper
    obtain ⟨ht, ht2, hn, -⟩ := hproper
    cases hx
    have hfirst := h.computes_transfer o isLoad hn off size ht
    refine Computes.stepBase (hfirst.trans fun m₁ hsound hagree hp => ?_) hn step
    exact hp ▸ (hsound.computes_transfer o isLoad hn (off + size) size ht2).congr
      (hagree.transferred hn _ _ ht2)
  | unmodelled =>
    rw [hform] at hx
    exact h.renders_skip hx

/-! ## What is known along a block -/

/-- A copy that is missed changes nothing. -/
theorem inst_of_misses (h : s.misses o x = true) : s.inst o x = .ok s := by
  have hmove : ∀ {a : Operand} (size : Int), a.kind ≠ .reg → s.move a 31 size = s :=
    fun size hk => by simp [move, hk, Reg.stack, destination?]
  obtain ⟨c, hc, hk⟩ : ∃ c, (Form.decode o.decoder x.raw x.addr).stackCopy? = some c ∧
      (s.read o c.1 c.2).kind ≠ .reg := by
    unfold misses at h
    cases hc : (Form.decode o.decoder x.raw x.addr).stackCopy? with
    | none =>
      rw [hc] at h
      cases h
    | some c =>
      rw [hc] at h
      exact ⟨c, rfl, by simpa using h⟩
  unfold Form.stackCopy? at hc
  unfold inst
  split at hc
  · next imm rn rd size hform =>
    split at hc
    · next hcopy =>
      obtain ⟨rfl, hne, hzero⟩ := hcopy
      cases hc
      have hread : s.readStack o rn size = s.read o rn size := if_neg hne
      have himm : (Operand.imm imm size).isImm = true := rfl
      have hvalue : (Operand.imm imm size).fields.value = 0 := hzero
      simp only [hform, addSub_eq, hread, himm, hvalue]
      simpa [Lifting.compared] using hmove size hk
    · cases hc
  · next flags b rn rd size hform =>
    split at hc
    · next hcopy =>
      obtain ⟨rfl, rfl⟩ := hcopy
      obtain ⟨n, hgen, rfl⟩ := Option.map_eq_some_iff.mp hc
      simp only [hform, logical, logicSource_of_general? hgen]
      simpa using hmove size hk
    · cases hc
  · cases hc

/-- **What is known stays true of the code that runs.** -/
theorem Sound.of_inst (h : s.Sound m) (hx : s.inst o x = .ok t) :
    ∃ is, t.code = s.code ++ is ∧ ∀ m', m.perform is = .done m' → t.Sound m' := by
  by_cases hmiss : s.misses o x = true
  · obtain rfl := Except.ok.inj ((inst_of_misses hmiss).symm.trans hx)
    exact ⟨[], by simp, fun m' hm' => Performed.done.inj hm' ▸ h⟩
  · have hrenders := h.renders_inst hx (by simpa using hmiss)
    cases hexec : x.exec o m (s.pending m) with
    | ok y =>
      rw [hexec] at hrenders
      obtain ⟨is, m₁, hcode, hrun, hsound, -⟩ := hrenders
      exact ⟨is, hcode, fun m' hm' => Performed.done.inj (hrun.symm.trans hm') ▸ hsound⟩
    | error e =>
      rw [hexec] at hrenders
      obtain ⟨is, m₁, n, hcode, hrun, -⟩ := hrenders
      exact ⟨is, hcode, fun m' hm' => nomatch hrun.symm.trans hm'⟩

/-- **What is known of a lifted block is true after its code.** -/
theorem Sound.of_insts {xs : List Inst} {is : List Insn} (h : s.Sound m) (hx : s.insts o xs = .ok t)
    (hcode : t.code = s.code ++ is) (hrun : m.perform is = .done m') : t.Sound m' := by
  induction xs generalizing s m is with
  | nil =>
    cases hx
    obtain rfl : is = [] := by simpa using hcode
    exact Performed.done.inj hrun ▸ h
  | cons x xs ih =>
    rw [insts] at hx
    cases hinst : s.inst o x with
    | error c =>
      rw [hinst] at hx
      cases hx
    | ok s₁ =>
      rw [hinst] at hx
      obtain ⟨is₁, hcode₁, hsound⟩ := h.of_inst hinst
      obtain ⟨js, hjs, -⟩ := grows_of_insts hx
      obtain rfl : is = is₁ ++ js := by
        rw [hjs, hcode₁, List.append_assoc] at hcode
        exact (List.append_cancel_left hcode).symm
      obtain ⟨m₁, hrun₁, hrun₂⟩ := Machine.perform_append_eq_done.mp hrun
      exact ih (hsound m₁ hrun₁) hx hjs hrun₂

end Lifting

end Deflatten

import Deflatten.Proofs.Arm64.Emission
import Deflatten.Proofs.Execution.Lockstep

/-!
# Proofs/Arm64/Meaning — what machine code does

`Inst.exec` says what an instruction does to a machine and to the comparison that the flags stand for,
free of the way registers are read while a block is lifted; `BasicBlock.exec` what a visit to a block
does.  Both read and write only what is `Visible`: everything but the two registers in which comparisons
are saved (`Inst.exec_congr`, `BasicBlock.exec_congr`).
-/

namespace Deflatten

/-! ## What instructions see -/

/-- **What an instruction can see**: all but the registers of saved comparisons. -/
def Visible (v : Var) : Prop := v ≠ .reg Reg.flagLeft ∧ v ≠ .reg Reg.flagRight

theorem visible_reg {n : Nat} (h : n < 32) : Visible (.reg n) := by
  simp only [Visible, Reg.flagLeft, Reg.flagRight, ne_eq, Var.reg.injEq]
  omega

theorem visible_stack (base off : Int) : Visible (.stack base off) := ⟨nofun, nofun⟩

theorem visible_memory {rn : Nat} (h : rn < 32) (off size : Int) :
    ∀ v ∈ (Lifting.memory rn off size).reads, Visible v := by
  intro v hv
  unfold Lifting.memory at hv
  split at hv
  · obtain rfl := List.mem_singleton.mp hv
    exact visible_stack _ _
  split at hv
  · obtain rfl := List.mem_singleton.mp hv
    exact visible_reg h
  · obtain rfl := List.mem_singleton.mp hv
    exact visible_reg h

/-- The sides of a comparison: their values and their sizes. -/
structure Sides where
  l : UInt64
  r : UInt64
  lSize : Int
  rSize : Int
deriving DecidableEq, Repr

/-- What a data operation makes of two values. -/
def Opcode.result (op : Opcode) (x y : UInt64) (size : Int) : UInt64 := (op.compute? x y size).getD 0

namespace Machine

/-! ## Registers and memory -/

/-- A register as a source; register 31 is zero. -/
def reg (m : Machine) (n : Nat) (size : Int) : UInt64 :=
  if n = 31 then 0 else truncate (m.read (.reg n)) size

/-- A register moved by a number of places. -/
def shifted (m : Machine) (n : Nat) (size : Int) : Shift → UInt64
  | .none => m.reg n size
  | .left k => Opcode.shl.result (m.reg n size) (truncate (UInt64.ofNat k) size) size
  | .right k => Opcode.shr.result (m.reg n size) (truncate (UInt64.ofNat k) size) size

/-- The second source of a logical instruction. -/
def logicValue (m : Machine) (size : Int) : LogicSource → UInt64
  | .imm v => truncate v size
  | .reg rm shift invert =>
    if invert then Opcode.bnot.result (m.shifted rm size shift) 0 size else m.shifted rm size shift

/-- The machine with a register set; what is written to register 31 is lost. -/
def setReg (m : Machine) (rd : Nat) (size : Int) (x : UInt64) : Machine :=
  if rd = 31 then m else m.assign (.register rd size) x

/-- The machine with a value stored off a base register. -/
def stored (m : Machine) (rn : Nat) (off size : Int) (x : UInt64) : Machine :=
  let a := Lifting.memory rn off size
  if a.kind = .stack then m.assign a x else m.store (m.value a) x

/-- The machine with a register loaded from memory off a base register. -/
def loaded (m : Machine) (rn : Nat) (off size : Int) (rt : Nat) (width : Int) : Machine :=
  let a := Lifting.memory rn off size
  m.setReg rt width (if a.kind = .stack then m.value a else m.load (m.value a))

/-- The machine with a register loaded or stored off a base register. -/
def transferred (m : Machine) (isLoad : Bool) (rn : Nat) (off size : Int) (r : Nat) : Machine :=
  if isLoad then m.loaded rn off size r size else m.stored rn off size (m.reg r size)

/-- The machine with a base register moved on. -/
def stepped (m : Machine) (rn : Nat) : Option Int → Machine
  | none => m
  | some n =>
    m.assign (.register rn 8) (truncate (m.read (.reg rn)) 8 + truncate (UInt64.ofInt n) 8)

/-- The machine after a call. -/
def called (m : Machine) (callee : Operand) : Machine :=
  let x0 := Operand.register 0 8
  (m.record ⟨(Insn.call callee x0 x0).calleeName, m.value x0⟩).assign x0 (m.value x0 + 1)

variable {m m' : Machine}

theorem Agree.reg_eq (h : Agree Visible m m') {n : Nat} (hn : n < 32) (size : Int) :
    m'.reg n size = m.reg n size := by
  unfold reg
  rw [h.read_eq _ (visible_reg hn)]

theorem Agree.shifted_eq (h : Agree Visible m m') {n : Nat} (hn : n < 32) (size : Int)
    (shift : Shift) : m'.shifted n size shift = m.shifted n size shift := by
  cases shift <;> simp only [shifted, h.reg_eq hn]

theorem Agree.logicValue_eq (h : Agree Visible m m') {b : LogicSource} (hb : b.Proper) (size : Int) :
    m'.logicValue size b = m.logicValue size b := by
  cases b with
  | imm v => rfl
  | reg rm shift invert => simp only [logicValue, h.shifted_eq hb]

theorem Agree.setReg (h : Agree Visible m m') (rd : Nat) (size : Int) (x : UInt64) :
    Agree Visible (m.setReg rd size x) (m'.setReg rd size x) := by
  unfold Machine.setReg
  split
  · exact h
  · exact h.assign _ _

theorem Agree.stored (h : Agree Visible m m') {rn : Nat} (hn : rn < 32) (off size : Int) (x : UInt64) :
    Agree Visible (m.stored rn off size x) (m'.stored rn off size x) := by
  simp only [Machine.stored, h.value_eq (visible_memory hn off size)]
  split
  · exact h.assign _ _
  · exact h.store _ _

theorem Agree.loaded (h : Agree Visible m m') {rn : Nat} (hn : rn < 32) (off size : Int) (rt : Nat)
    (width : Int) :
    Agree Visible (m.loaded rn off size rt width) (m'.loaded rn off size rt width) := by
  simp only [Machine.loaded, h.value_eq (visible_memory hn off size), h.load_eq]
  exact h.setReg _ _ _

theorem Agree.transferred (h : Agree Visible m m') {isLoad : Bool} {rn : Nat} (hn : rn < 32)
    (off size : Int) {r : Nat} (hr : r < 32) :
    Agree Visible (m.transferred isLoad rn off size r) (m'.transferred isLoad rn off size r) := by
  unfold Machine.transferred
  rw [h.reg_eq hr]
  split
  · exact h.loaded hn _ _ _ _
  · exact h.stored hn _ _ _

theorem Agree.stepped (h : Agree Visible m m') {rn : Nat} (hn : rn < 32) (step : Option Int) :
    Agree Visible (m.stepped rn step) (m'.stepped rn step) := by
  cases step with
  | none => exact h
  | some n =>
    simp only [Machine.stepped, h.read_eq _ (visible_reg hn)]
    exact h.assign _ _

theorem Agree.called (h : Agree Visible m m') (callee : Operand) :
    Agree Visible (m.called callee) (m'.called callee) := by
  have hx0 : m'.value (.register 0 8) = m.value (.register 0 8) :=
    h.value_eq fun v hv => List.mem_singleton.mp hv ▸ visible_reg (n := 0) (by decide)
  simp only [Machine.called, hx0]
  exact (h.record _).assign _ _

end Machine

/-! ## Instructions -/

/-- The general register that a logical source is, if it is one as it stands. -/
def LogicSource.general? : LogicSource → Option Nat
  | .reg rm .none false => if rm = 31 then none else some rm
  | _ => none

/-- The callee of a call. -/
def Call.operand (o : LiftOptions) : Call → Operand
  | .direct t => Lifting.callee o t
  | .indirect r => .register r 8

/-- The comparison that an addition or subtraction leaves behind: a sum is compared as the difference
from the negated summand. -/
def Sides.ofAddSub (sub : Bool) (x y : UInt64) (size : Int) : Sides :=
  ⟨x, if sub then y else Opcode.neg.result y 0 size, size, size⟩

/-- What instructions come to: a machine with the pending comparison, or the machine at which a register
gets a value that is not modelled. -/
abbrev Executed := Except Machine (Machine × Option Sides)

/-- **Results that differ in nothing visible.** -/
def Executed.SameVisible : Executed → Executed → Prop
  | .ok a, .ok b => Machine.Agree Visible a.1 b.1 ∧ b.2 = a.2
  | .error m, .error m' => Machine.Agree Visible m m'
  | _, _ => False

/-- **What an instruction does** to a machine and to the pending comparison. -/
def Inst.exec (o : LiftOptions) (i : Inst) (m : Machine) (p : Option Sides) : Executed :=
  let unmodelled := if (o.decoder.destination? i.raw).isSome then .error m else .ok (m, none)
  match Form.decode o.decoder i.raw i.addr with
  | .nothing => .ok (m, p)
  | .call c => .ok (m.called (c.operand o), none)
  | .constant v rd size => .ok (m.setReg rd size v, p)
  | .insert imm mask rd size =>
    .ok (m.setReg rd size (m.read (.reg rd) &&& ~~~mask ||| imm), p)
  | .addSubImm sub flags imm rn rd size =>
    let x := truncate (m.read (.reg rn)) size
    let y := truncate imm size
    -- register 31 is the stack pointer, unless the flags are set
    .ok (if flags && rd = 31 then m
        else m.assign (.register rd size) ((if sub then Opcode.sub else .add).result x y size),
      if flags then some (.ofAddSub sub x y size) else p)
  | .addSubReg sub flags rm shift rn rd size =>
    let x := m.reg rn size
    let y := m.shifted rm size shift
    .ok (m.setReg rd size ((if sub then Opcode.sub else .add).result x y size),
      if flags then some (.ofAddSub sub x y size) else p)
  | .logical op flags b rn rd size =>
    let x := m.reg rn size
    let y := m.logicValue size b
    if op = .or && rn = 31 then
      -- a register can be copied to the stack pointer
      .ok (if rd = 31 && b.general?.isSome then m.assign (.register Reg.stack size) y
        else m.setReg rd size y, p)
    else
      .ok (m.setReg rd size (op.result x y size),
        if flags then some ⟨Opcode.and.result x y size, 0, size, size⟩ else p)
  | .multiply sub rm ra rn rd size =>
    let product := Opcode.mul.result (m.reg rn size) (m.reg rm size) size
    .ok (m.setReg rd size
      (if sub then Opcode.sub.result (m.reg ra size) product size
        else if ra = 31 then product
        else Opcode.add.result (m.reg ra size) product size), p)
  | .bitfield op amount rn rd size =>
    .ok (m.setReg rd size (op.result (m.reg rn size) (truncate amount size) size), p)
  | .shiftBy op rm rn rd size =>
    let places := Opcode.and.result (m.reg rm size) (truncate (UInt64.ofInt (size * 8 - 1)) size) size
    .ok (m.setReg rd size (op.result (m.reg rn size) places size), p)
  | .conditionSet equal rd size =>
    match p with
    | none => unmodelled
    | some c =>
      .ok (m.setReg rd size ((if equal then Opcode.setz else .setnz).result c.l c.r size), p)
  | .access t rt rn off size step =>
    let width : Int := Encoding.width (size == 8)
    match t with
    | .store => .ok ((m.stored rn off size (m.reg rt width)).stepped rn step, p)
    | .load => .ok ((m.loaded rn off size rt width).stepped rn step, p)
    | .other => unmodelled.map fun x => (x.1.stepped rn step, x.2)
  | .pair isLoad rt rt2 rn off size step =>
    let first := m.transferred isLoad rn off size rt
    .ok ((first.transferred isLoad rn (off + size) size rt2).stepped rn step, p)
  | .unmodelled => unmodelled

/-- **An instruction does the same to machines that differ in nothing visible.** -/
theorem Inst.exec_congr (o : LiftOptions) (i : Inst) {m m' : Machine} (h : Machine.Agree Visible m m')
    (p : Option Sides) : Executed.SameVisible (i.exec o m p) (i.exec o m' p) := by
  have hunmodelled : Executed.SameVisible
      (if (o.decoder.destination? i.raw).isSome = true then .error m else .ok (m, none))
      (if (o.decoder.destination? i.raw).isSome = true then .error m' else .ok (m', none)) := by
    split
    · exact h
    · exact ⟨h, rfl⟩
  have hproper := Form.proper_decode i.raw i.addr o.decoder
  unfold exec
  cases hform : Form.decode o.decoder i.raw i.addr with
  | nothing => exact ⟨h, rfl⟩
  | call c => exact ⟨h.called _, rfl⟩
  | constant v rd size => exact ⟨h.setReg _ _ _, rfl⟩
  | insert imm mask rd size =>
    rw [hform] at hproper
    simp only [h.read_eq _ (visible_reg hproper.1)]
    exact ⟨h.setReg _ _ _, rfl⟩
  | addSubImm sub flags imm rn rd size =>
    rw [hform] at hproper
    simp only [h.read_eq _ (visible_reg hproper.1)]
    refine ⟨?_, rfl⟩
    dsimp only
    split
    · exact h
    · exact h.assign _ _
  | addSubReg sub flags rm shift rn rd size =>
    rw [hform] at hproper
    obtain ⟨hm, hn, -⟩ := hproper
    simp only [h.reg_eq hn, h.shifted_eq hm]
    exact ⟨h.setReg _ _ _, rfl⟩
  | logical op flags b rn rd size =>
    rw [hform] at hproper
    obtain ⟨-, hb, hn, -⟩ := hproper
    simp only [h.reg_eq hn, h.logicValue_eq hb]
    split
    · refine ⟨?_, rfl⟩
      dsimp only
      split
      · exact h.assign _ _
      · exact h.setReg _ _ _
    · exact ⟨h.setReg _ _ _, rfl⟩
  | multiply sub rm ra rn rd size =>
    rw [hform] at hproper
    obtain ⟨hm, ha, hn, -⟩ := hproper
    simp only [h.reg_eq hn, h.reg_eq hm, h.reg_eq ha]
    exact ⟨h.setReg _ _ _, rfl⟩
  | bitfield op amount rn rd size =>
    rw [hform] at hproper
    simp only [h.reg_eq hproper.2.1]
    exact ⟨h.setReg _ _ _, rfl⟩
  | shiftBy op rm rn rd size =>
    rw [hform] at hproper
    obtain ⟨-, hm, hn, -⟩ := hproper
    simp only [h.reg_eq hn, h.reg_eq hm]
    exact ⟨h.setReg _ _ _, rfl⟩
  | conditionSet equal rd size =>
    cases p with
    | none => exact hunmodelled
    | some c => exact ⟨h.setReg _ _ _, rfl⟩
  | access t rt rn off size step =>
    rw [hform] at hproper
    obtain ⟨ht, hn, -⟩ := hproper
    cases t with
    | store =>
      simp only [h.reg_eq ht]
      exact ⟨(h.stored hn _ _ _).stepped hn step, rfl⟩
    | load => exact ⟨(h.loaded hn _ _ _ _).stepped hn step, rfl⟩
    | other =>
      dsimp only
      split
      · exact h
      · exact ⟨h.stepped hn step, rfl⟩
  | pair isLoad rt rt2 rn off size step =>
    rw [hform] at hproper
    obtain ⟨ht, ht2, hn, -⟩ := hproper
    exact ⟨((h.transferred hn _ _ ht).transferred hn _ _ ht2).stepped hn step, rfl⟩
  | unmodelled => exact hunmodelled

/-- **What instructions in order do.** -/
def Inst.execAll (o : LiftOptions) : List Inst → Machine → Option Sides → Executed
  | [], m, p => .ok (m, p)
  | i :: is, m, p => (i.exec o m p).bind fun x => execAll o is x.1 x.2

theorem Inst.execAll_congr (o : LiftOptions) (is : List Inst) {m m' : Machine}
    (h : Machine.Agree Visible m m') (p : Option Sides) :
    Executed.SameVisible (execAll o is m p) (execAll o is m' p) := by
  induction is generalizing m m' p with
  | nil => exact ⟨h, rfl⟩
  | cons i is ih =>
    have hi := i.exec_congr o h p
    simp only [execAll]
    cases hx : i.exec o m p <;> cases hy : i.exec o m' p <;> rw [hx, hy] at hi
    · exact hi
    · exact hi.elim
    · exact hi.elim
    · next x y =>
      obtain ⟨hagree, hp⟩ := hi
      simp only [Except.bind, hp]
      exact ih hagree _

/-! ## Branches -/

/-- Whether a jump is taken on two values. -/
def Opcode.holds (op : Opcode) (x y : UInt64) (size : Int) : Bool := (op.test? x y size).getD false

namespace Branch

/-- The register that a branch tests has a number of five bits. -/
def Proper : Branch → Prop
  | onZero _ reg _ _ => reg < 32
  | onBit _ reg _ _ _ => reg < 32
  | _ => True

theorem proper_of_decode? {w : Encoding} {pc : UInt64} {b : Branch} (h : decode? w pc = some b) :
    b.Proper := by
  unfold decode? at h
  split at h
  · cases h
    trivial
  split at h
  · cases h
    trivial
  split at h
  · cases h
    split <;> trivial
  split at h
  · cases h
    exact Form.rd_lt w
  split at h
  · cases h
    exact Form.rd_lt w
  · cases h

/-- **Whether a conditional branch is taken.**  Flags that no comparison accounts for are tested in
a register of their own. -/
def holds (m : Machine) (p : Option Sides) : Branch → Bool
  | onFlags cond _ =>
    match cond.jump?, p with
    | some op, some c => op.holds c.l c.r (max c.lSize c.rSize)
    | op?, _ => (op?.getD .jnz).holds (truncate (m.read (.reg Reg.flags)) 4) 0 4
  | onZero zero reg wide _ =>
    let size := Encoding.width wide
    (if zero then Opcode.jz else .jnz).holds (m.reg reg size) 0 size
  | onBit clear reg wide bit _ =>
    let size := Encoding.width wide
    (if clear then Opcode.jz else .jnz).holds
      (Opcode.and.result (m.reg reg size) (truncate (UInt64.ofNat (2 ^ bit)) size) size) 0 size
  | _ => false

theorem holds_congr {b : Branch} (hb : b.Proper) {m m' : Machine} (h : Machine.Agree Visible m m')
    (p : Option Sides) : b.holds m' p = b.holds m p := by
  cases b with
  | ret => rfl
  | always t => rfl
  | onFlags cond t =>
    have hflags : Visible (.reg Reg.flags) := by
      simp [Visible, Reg.flags, Reg.flagLeft, Reg.flagRight]
    simp only [holds, h.read_eq _ hflags]
  | onZero zero reg wide t => simp only [holds, h.reg_eq (show reg < 32 from hb)]
  | onBit clear reg wide bit t => simp only [holds, h.reg_eq (show reg < 32 from hb)]

end Branch

/-! ## Blocks -/

namespace BasicBlock

/-- Control goes to a block, or falls off where there is none. -/
def toward (m : Machine) : Option Nat → Visit
  | some k => .goes m 0 k
  | none => .stops m 0 .fellOff

/-- **What a visit to a block does**, steps apart.  A branch out of the function is a call in front of
a return. -/
def exec (o : LiftOptions) (b : BasicBlock) (m : Machine) : Visit :=
  match Inst.execAll o b.body m none with
  | .error m => .stops m 0 .undefined
  | .ok (m, p) =>
    match b.branch?, b.taken? with
    | none, _ => toward m b.next?
    | some .ret, _ => .stops m 0 (.returned (m.reg 0 8))
    | some (.always _), some k => .goes m 0 k
    | some (.always target), none =>
      let m := m.called (Lifting.callee o target)
      .stops m 0 (.returned (m.reg 0 8))
    | some br, taken? => toward m (if br.holds m p then taken? else b.next?)

theorem proper_of_branch? {b : BasicBlock} {br : Branch} (h : b.branch? = some br) : br.Proper := by
  obtain ⟨x, -, hx⟩ := Option.bind_eq_some_iff.mp h
  exact Branch.proper_of_decode? hx

theorem related_toward {m m' : Machine} (h : Machine.Agree Visible m m') (k? : Option Nat) :
    (toward m k?).Related (Machine.Agree Visible) (toward m' k?) := by
  cases k? with
  | none => exact ⟨rfl, h.calls_eq⟩
  | some k => exact ⟨rfl, h⟩

/-- **A block does the same to machines that differ in nothing visible.** -/
theorem exec_congr (o : LiftOptions) (b : BasicBlock) {m m' : Machine}
    (h : Machine.Agree Visible m m') :
    (b.exec o m).Related (Machine.Agree Visible) (b.exec o m') := by
  have hbody := Inst.execAll_congr o b.body h none
  unfold exec
  cases hx : Inst.execAll o b.body m none <;> cases hy : Inst.execAll o b.body m' none <;>
    rw [hx, hy] at hbody
  · exact ⟨rfl, Machine.Agree.calls_eq hbody⟩
  · exact hbody.elim
  · exact hbody.elim
  · next x y =>
    obtain ⟨m₁, p⟩ := x
    obtain ⟨m₁', p'⟩ := y
    obtain ⟨hagree, rfl⟩ := hbody
    have hret : ∀ {m m' : Machine}, Machine.Agree Visible m m' →
        Visit.Related (Machine.Agree Visible) (.stops m 0 (.returned (m.reg 0 8)))
          (.stops m' 0 (.returned (m'.reg 0 8))) := fun h =>
      ⟨by rw [h.reg_eq (by decide)], h.calls_eq⟩
    cases hbr : b.branch? with
    | none => exact related_toward hagree _
    | some br =>
      have hholds := Branch.holds_congr (proper_of_branch? hbr) hagree p'
      cases br with
      | ret => exact hret hagree
      | always t =>
        cases b.taken? with
        | none => exact hret (hagree.called _)
        | some k => exact ⟨rfl, hagree⟩
      | onFlags | onZero | onBit =>
        dsimp only
        rw [hholds]
        exact related_toward hagree _

end BasicBlock

end Deflatten

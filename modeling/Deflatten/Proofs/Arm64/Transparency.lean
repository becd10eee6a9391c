import Deflatten.Proofs.Arm64.Translation
import Deflatten.Proofs.Arm64.WellFormed

/-!
# Proofs/Arm64/Transparency — reading registers as what they hold changes no behaviour

A visit to a lifted block does what the block of machine code does (`BasicBlock.related_visit_lift`), so
functions that are lifted with registers read as what they hold and as they are visit their blocks
alike (`MachineFunc.lockstep_of_lift`).  Hence they behave alike: if one ends, both end with the same
value, calls and error; otherwise both are cut by every limit, and each makes the calls of the other.

What is needed is that every copy to the stack pointer is made (`Lifting.copiesAll`).  One that is missed
shows.
-/

namespace Deflatten

open Encoding
open Machine (Agree)

/-- The same options, with registers read as they are. -/
def LiftOptions.plain (o : LiftOptions) : LiftOptions := { o with substitute := false }

variable {o : LiftOptions} {is : List Inst} {name : String} {b : BasicBlock} {blk : Block} {f g : Func}
  {m : Machine}

/-! ## Instructions in order -/

namespace Lifting

variable {s t : Lifting} {x : Inst} {xs : List Inst}

/-- **Every copy to the stack pointer is made** while instructions are lifted. -/
def copiesAll (o : LiftOptions) : Lifting → List Inst → Bool
  | _, [] => true
  | s, x :: xs =>
    !s.misses o x && match s.inst o x with
      | .ok t => copiesAll o t xs
      | .error _ => true

/-- **What lifting appends for instructions does what they do.** -/
theorem Sound.renders_insts (h : s.Sound m) (hxs : s.insts o xs = .ok t)
    (hcopies : s.copiesAll o xs = true) : s.Renders m t (Inst.execAll o xs m (s.pending m)) := by
  induction xs generalizing s m with
  | nil =>
    cases hxs
    exact Computes.refl h
  | cons x xs ih =>
    rw [insts] at hxs
    rw [copiesAll, Bool.and_eq_true, Bool.not_eq_true'] at hcopies
    cases hx : s.inst o x with
    | error c =>
      rw [hx] at hxs
      cases hxs
    | ok s₁ =>
      rw [hx] at hxs hcopies
      have hinst := h.renders_inst hx hcopies.1
      rw [Inst.execAll]
      cases hexec : x.exec o m (s.pending m) with
      | error m₁ =>
        rw [hexec] at hinst
        exact Stops.grows hinst (grows_of_insts hxs)
      | ok y =>
        rw [hexec] at hinst
        refine Computes.renders hinst fun m₁ hsound hagree hp => ?_
        exact (hp ▸ ih hsound hxs hcopies.2).congr (Inst.execAll_congr o xs hagree y.2)

/-- Registers that are read as they are can be copied to the stack pointer. -/
theorem misses_plain (s : Lifting) (x : Inst) : s.misses o.plain x = false := by
  have hread : ∀ {form : Form} {c : Nat × Int}, form.stackCopy? = some c →
      (s.read o.plain c.1 c.2).kind = .reg := by
    intro form c hc
    have hne : c.1 ≠ 31 := by
      unfold Form.stackCopy? at hc
      split at hc
      · split at hc
        · next hcond =>
          cases hc
          exact hcond.2.1
        · cases hc
      · split at hc
        · obtain ⟨n, hn, rfl⟩ := Option.map_eq_some_iff.mp hc
          unfold LogicSource.general? at hn
          split at hn
          · split at hn
            · cases hn
            · next hne => exact Option.some.inj hn ▸ hne
          · cases hn
        · cases hc
      · cases hc
    rw [read, if_neg hne]
    rfl
  unfold misses
  cases hc : (Form.decode o.plain.decoder x.raw x.addr).stackCopy? with
  | none => rfl
  | some c => simp [hread hc]

theorem copiesAll_plain (s : Lifting) (xs : List Inst) : s.copiesAll o.plain xs = true := by
  induction xs generalizing s with
  | nil => rfl
  | cons x xs ih =>
    rw [copiesAll, misses_plain]
    cases s.inst o.plain x with
    | ok t => exact ih t
    | error c => rfl

/-! ## Branches -/

/-- The jump for a condition is taken when the comparison it is about says so. -/
theorem holds_of_flagsJump {cond : Condition} {op : Opcode} {c : Compare}
    (h : s.flagsJump o cond = .ok (op, c)) (target : UInt64) :
    op.holds (m.value c.l) (m.value c.r) (max c.l.size c.r.size) =
      (Branch.onFlags cond target).holds m (s.pending m) := by
  unfold flagsJump at h
  split at h
  · next hcond hc =>
    cases h
    simp only [Branch.holds, hcond, pending, hc]
    rfl
  · next hno =>
    split at h
    · cases h
    · cases h
      rw [Machine.value_register, Machine.value_imm, truncate_zero]
      simp only [Branch.holds]
      split
      · next op' c' hcond hc =>
        obtain ⟨c, hflags, -⟩ := Option.map_eq_some_iff.mp hc
        exact (hno op' c hcond hflags).elim
      · rfl

/-- **The jump for a conditional branch is taken when the branch is.** -/
theorem Sound.test?_of_branch (h : s.Sound m) {br : Branch} (hbr : br.Proper)
    {taken? next? : Option Nat} {op : Opcode} {l r : Operand} {k : Int}
    (hjs : s.branch o taken? next? br = .ok [.branch op l r k]) (hop : op.isConditional = true) :
    op.test? (m.value l) (m.value r) (max l.size r.size) = some (br.holds m (s.pending m)) := by
  have hholds : op.test? (m.value l) (m.value r) (max l.size r.size) =
      some (op.holds (m.value l) (m.value r) (max l.size r.size)) := by
    obtain ⟨taken, ht⟩ := op.test?_of_isConditional hop (m.value l) (m.value r) (max l.size r.size)
    rw [Opcode.holds, ht, Option.getD_some]
  rw [hholds, Option.some.injEq]
  unfold branch at hjs
  dsimp only at hjs
  split at hjs
  · cases hjs
  · cases hjs
    cases hop
  · cases hjs
  · next cond _ k n =>
    cases hjump : s.flagsJump o cond with
    | error e =>
      rw [hjump] at hjs
      cases hjs
    | ok y =>
      rw [hjump] at hjs
      cases hjs
      exact holds_of_flagsJump hjump _
  · next zero reg wide _ k n =>
    cases hjs
    rw [h.value_read, Machine.value_imm, truncate_zero, (h.isSource_read o hbr _).2]
    simp only [Branch.holds]
    rw [show max (width wide) (Operand.imm 0 (width wide)).size = width wide
      from max_self _]
  · next clear reg wide bit _ k n =>
    cases hjs
    obtain ⟨ha, hasize⟩ := h.isSource_read o hbr (width wide)
    have hbit := Operand.isSource_imm (UInt64.ofNat (1 <<< bit)) (width wide)
    rw [Machine.value_derived (show Opcode.and.isData = true from rfl) ha.sized
      (Operand.fills_of rfl hbit.sized) m, h.value_read, Machine.value_imm, Machine.value_imm,
      truncate_zero, hasize]
    simp only [Branch.holds, ← Nat.one_shiftLeft]
    rw [show max (Operand.derived .and (s.read o reg (width wide))
      (.imm (UInt64.ofNat (1 <<< bit)) (width wide)) .empty).size
      (Operand.imm 0 (width wide)).size = width wide from
      (congrArg (max · _) hasize).trans (max_self _)]
  · cases hjs

end Lifting

/-! ## Blocks -/

namespace BasicBlock

theorem exec_of_conditional {m' : Machine} {p : Option Sides} {br : Branch}
    (hexec : Inst.execAll o b.body m none = .ok (m', p)) (hbr : b.branch? = some br)
    (hc : br.isConditional = true) :
    b.exec o m = toward m' (if br.holds m' p then b.taken? else b.next?) := by
  unfold exec
  rw [hexec, hbr]
  cases br with
  | ret => cases hc
  | always target => cases hc
  | onFlags | onZero | onBit => rfl

/-- Control goes on from a lifted block as the serial says. -/
theorem related_toward_serialOf {m' m₁ : Machine} (hagree : Agree Visible m' m₁) (k? : Option Nat)
    (hrun : m.perform blk.body = .done m₁) (hleave : blk.leave m₁ = .toward (serialOf k?)) :
    (toward m' k?).Related (Agree Visible) (blk.visit m) := by
  unfold Block.visit
  simp only [hrun, hleave]
  cases k? with
  | none => exact ⟨rfl, hagree.calls_eq⟩
  | some k =>
    rw [if_neg (show serialOf (some k) ≠ noBlock from ne_noBlock (Int.natCast_nonneg k))]
    exact ⟨rfl, hagree⟩

/-- A return from a lifted block is one of the block. -/
theorem related_returned {m' m₁ : Machine} (hagree : Agree Visible m' m₁) {is : List Insn}
    (hcode : blk.insns = is ++ [.ret (.register 0 8)]) (hrun : m.perform is = .done m₁) :
    Visit.Related (Agree Visible) (.stops m' 0 (.returned (m'.reg 0 8))) (blk.visit m) := by
  have hvisit := Block.visit_eq_returned.mpr ⟨(Block.body_of_append hcode rfl).symm ▸ hrun,
    Block.leave_ret (Block.terminator?_of_append hcode rfl) rfl m₁, rfl⟩
  rw [hvisit]
  refine ⟨congrArg Halt.returned ?_, hagree.calls_eq⟩
  rw [← hagree.reg_eq (by decide)]
  exact Machine.value_register ..

/-- The code of a block's instructions begins its body. -/
theorem exists_body_of_lift {s : Lifting} (hplain : Plain s.code)
    (hcode : (b.branch? = none ∧ blk.insns = s.code) ∨
      ∃ br js, b.branch? = some br ∧ s.branch o b.taken? b.next? br = .ok js ∧
        blk.insns = s.code ++ js) : ∃ js, blk.body = s.code ++ js := by
  rcases hcode with ⟨-, hcode⟩ | ⟨br, js, -, hjs, hcode⟩
  · exact ⟨[], by rw [Block.body_of_plain (hcode ▸ hplain), hcode, List.append_nil]⟩
  · rcases Lifting.cases_of_branch hjs with ⟨-, rfl⟩ | ⟨_, _, -, -, rfl⟩ | ⟨a, -, -, rfl⟩ |
      ⟨-, k, n, op, l, r, -, -, hop, rfl⟩
    · exact ⟨[], by rw [Block.body_of_append hcode rfl, List.append_nil]⟩
    · exact ⟨[], by rw [Block.body_of_append hcode rfl, List.append_nil]⟩
    · -- a call in front of a return belongs to the body
      exact ⟨_, Block.body_of_append (hcode.trans (List.append_assoc _ [_] [_]).symm) rfl⟩
    · have hends := Insn.endsBlock_branch hop l r k
      exact ⟨[], by rw [Block.body_of_append hcode hends, List.append_nil]⟩

/-- **A visit to a lifted block does what the block does**, unless a copy to the stack pointer is
missed. -/
theorem related_visit_lift (h : b.lift o = .ok blk)
    (hcopies : ({} : Lifting).copiesAll o b.body = true) (m : Machine) :
    (b.exec o m).Related (Agree Visible) (blk.visit m) := by
  obtain ⟨s, hs, -, hnext, hcode⟩ := of_lift h
  have hplain := Lifting.plain_of_insts hs
  have hrenders := (Lifting.sound_empty m).renders_insts hs hcopies
  rw [show ({} : Lifting).pending m = none from rfl] at hrenders
  cases hexec : Inst.execAll o b.body m none with
  | error m' =>
    rw [hexec] at hrenders
    obtain ⟨is, m₁, n, his, hrun, hcalls⟩ := hrenders
    rw [List.nil_append] at his
    obtain ⟨js, hbody⟩ := exists_body_of_lift hplain hcode
    have hvisit := Block.visit_eq_undefined.mpr
      (hbody ▸ Machine.perform_append_of_undefined js (his ▸ hrun))
    rw [exec, hexec, hvisit]
    exact ⟨rfl, hcalls⟩
  | ok y =>
    obtain ⟨m', p⟩ := y
    rw [hexec] at hrenders
    obtain ⟨is, m₁, his, hrun, hsound, hagree, rfl⟩ := hrenders
    rw [List.nil_append] at his
    rw [← his] at hrun
    rcases hcode with ⟨hbr, hcode⟩ | ⟨br, js, hbr, hjs, hcode⟩
    · have hbody := Block.body_of_plain (hcode ▸ hplain)
      have hleave := Block.leave_none (Block.terminator?_of_plain (hcode ▸ hplain)) m₁
      rw [exec, hexec, hbr]
      exact related_toward_serialOf hagree b.next? (by rw [hbody, hcode]; exact hrun) (hnext ▸ hleave)
    · have hproper := proper_of_branch? hbr
      rcases Lifting.cases_of_branch hjs with ⟨rfl, rfl⟩ | ⟨a, k, rfl, htaken, rfl⟩ |
        ⟨a, rfl, htaken, rfl⟩ | ⟨hc, k, n, op, l, r, htaken, hn, hop, rfl⟩
      · rw [exec, hexec, hbr]
        exact related_returned hagree hcode hrun
      · have hleave := Block.leave_goto (Block.terminator?_of_append hcode rfl) rfl m₁
        rw [exec, hexec, hbr, htaken]
        exact related_toward_serialOf hagree (some k) ((Block.body_of_append hcode rfl).symm ▸ hrun)
          hleave
      · have hcall : m.perform (s.code ++ [.call (Lifting.callee o a) (.register 0 8) (.register 0 8)]) =
            .done (m₁.called (Lifting.callee o a)) :=
          Machine.perform_append_eq_done.mpr
            ⟨m₁, hrun, Machine.perform_cons_eq_done.mpr ⟨_, rfl, rfl⟩⟩
        rw [exec, hexec, hbr, htaken]
        exact related_returned (hagree.called _) (hcode.trans (List.append_assoc _ [_] [_]).symm) hcall
      · have hends := Insn.endsBlock_branch hop l r k
        have htest := hsound.test?_of_branch hproper hjs hop
        rw [Branch.holds_congr hproper hagree] at htest
        have hleave := Block.leave_conditional (Block.terminator?_of_append hcode hends) htest
        rw [exec_of_conditional hexec hbr hc, htaken, hn]
        refine related_toward_serialOf hagree _ ((Block.body_of_append hcode hends).symm ▸ hrun) ?_
        rw [hleave, hnext, hn]
        split <;> rfl

end BasicBlock

/-! ## Functions -/

namespace MachineFunc

theorem exists_liftAll_of_lift (h : (ofInsts name is).lift o = .ok f) : is ≠ [] ∧ ∃ blks,
    BasicBlock.liftAll o (ofInsts name is).blocks = .ok blks ∧
      f = Func.rewired { name := name, body := some blks } := by
  obtain ⟨-, he⟩ | ⟨-, x, c, -, he⟩ | ⟨hne, blks, hblks, hf⟩ := lift_cases o name is
  · cases h.symm.trans he
  · cases h.symm.trans he
  · exact ⟨hne, blks, hblks, Except.ok.inj (h.symm.trans hf)⟩

theorem shaped_of_lift (h : (ofInsts name is).lift o = .ok f) : f.Shaped ∧ f.name = name := by
  obtain ⟨-, blks, hblks, rfl⟩ := exists_liftAll_of_lift h
  exact ⟨(shaped_of_liftAll hblks).1.wellFormed.toShaped, rfl⟩

/-- **The blocks of a lifted function are those of the machine code**, lifted one by one. -/
theorem exists_of_block?_lift (h : (ofInsts name is).lift o = .ok f) {s : Int}
    (hs : f.block? s = some blk) :
    ∃ (i : Nat) (b : BasicBlock) (blk₀ : Block), s = i ∧ (ofInsts name is).blocks[i]? = some b ∧
      b.lift o = .ok blk₀ ∧ blk.content = blk₀.content := by
  obtain ⟨-, blks, hblks, rfl⟩ := exists_liftAll_of_lift h
  obtain ⟨blk₀, hblk₀, hcontent, -⟩ := Func.exists_of_block?_rewired hs
  have hall := BasicBlock.forall₂_of_liftAll hblks
  obtain ⟨hlt, rfl⟩ := List.getElem?_eq_some_iff.mp (Func.block?_toNat hblk₀)
  have hlt' : s.toNat < (ofInsts name is).blocks.length := hall.length_eq ▸ hlt
  exact ⟨s.toNat, _, _, (Int.toNat_of_nonneg (Func.lt_of_block? hblk₀).1).symm,
    List.getElem?_eq_getElem hlt', hall.get hlt' hlt, hcontent⟩

theorem exists_block?_of_lift (h : (ofInsts name is).lift o = .ok f) {i : Nat}
    (hi : (ofInsts name is).blocks[i]? = some b) : ∃ blk, f.block? i = some blk := by
  obtain ⟨-, blks, hblks, rfl⟩ := exists_liftAll_of_lift h
  have hlt := (List.getElem?_eq_some_iff.mp hi).1
  rw [(BasicBlock.forall₂_of_liftAll hblks).length_eq] at hlt
  refine Func.exists_block? (Int.natCast_nonneg i) ?_
  rw [Func.length_blocks_rewired]
  exact Int.ofNat_lt.mpr hlt

/-- **Lifted functions come to no circle of empty blocks**: an empty block falls through to a later
one. -/
theorem not_circles_of_lift (h : (ofInsts name is).lift o = .ok f) (s : Int) : ¬ f.Circles s := by
  have hlater : ∀ {k : Nat} {s t : Int}, f.Slides t k s → s + k ≤ t := by
    intro k s t hsl
    induction hsl with
    | here => simp
    | @goes s k blk hb he hn _ ih =>
      obtain ⟨i, b, blk₀, rfl, hi, hlift, hcontent⟩ := exists_of_block?_lift h hb
      obtain ⟨-, -, -, hnext, -⟩ := BasicBlock.of_lift hlift
      have hnext : blk.next = BasicBlock.serialOf b.next? := (Block.next_congr hcontent).trans hnext
      cases hj : b.next? with
      | none => exact absurd (hnext.trans (by rw [hj]; rfl)) hn
      | some j =>
        have hlt := (piece_of_getElem? hi).lt_next? hj
        rw [hnext, hj, show BasicBlock.serialOf (some j) = (j : Int) from rfl] at ih
        omega
  rintro ⟨j, hsl⟩
  have := hlater hsl
  omega

/-- What a block does is told without the way registers are read. -/
theorem exec_plain (b : BasicBlock) (m : Machine) : b.exec o.plain m = b.exec o m := by
  have hall : ∀ (xs : List Inst) (m : Machine) (p : Option Sides),
      Inst.execAll o.plain xs m p = Inst.execAll o xs m p := by
    intro xs
    induction xs with
    | nil => exact fun _ _ => rfl
    | cons x xs ih =>
      intro m p
      rw [Inst.execAll, Inst.execAll]
      simp only [ih]
      rfl
  unfold BasicBlock.exec
  rw [hall]
  rfl

/-- **Functions lifted with registers read as what they hold and as they are go in lockstep.** -/
theorem lockstep_of_lift (hf : (ofInsts name is).lift o = .ok f)
    (hg : (ofInsts name is).lift o.plain = .ok g)
    (hcopies : ∀ b ∈ (ofInsts name is).blocks, ({} : Lifting).copiesAll o b.body = true) :
    Func.Lockstep (Agree Visible) f g where
  name_eq := (shaped_of_lift hg).2.trans (shaped_of_lift hf).2.symm
  calls_eq := Agree.calls_eq
  visit := by
    intro s blk hblk
    obtain ⟨i, b, blk₀, rfl, hi, hlift, hcontent⟩ := exists_of_block?_lift hf hblk
    obtain ⟨blk', hblk'⟩ := exists_block?_of_lift hg hi
    obtain ⟨i', b', blk₀', hi', hb', hlift', hcontent'⟩ := exists_of_block?_lift hg hblk'
    obtain rfl := Int.ofNat.inj hi'
    obtain rfl := Option.mem_unique hi hb'
    refine ⟨blk', hblk', fun {m m'} hagree => ?_⟩
    rw [Block.visit_of_content hcontent, Block.visit_of_content hcontent']
    have htracked := BasicBlock.related_visit_lift hlift (hcopies b (List.mem_of_getElem? hi)) m
    have hplain := BasicBlock.related_visit_lift hlift' (Lifting.copiesAll_plain {} b.body) m'
    rw [exec_plain] at hplain
    refine (htracked.symm fun h => h.symm).trans (fun h h' => h.trans h') ?_
    exact (b.exec_congr o hagree).trans (fun h h' => h.trans h') hplain

/-- **Reading registers as what they hold changes no behaviour**, where every copy to the stack pointer
is made.  Either both runs end alike under every limit that is large enough, or every limit cuts both and
each makes the calls of the other. -/
theorem runs_alike_plain (o : LiftOptions) (name : String) (is : List Inst) {f g : Func}
    (hf : (ofInsts name is).lift o = .ok f) (hg : (ofInsts name is).lift o.plain = .ok g)
    (hcopies : ∀ b ∈ (ofInsts name is).blocks, ({} : Lifting).copiesAll o b.body = true)
    (inputs : Env) :
    f.EndAlike g inputs ∨ (f.Trails g inputs ∧ g.Trails f inputs) := by
  obtain ⟨hne, -⟩ := exists_liftAll_of_lift hf
  obtain ⟨b, bs, hblocks⟩ := List.exists_cons_of_ne_nil
    fun hnil : (ofInsts name is).blocks = [] => hne (blocks_eq_nil_iff.mp hnil)
  obtain ⟨blk, hblk⟩ := exists_block?_of_lift hf (i := 0) (by rw [hblocks]; rfl)
  exact (lockstep_of_lift hf hg hcopies).endAlike_or_trails (shaped_of_lift hf).1 (shaped_of_lift hg).1
    (not_circles_of_lift hf) (not_circles_of_lift hg) hblk (.refl _ _)

/-- Words one after the other. -/
def ofWords (base : UInt64) (ws : List Encoding) : List Inst :=
  ws.zipIdx.map fun w => ⟨base + UInt64.ofNat (4 * w.2), w.1, "", ""⟩

/-- Compares a loaded slot with a constant, overwrites the slot, and then branches on the comparison. -/
def comparesSlot : List Inst := ofWords 0x1000
  [0xD28000A1, 0xF90007E1, 0xF94007E2, 0xF100145F, 0xD28000E3, 0xF90007E3, 0x54000040, 0xD2800020,
    0xD65F03C0]

theorem runs_alike_comparesSlot : ∃ f g, (ofInsts "f" comparesSlot).lift {} = .ok f ∧
    (ofInsts "f" comparesSlot).lift (LiftOptions.plain {}) = .ok g ∧ f ≠ g ∧
    (∀ b ∈ (ofInsts "f" comparesSlot).blocks, ({} : Lifting).copiesAll {} b.body = true) ∧
    ∀ inputs, f.EndAlike g inputs ∨ (f.Trails g inputs ∧ g.Trails f inputs) := by
  have hcopies : ∀ b ∈ (ofInsts "f" comparesSlot).blocks,
      ({} : Lifting).copiesAll {} b.body = true := by decide +kernel
  have hne : (ofInsts "f" comparesSlot).lift {} ≠
      (ofInsts "f" comparesSlot).lift (LiftOptions.plain {}) := by decide +kernel
  have hok : ((ofInsts "f" comparesSlot).lift {}).isOk = true ∧
      ((ofInsts "f" comparesSlot).lift (LiftOptions.plain {})).isOk = true := by decide +kernel
  cases hf : (ofInsts "f" comparesSlot).lift {} with
  | error e =>
    rw [hf] at hok
    cases hok.1
  | ok f =>
    cases hg : (ofInsts "f" comparesSlot).lift (LiftOptions.plain {}) with
    | error e =>
      rw [hg] at hok
      cases hok.2
    | ok g =>
      rw [hf, hg] at hne
      exact ⟨f, g, rfl, rfl, fun heq => hne (heq ▸ rfl), hcopies,
        runs_alike_plain {} "f" comparesSlot hf hg hcopies⟩

/-- A function of one block. -/
def ofCode (code : List Insn) : Func :=
  { name := "f", body := some [{ serial := 0, code := some code, next := noBlock }] }

theorem run_ofCode {code : List Insn} {inputs : Env} {m : Machine} {n : Nat} {v : UInt64}
    (hok : (ofCode code).verify = .ok ())
    (hv : Block.visit { serial := 0, code := some code, next := noBlock } { vars := inputs } =
      .stops m n (.returned v))
    {limit : Int} (hn : n ≤ limit) :
    ∃ e, (ofCode code).run inputs limit = .ok e ∧ e.error? = none ∧ e.trace.ret = v := by
  have hhalts : (ofCode code).HaltsIn 1 { vars := inputs } 0 n (.returned v) m.calls := .stops rfl hv
  obtain ⟨e, he, ho, -, -⟩ := Func.run_of_endsWithin (Func.verify_eq_ok_iff.mp hok).toShaped.endsLast
    hhalts.endsWithin (show n ≤ limit.toNat by omega)
  exact ⟨e, he, Ending.halt?_eq_returned.mp ho⟩

/-- Copies a constant to a register, from there to the stack pointer, and from there to what is
returned. -/
def setsStack : List Inst := ofWords 0x1000 [0xD28000A1, 0x9100003F, 0x910003E0, 0xD65F03C0]

/-- **A copy to the stack pointer that is missed shows**: the constant is not returned. -/
theorem runs_apart_plain : ∃ f g, (ofInsts "f" setsStack).lift {} = .ok f ∧
    (ofInsts "f" setsStack).lift (LiftOptions.plain {}) = .ok g ∧
    ∀ limit : Int, 4 ≤ limit →
      (∃ e, f.run {} limit = .ok e ∧ e.error? = none ∧ e.trace.ret = 0) ∧
      ∃ e, g.run {} limit = .ok e ∧ e.error? = none ∧ e.trace.ret = 5 := by
  let x0 := Operand.register 0 8
  let x1 := Operand.register 1 8
  let sp := Operand.register 31 8
  refine ⟨ofCode [.mov (.imm 5 8) x1, .mov sp x0, .ret x0],
    ofCode [.mov (.imm 5 8) x1, .mov x1 sp, .mov sp x0, .ret x0], by decide +kernel, by decide +kernel,
    fun limit hlimit => ⟨?_, ?_⟩⟩
  · exact run_ofCode (n := 3) rfl rfl (by omega)
  · exact run_ofCode (n := 4) rfl rfl (by omega)

end MachineFunc

end Deflatten

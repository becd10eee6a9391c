import Mathlib.Data.List.Forall2
import Deflatten.Proofs.Arm64.Actions
import Deflatten.Proofs.Arm64.Blocks
import Deflatten.Proofs.Editing.Shape

/-!
# Proofs/Arm64/WellFormed — a lifted function has the blocks and edges of the machine code

A block is lifted to plain code and a terminator for its branch, so its exits are the blocks that the
branch and the fall-through lead to (`BasicBlock.spec_of_lift`).  These are blocks of the function, hence
its edges can always be built and the result is in order.

What cannot be lifted is code without instructions and, unless everything has to be modelled, only
a conditional branch with an open end.
-/

namespace Deflatten

variable {o : LiftOptions} {is : List Inst} {name : String} {b : BasicBlock} {blk : Block}
  {i n : Nat}

/-! ## One block -/

/-- **The microcode of a branch**, by the kind of the branch. -/
theorem Lifting.cases_of_branch {s : Lifting} {taken? next? : Option Nat} {t : Branch}
    {js : List Insn} (h : s.branch o taken? next? t = .ok js) :
    (t = .ret ∧ js = [.ret (.register 0 8)]) ∨
    (∃ a k, t = .always a ∧ taken? = some k ∧ js = [.goto k]) ∨
    (∃ a, t = .always a ∧ taken? = none ∧
      js = [.call (callee o a) (.register 0 8) (.register 0 8), .ret (.register 0 8)]) ∨
    (t.isConditional = true ∧ ∃ k n op l r, taken? = some k ∧ next? = some n ∧
      op.isConditional = true ∧ js = [.branch op l r k]) := by
  unfold branch at h
  dsimp only at h
  split at h
  · cases h
    exact .inl ⟨rfl, rfl⟩
  · cases h
    exact .inr (.inl ⟨_, _, rfl, rfl, rfl⟩)
  · cases h
    exact .inr (.inr (.inl ⟨_, rfl, rfl, rfl⟩))
  · next cond _ k n =>
    refine .inr (.inr (.inr ⟨rfl, ?_⟩))
    cases hjump : s.flagsJump o cond with
    | error e =>
      rw [hjump] at h
      cases h
    | ok x =>
      rw [hjump] at h
      cases h
      refine ⟨k, n, x.1, x.2.l, x.2.r, rfl, rfl, ?_, rfl⟩
      unfold flagsJump at hjump
      split at hjump
      · next op c hop _ =>
        cases hjump
        cases cond <;> cases hop <;> rfl
      · split at hjump
        · cases hjump
        · cases hjump
          cases cond <;> rfl
  · next zero _ _ _ k n =>
    cases h
    refine .inr (.inr (.inr ⟨rfl, k, n, _, _, _, rfl, rfl, ?_, rfl⟩))
    cases zero <;> rfl
  · next clear _ _ _ _ k n =>
    cases h
    refine .inr (.inr (.inr ⟨rfl, k, n, _, _, _, rfl, rfl, ?_, rfl⟩))
    cases clear <;> rfl
  · cases h

theorem Insn.endsBlock_branch {op : Opcode} (hop : op.isConditional = true) (l r : Operand) (k : Int) :
    (Insn.branch op l r k).op.endsBlock = true := by
  simp [Insn.branch, Opcode.endsBlock, Opcode.isJump, hop]

/-- A block of plain code and a terminator fits if its jump can be taken. -/
theorem Block.Fits.of_append {js : List Insn} {t : Insn} (hcode : blk.insns = js ++ [t])
    (ht : t.op.endsBlock = true) (hplain : Plain js) (haims : t.op ≠ .ret → t.d.kind = .block)
    (hfalls : t.op.isConditional = true → blk.next ≠ noBlock)
    (hinside : ∀ s ∈ blk.exits, 0 ≤ s ∧ s < n) : blk.Fits n where
  plain := by rwa [Block.body_of_append hcode ht]
  aims := fun t' ht' => Option.mem_unique (Block.terminator?_of_append hcode ht) ht' ▸ haims
  falls := fun t' ht' =>
    Option.mem_unique (Block.terminator?_of_append hcode ht) ht' ▸ hfalls
  inside := hinside

namespace BasicBlock

/-- The serial of a block that is there or not. -/
def serialOf (k? : Option Nat) : Int := k?.elim noBlock Int.ofNat

/-- **A lifted block**: plain code, and the microcode of the branch if there is one. -/
theorem of_lift (h : b.lift o = .ok blk) : ∃ s, Lifting.insts o {} b.body = .ok s ∧
    blk.serial = b.id ∧ blk.next = serialOf b.next? ∧
    ((b.branch? = none ∧ blk.insns = s.code) ∨
      ∃ t js, b.branch? = some t ∧ s.branch o b.taken? b.next? t = .ok js ∧
        blk.insns = s.code ++ js) := by
  have hinsns : ∀ js : List Insn, (if js.isEmpty then none else some js : Option (List Insn)).getD []
      = js := by
    intro js
    cases js <;> rfl
  unfold lift at h
  cases hs : Lifting.insts o {} b.body with
  | error e =>
    rw [hs] at h
    cases h
  | ok s =>
    rw [hs] at h
    refine ⟨s, rfl, ?_⟩
    cases hb : b.branch? with
    | none =>
      simp only [hb] at h
      cases h
      exact ⟨rfl, rfl, .inl ⟨rfl, hinsns s.code⟩⟩
    | some t =>
      obtain ⟨last, hlast, -⟩ := Option.bind_eq_some_iff.mp hb
      cases hjs : s.branch o b.taken? b.next? t with
      | error c =>
        simp only [hb, hlast, hjs, bind, Except.bind] at h
        cases h
      | ok js =>
        simp only [hb, hlast, hjs, bind, Except.bind] at h
        cases h
        exact ⟨rfl, rfl, .inr ⟨t, js, rfl, hjs, hinsns _⟩⟩

/-- A branch that is not conditional lets nothing fall through. -/
theorem next?_eq_none_of_not_conditional (hp : MachineFunc.Piece is i b) {t : Branch}
    (hb : b.branch? = some t) (hc : t.isConditional = false) : b.next? = none := by
  rw [hp.next_eq, hb, Option.map_some, hc]
  rfl

theorem taken?_eq_none_of_branch? (hp : MachineFunc.Piece is i b)
    (hb : b.branch? = none ∨ b.branch? = some .ret) : b.taken? = none := by
  rw [hp.taken_eq]
  rcases hb with hb | hb <;> rw [hb] <;> rfl

/-- **Where control leads from a block**: to the target of its branch and to its fall-through. -/
def GoesTo (b : BasicBlock) (x : Int) : Prop :=
  ∃ k : Nat, x = k ∧ (b.taken? = some k ∨ b.next? = some k)

theorem goesTo_inside (hp : MachineFunc.Piece is i b) {x : Int} (h : b.GoesTo x) :
    0 ≤ x ∧ x < (MachineFunc.leaders is).length := by
  obtain ⟨k, rfl, hk⟩ := h
  have := hk.elim hp.taken?_lt hp.next?_lt
  omega

/-- **A lifted block can stand in the function**, and its exits are where control leads. -/
theorem spec_of_lift (hp : MachineFunc.Piece is i b) (h : b.lift o = .ok blk) :
    blk.serial = i ∧ blk.Fits (MachineFunc.leaders is).length ∧ ∀ x, x ∈ blk.exits ↔ b.GoesTo x := by
  obtain ⟨s, hs, hserial, hnext, hcode⟩ := of_lift h
  have hplain := Lifting.plain_of_insts hs
  refine ⟨by rw [hserial, hp.id_eq], ?_⟩
  suffices hspec : (∀ x, x ∈ blk.exits ↔ b.GoesTo x) ∧
      ((∀ x ∈ blk.exits, 0 ≤ x ∧ x < (MachineFunc.leaders is).length) →
        blk.Fits (MachineFunc.leaders is).length) from
    ⟨hspec.2 fun x hx => goesTo_inside hp ((hspec.1 x).mp hx), hspec.1⟩
  rcases hcode with ⟨hb, hcode⟩ | ⟨t, js, hb, hjs, hcode⟩
  · have hterm : blk.terminator? = none := Block.terminator?_of_plain (hcode ▸ hplain)
    refine ⟨fun x => ?_, fun hinside => ⟨?_, by simp [hterm], by simp [hterm], hinside⟩⟩
    · rw [Block.exits_none hterm, hnext, GoesTo, taken?_eq_none_of_branch? hp (.inl hb)]
      cases hn : b.next? with
      | none => simp [serialOf]
      | some k => simp [serialOf, noBlock]
    · rw [Block.body_of_plain (hcode ▸ hplain), hcode]
      exact hplain
  · rcases Lifting.cases_of_branch hjs with ⟨rfl, rfl⟩ | ⟨a, k, rfl, htaken, rfl⟩ |
      ⟨a, rfl, htaken, rfl⟩ | ⟨hc, k, n, op, l, r, htaken, hn, hop, rfl⟩
    · refine ⟨fun x => ?_, .of_append hcode rfl hplain (fun h => absurd rfl h) nofun⟩
      rw [Block.exits_ret (Block.terminator?_of_append hcode rfl) rfl, GoesTo,
        taken?_eq_none_of_branch? hp (.inr hb), next?_eq_none_of_not_conditional hp hb rfl]
      simp
    · refine ⟨fun x => ?_, .of_append hcode rfl hplain (fun _ => rfl) nofun⟩
      rw [Block.exits_goto (Block.terminator?_of_append hcode rfl) rfl, GoesTo, htaken,
        next?_eq_none_of_not_conditional hp hb rfl]
      simp [Insn.goto, Operand.target, Operand.block, Operand.fields]
    · -- a branch out of the function is a call in front of a return
      have hcall : Plain [Insn.call (Lifting.callee o a) (.register 0 8) (.register 0 8)] := by
        intro j hj
        rw [List.mem_singleton.mp hj]
        rfl
      have hcode' : blk.insns = (s.code ++
          [.call (Lifting.callee o a) (.register 0 8) (.register 0 8)]) ++ [.ret (.register 0 8)] := by
        rw [hcode, List.append_assoc]
        rfl
      refine ⟨fun x => ?_, .of_append hcode' rfl (hplain.append hcall) (fun h => absurd rfl h) nofun⟩
      rw [Block.exits_ret (Block.terminator?_of_append hcode' rfl) rfl, GoesTo, htaken,
        next?_eq_none_of_not_conditional hp hb rfl]
      simp
    · have hends := Insn.endsBlock_branch hop l r k
      refine ⟨fun x => ?_, .of_append hcode hends hplain (fun _ => rfl) fun _ => ?_⟩
      · rw [Block.mem_exits_conditional (Block.terminator?_of_append hcode hends) hop, hnext, GoesTo,
          htaken, hn]
        constructor
        · rintro (rfl | rfl)
          · exact ⟨k, rfl, .inl rfl⟩
          · exact ⟨n, rfl, .inr rfl⟩
        · rintro ⟨x, rfl, hx | hx⟩
          · exact .inl (congrArg Int.ofNat (Option.some.inj hx).symm)
          · exact .inr (congrArg Int.ofNat (Option.some.inj hx).symm)
      · rw [hnext, hn]
        simp [serialOf, noBlock]

/-! ## Lists of blocks -/

theorem forall₂_of_liftAll {bs : List BasicBlock} {blks : List Block}
    (h : liftAll o bs = .ok blks) : List.Forall₂ (fun b blk => b.lift o = .ok blk) bs blks := by
  induction bs generalizing blks with
  | nil =>
    cases h
    exact .nil
  | cons b bs ih =>
    rw [liftAll] at h
    cases hb : b.lift o with
    | error e =>
      rw [hb] at h
      cases h
    | ok blk =>
      cases hbs : liftAll o bs with
      | error e =>
        rw [hb, hbs] at h
        cases h
      | ok rest =>
        rw [hb, hbs] at h
        cases h
        exact .cons hb (ih hbs)

/-- Lifting blocks fails exactly if one of them cannot be lifted. -/
theorem exists_error_liftAll_iff {bs : List BasicBlock} :
    (∃ e, liftAll o bs = .error e) ↔ ∃ b ∈ bs, ∃ e, b.lift o = .error e := by
  induction bs with
  | nil => simp [liftAll]
  | cons b bs ih =>
    simp only [List.exists_mem_cons_iff, ← ih, liftAll]
    cases hb : b.lift o with
    | error e => simp [bind, Except.bind]
    | ok blk =>
      cases hbs : liftAll o bs with
      | error e => simp [bind, Except.bind]
      | ok rest => simp [bind, Except.bind, pure, Except.pure]

end BasicBlock

/-! ## Failures -/

/-- Where not everything has to be modelled, every instruction can be lifted. -/
theorem Lifting.exists_inst (h : o.strict = false) (s : Lifting) (x : Inst) :
    ∃ s', s.inst o x = .ok s' := by
  have hskip : ∃ bs, skipLog o x = .ok bs := by
    unfold skipLog
    rw [if_neg (by simp [h])]
    split <;> exact ⟨_, rfl⟩
  rw [inst_eq_log]
  obtain ⟨as, -, hlog | ⟨hlog, -⟩⟩ := s.exists_logged o x
  · rw [hlog]
    exact ⟨_, rfl⟩
  · obtain ⟨bs, hbs⟩ := hskip
    rw [hlog, hbs]
    exact ⟨_, rfl⟩

theorem Lifting.exists_insts (h : o.strict = false) (xs : List Inst) :
    ∀ s : Lifting, ∃ s', s.insts o xs = .ok s' := by
  induction xs with
  | nil => exact fun s => ⟨s, rfl⟩
  | cons x xs ih =>
    intro s
    obtain ⟨s₁, hs₁⟩ := s.exists_inst h x
    rw [insts, hs₁]
    exact ih s₁

/-- A branch then fails exactly if it is conditional and lacks a target or a fall-through. -/
theorem Lifting.exists_error_branch_iff (h : o.strict = false) {s : Lifting} {taken? next? : Option Nat}
    {t : Branch} : (∃ e, s.branch o taken? next? t = .error e) ↔
      t.isConditional = true ∧ (taken? = none ∨ next? = none) := by
  have hjump : ∀ cond, ∃ x, s.flagsJump o cond = .ok x := by
    intro cond
    unfold flagsJump
    split
    · exact ⟨_, rfl⟩
    · rw [if_neg (by simp [h])]
      exact ⟨_, rfl⟩
  cases t with
  | ret => simp [branch, Branch.isConditional]
  | always a => cases taken? <;> simp [branch, Branch.isConditional]
  | onFlags cond a =>
    obtain ⟨x, hx⟩ := hjump cond
    cases taken? <;> cases next? <;>
      simp [branch, Branch.isConditional, hx, bind, Except.bind, pure, Except.pure]
  | onZero zero reg wide a => cases taken? <;> cases next? <;> simp [branch, Branch.isConditional]
  | onBit clear reg wide bit a =>
    cases taken? <;> cases next? <;> simp [branch, Branch.isConditional]

/-- **A block then fails exactly if it has an open end.** -/
theorem BasicBlock.exists_error_lift_iff (h : o.strict = false) :
    (∃ e, b.lift o = .error e) ↔ b.Open := by
  obtain ⟨s, hs⟩ := Lifting.exists_insts h b.body {}
  unfold lift Open
  rw [hs]
  cases hb : b.branch? with
  | none => simp [bind, Except.bind, pure, Except.pure]
  | some t =>
    obtain ⟨last, hlast, -⟩ := Option.bind_eq_some_iff.mp hb
    simp only [hlast, Option.some.injEq, exists_eq_left', ← Lifting.exists_error_branch_iff h (s := s)]
    cases hjs : s.branch o b.taken? b.next? t <;> simp [bind, Except.bind, pure, Except.pure, hjs]

/-! ## Functions -/

namespace MachineFunc

/-- The lifted blocks stand in the function and lead where the machine code does. -/
theorem shaped_of_liftAll {blks : List Block}
    (h : BasicBlock.liftAll o (ofInsts name is).blocks = .ok blks) :
    Func.Shaped { name := name, body := some blks } ∧
      List.Forall₂ (fun (blk : Block) (b : BasicBlock) => ∀ x, x ∈ blk.exits ↔ b.GoesTo x) blks
        (ofInsts name is).blocks := by
  have hall := BasicBlock.forall₂_of_liftAll h
  have hlen : blks.length = (leaders is).length := by
    rw [← hall.length_eq, length_blocks_ofInsts]
  have hspec : ∀ (k : Nat) (blk : Block), blks[k]? = some blk → ∃ b,
      (ofInsts name is).blocks[k]? = some b ∧ blk.serial = k ∧ blk.Fits (leaders is).length ∧
        ∀ x, x ∈ blk.exits ↔ b.GoesTo x := by
    intro k blk hk
    obtain ⟨hlt, rfl⟩ := List.getElem?_eq_some_iff.mp hk
    have hb := List.getElem?_eq_getElem (hall.length_eq ▸ hlt)
    exact ⟨_, hb, BasicBlock.spec_of_lift (piece_of_getElem? hb) (hall.get _ _)⟩
  refine ⟨⟨fun {s blk} hs => ?_, fun {s blk} hs => ?_⟩, ?_⟩
  · have hs₀ := (Func.lt_of_block? hs).1
    obtain ⟨b, -, hserial, -⟩ := hspec s.toNat blk (Func.block?_toNat hs)
    rw [hserial, Int.toNat_of_nonneg hs₀]
  · obtain ⟨b, -, -, hfits, -⟩ := hspec s.toNat blk (Func.block?_toNat hs)
    exact (show (Func.blocks { name := name, body := some blks }).length = _ from hlen) ▸ hfits
  · refine List.forall₂_iff_get.mpr ⟨hall.length_eq.symm, fun k hk hk' => ?_⟩
    obtain ⟨b, hb, -, -, hexits⟩ := hspec k _ (List.getElem?_eq_getElem hk)
    obtain ⟨_, rfl⟩ := List.getElem?_eq_some_iff.mp hb
    exact hexits

theorem blocks_eq_nil_iff : (ofInsts name is).blocks = [] ↔ is = [] := by
  rw [← List.length_eq_zero_iff, length_blocks_ofInsts, List.length_eq_zero_iff]
  constructor
  · intro h
    by_contra hne
    have hmem : 0 ∈ leaders is :=
      mem_leaders.mpr ⟨List.length_pos_of_ne_nil hne, .inl rfl⟩
    rw [h] at hmem
    cases hmem
  · rintro rfl
    rfl

/-- **What lifting a function comes to**: no code, a block that cannot be lifted, or the lifted blocks
with their edges. -/
theorem lift_cases (o : LiftOptions) (name : String) (is : List Inst) :
    (is = [] ∧ (ofInsts name is).lift o = .error (.noCode name)) ∨
    (is ≠ [] ∧ ∃ x c, BasicBlock.liftAll o (ofInsts name is).blocks = .error (x, c) ∧
      (ofInsts name is).lift o = .error (.atInst name x c)) ∨
    (is ≠ [] ∧ ∃ blks, BasicBlock.liftAll o (ofInsts name is).blocks = .ok blks ∧
      (ofInsts name is).lift o = .ok (Func.rewired { name := name, body := some blks })) := by
  by_cases his : is = []
  · refine .inl ⟨his, ?_⟩
    rw [lift, blocks_eq_nil_iff.mpr his]
    rfl
  · have hne : ¬ (ofInsts name is).blocks.isEmpty = true := by
      rw [List.isEmpty_iff, blocks_eq_nil_iff]
      exact his
    cases h : BasicBlock.liftAll o (ofInsts name is).blocks with
    | error e =>
      refine .inr (.inl ⟨his, e.1, e.2, rfl, ?_⟩)
      rw [lift, if_neg hne, h]
      rfl
    | ok blks =>
      refine .inr (.inr ⟨his, blks, rfl, ?_⟩)
      have hedges := (shaped_of_liftAll h).1.rebuildEdges
      rw [lift, if_neg hne, h]
      simp only [Func.ofBlocks, show (ofInsts name is).name = name from rfl, hedges]

/-- The edges of a rewired function are the exits of its blocks. -/
theorem forall₂_succs_rewired {blks : List Block} {bs : List BasicBlock}
    (h : List.Forall₂ (fun (blk : Block) (b : BasicBlock) => ∀ x, x ∈ blk.exits ↔ b.GoesTo x) blks bs) :
    List.Forall₂ (fun (blk : Block) (b : BasicBlock) => ∀ x, x ∈ blk.succs ↔ b.GoesTo x)
      (Func.rewired { name := name, body := some blks }).blocks bs := by
  refine List.forall₂_iff_get.mpr ⟨(Func.length_blocks_rewired _).trans h.length_eq, fun k hk hk' => ?_⟩
  have hblock := (Func.block?_natCast _ k).trans (List.getElem?_eq_getElem hk)
  obtain ⟨blk, hblk, hcontent, -, hsuccs, -⟩ := Func.exists_of_block?_rewired hblock
  obtain ⟨hlt, rfl⟩ := List.getElem?_eq_some_iff.mp ((Func.block?_natCast _ k).symm.trans hblk)
  intro x
  rw [List.get_eq_getElem, hsuccs, Block.exits_congr hcontent]
  exact h.get hlt hk' x

end MachineFunc

/-! ## Bytes -/

/-- The instructions of bytes loaded at an address, with what a decoder tells of each word: the name of
its operation and its text. -/
def Inst.told (tell : Encoding → String × String) (base : UInt64) (bytes : List UInt8) : List Inst :=
  (disassemble base 0 bytes).map fun x =>
    { x with mnemonic := (tell x.raw).1, text := (tell x.raw).2 }

theorem Inst.consecutive_told (tell : Encoding → String × String) (base : UInt64)
    (bytes : List UInt8) : MachineFunc.Consecutive base (told tell base bytes) ∧
      4 * (told tell base bytes).length < 2 ^ 64 := by
  obtain ⟨haddr, hlen⟩ := MachineFunc.consecutive_ofBytes defaultLimit base bytes
  refine ⟨fun k x hk => ?_, ?_⟩
  · obtain ⟨y, hy, rfl⟩ := by simpa [told] using hk
    exact haddr k y hy
  · rw [told, List.length_map]
    refine Nat.lt_of_le_of_lt (Nat.mul_le_mul_left 4 hlen) ?_
    decide

/-- Whether an error says that the code is not supported, and not that the blocks do not fit. -/
def LiftError.isUnsupported : LiftError → Bool
  | noCode _ => true
  | atInst .. => true
  | flow .. => false

/-- **Code that is never supported**: none, or code with a conditional branch that stands last, goes
where no instruction is, or stands in code that reaches the end of the address space. -/
def MachineFunc.Barred (base : UInt64) (is : List Inst) : Prop :=
  is = [] ∨ ∃ (k : Nat) (x : Inst) (br : Branch) (t : UInt64), is[k]? = some x ∧
    x.branch? = some br ∧ br.isConditional = true ∧ br.target? = some t ∧
    (k + 1 = is.length ∨ 2 ^ 64 ≤ base.toNat + 4 * is.length ∨ ∀ y ∈ is, y.addr ≠ t)

/-- **Lifting gives a function in order with the edges of the machine code**, or says that the code is
not supported.  Unless everything has to be modelled, it says so of no other code than what never is. -/
theorem MachineFunc.lift_told_verify (tell : Encoding → String × String) (o : LiftOptions)
    (name : String) (base : UInt64) (bytes : List UInt8) :
    ((∃ e, (ofInsts name (Inst.told tell base bytes)).lift o = .error e ∧ e.isUnsupported = true) ∨
      ∃ f, (ofInsts name (Inst.told tell base bytes)).lift o = .ok f ∧ f.verify = .ok () ∧
        List.Forall₂ (fun (blk : Block) (b : BasicBlock) => ∀ x, x ∈ blk.succs ↔ b.GoesTo x) f.blocks
          (ofInsts name (Inst.told tell base bytes)).blocks) ∧
    (o.strict = false →
      ((∃ e, (ofInsts name (Inst.told tell base bytes)).lift o = .error e) ↔
        Barred base (Inst.told tell base bytes))) := by
  obtain ⟨hconsec, hlen⟩ := Inst.consecutive_told tell base bytes
  generalize Inst.told tell base bytes = is at *
  refine ⟨?_, fun hstrict => ?_⟩
  · obtain ⟨-, h⟩ | ⟨-, x, c, -, h⟩ | ⟨-, blks, hblks, h⟩ := lift_cases o name is
    · exact .inl ⟨_, h, rfl⟩
    · exact .inl ⟨_, h, rfl⟩
    · obtain ⟨hshaped, hgoes⟩ := shaped_of_liftAll hblks
      exact .inr ⟨_, h, Func.verify_eq_ok_iff.mpr hshaped.wellFormed.toVerified,
        forall₂_succs_rewired hgoes⟩
  · have hopen : (∃ e, BasicBlock.liftAll o (ofInsts name is).blocks = .error e) ↔
        ∃ b ∈ (ofInsts name is).blocks, b.Open := by
      simp only [BasicBlock.exists_error_liftAll_iff, BasicBlock.exists_error_lift_iff hstrict]
    unfold Barred
    simp only [← hconsec.localIndex?_eq_none_iff hlen, ← exists_open_iff name, ← hopen]
    obtain ⟨rfl, h⟩ | ⟨hne, x, c, hx, h⟩ | ⟨hne, blks, hblks, h⟩ := lift_cases o name is
    · simp [h]
    · simp [h, hx]
    · simp [h, hblks, hne]

/-- A conditional branch to the instruction after it, and a return. -/
def branchesOn (base : UInt64) : List Inst :=
  Inst.told (fun _ => ("", "")) base [0x20, 0x00, 0x00, 0xB4, 0xC0, 0x03, 0x5F, 0xD6]

theorem MachineFunc.not_barred_branchesOn :
    ({} : LiftOptions).strict = false ∧ ¬ Barred 0x1000 (branchesOn 0x1000) := by
  refine ⟨rfl, fun hbarred => ?_⟩
  obtain ⟨e, he⟩ := ((lift_told_verify (fun _ => ("", "")) {} "f" 0x1000
    [0x20, 0x00, 0x00, 0xB4, 0xC0, 0x03, 0x5F, 0xD6]).2 rfl).mpr hbarred
  have hok : ((ofInsts "f" (branchesOn 0x1000)).lift {}).isOk = true := by decide +kernel
  rw [show (ofInsts "f" (branchesOn 0x1000)).lift {} = .error e from he] at hok
  cases hok

/-- **At the end of the address space the same branch counts as leaving the function**, though it goes
to the instruction after it. -/
theorem MachineFunc.lift_branchesOn_atEnd : ∃ x y,
    branchesOn (-8) = [x, y] ∧ x.branch?.bind Branch.target? = some y.addr ∧
    (ofInsts "f" (branchesOn (-8))).lift {} = .error (.atInst "f" x .leaves) :=
  ⟨⟨-8, 0xB4000020, "", ""⟩, ⟨-4, 0xD65F03C0, "", ""⟩, by decide +kernel⟩

end Deflatten

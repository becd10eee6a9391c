import Deflatten.Proofs.Arm64.Patterns
import Deflatten.Proofs.Arm64.Tiling
import Deflatten.Proofs.Arm64.Transparency
import Deflatten.Proofs.Arm64.WellFormed

/-!
# Proofs/Arm64/Departures — instructions after which control never goes on

A branch to a fixed target and a return end their block, and nothing falls through from it, neither in
machine code nor in microcode.  A branch to the address in a register is decoded as no branch at all
(`Departure.decode?_assemble`): its block goes on with the instruction after it, or falls through to the
block that begins there, and the lifter drops it (`MachineFunc.departs`).
-/

namespace Deflatten

open Encoding

/-! ## Words -/

/-- **An instruction that always transfers control away.** -/
inductive Departure where
  /-- A branch to a target. -/
  | jump (imm : BitVec 26)
  /-- A branch on the condition "always", of which there are two. -/
  | jumpAlways (second : Bool) (imm : BitVec 19)
  /-- A return to the address in a register. -/
  | ret (rn : Fin 32)
  /-- A branch to the address in a register. -/
  | jumpRegister (rn : Fin 32)
deriving DecidableEq, Repr

namespace Departure

/-- The fields of the word. -/
def fields : Departure → List (Nat × Nat)
  | jump imm => [(6, 0b000101), (26, imm.toNat)]
  | jumpAlways second imm => [(8, 0b01010100), (19, imm.toNat), (1, 0), (4, 14 + second.toNat)]
  | ret rn => [(7, 0b1101011), (4, 0b0010), (11, 0b11111000000), (5, rn), (5, 0)]
  | jumpRegister rn => [(7, 0b1101011), (4, 0b0000), (11, 0b11111000000), (5, rn), (5, 0)]

/-- Whether the target is what a register holds. -/
def isIndirect : Departure → Bool
  | jumpRegister _ => true
  | _ => false

/-- The branch that the instruction is taken for, at an address. -/
def branch? (pc : UInt64) : Departure → Option Branch
  | jump imm => some (.always (jumpFrom pc imm.toInt))
  | jumpAlways _ imm => some (.always (jumpFrom pc imm.toInt))
  | ret _ => some .ret
  | jumpRegister _ => none

theorem shows_assemble (d : Departure) : (Encoding.assemble d.fields).Shows d.fields :=
  Encoding.shows_assemble (by cases d <;> simp [fields, fieldBits])

/-- The fixed bits of the words that name a register. -/
theorem fits_of_shows {w : Encoding} {opc : Nat} {rn : Fin 32}
    (h : w.Shows [(7, 0b1101011), (4, opc), (11, 0b11111000000), (5, rn), (5, 0)]) :
    w.fits (0xFE00001F ||| 0x001FFC00) (0xD6000000 ||| 0x001F0000) = true ∧
      w.fits 0x01E00000 (BitVec.ofNat 32 (opc % 16 * 2 ^ 21)) = true := by
  simp only [Shows, fieldBits, Nat.reduceAdd, Nat.reducePow, Nat.reduceMod] at h
  obtain ⟨hclass, hopc, hones, -, hlow, -⟩ := h
  exact ⟨fits_or (fits_or (fits_slice hclass) (fits_slice hlow))
    (fits_slice hones), fits_slice hopc⟩

theorem decode?_of_shows {w : Encoding} (d : Departure) (h : w.Shows d.fields) (pc : UInt64) :
    Branch.decode? w pc = d.branch? pc := by
  cases d with
  | jump imm =>
    simp only [fields, Shows, fieldBits, Nat.reduceAdd, Nat.reducePow,
      Nat.reduceMod] at h
    obtain ⟨hclass, himm, -⟩ := h
    have hfits := fits_slice hclass
    simp (disch := decide) only [Branch.decode?, branch?, fits_apart hfits,
      fits_within hfits, signed_of_slice himm, Bool.false_eq_true, ↓reduceIte]
  | jumpAlways second imm =>
    simp only [fields, Shows, fieldBits, Nat.reduceAdd, Nat.reducePow,
      Nat.reduceMod] at h
    obtain ⟨hclass, himm, hzero, hcond, -⟩ := h
    have hfits := fits_or (fits_slice hclass) (fits_slice hzero)
    have hnone : Condition.ofCode? (w.slice 0 4) = none := by
      rw [hcond]
      cases second <;> rfl
    simp (disch := decide) only [Branch.decode?, branch?, fits_apart hfits,
      fits_within hfits, signed_of_slice himm, hnone, Bool.false_eq_true, ↓reduceIte]
  | ret rn =>
    obtain ⟨hclass, hopc⟩ := fits_of_shows h
    have hfits := fits_or hclass hopc
    simp (disch := decide) only [Branch.decode?, branch?, fits_within hfits, ↓reduceIte]
  | jumpRegister rn =>
    obtain ⟨hclass, hopc⟩ := fits_of_shows h
    have hfits := fits_or hclass hopc
    simp (disch := decide) only [Branch.decode?, branch?, fits_apart hfits,
      Bool.false_eq_true, ↓reduceIte]

/-- **What the instructions are decoded as.** -/
theorem decode?_assemble (d : Departure) (pc : UInt64) :
    Branch.decode? (.assemble d.fields) pc = d.branch? pc :=
  d.decode?_of_shows d.shows_assemble pc

/-- A branch to the address in a register has no form that is modelled. -/
theorem form_jumpRegister {w : Encoding} {rn : Fin 32} (h : w.Shows (jumpRegister rn).fields)
    (k : Decoder) (pc : UInt64) : Form.decode k w pc = .unmodelled := by
  obtain ⟨hclass, hopc⟩ := fits_of_shows h
  have hfits := fits_or hclass hopc
  simp (disch := decide) only [Form.decode, Call.decode?, Form.isConditionSet,
    fits_apart hfits, Bool.false_eq_true, Bool.false_and, ↓reduceIte]

/-- An instruction whose target is fixed, or which returns, is a branch without a condition. -/
theorem exists_branch (d : Departure) (h : d.isIndirect = false) (pc : UInt64) :
    ∃ br, d.branch? pc = some br ∧ br.isConditional = false := by
  cases d with
  | jump imm => exact ⟨_, rfl, rfl⟩
  | jumpAlways second imm => exact ⟨_, rfl, rfl⟩
  | ret rn => exact ⟨_, rfl, rfl⟩
  | jumpRegister rn => cases h

end Departure

namespace MachineFunc

variable {o : LiftOptions} {is : List Inst} {name : String} {b : BasicBlock} {g : Func} {x : Inst}
  {i k : Nat}

/-! ## Blocks of a lifted function -/

/-- **The microcode of a block** of a lifted function, and where control leads from it. -/
theorem exists_lifted (hg : (ofInsts name is).lift o = .ok g)
    (hb : (ofInsts name is).blocks[i]? = some b) : ∃ blk blk₀, g.blocks[i]? = some blk ∧
      b.lift o = .ok blk₀ ∧ blk.content = blk₀.content ∧ ∀ s, s ∈ blk.succs ↔ b.GoesTo s := by
  obtain ⟨-, h⟩ | ⟨-, y, c, -, h⟩ | ⟨-, blks, hblks, h⟩ := lift_cases o name is
  · cases h.symm.trans hg
  · cases h.symm.trans hg
  · obtain rfl := Except.ok.inj (h.symm.trans hg)
    have hall := BasicBlock.forall₂_of_liftAll hblks
    have hgoes : List.Forall₂ (fun (blk : Block) (b : BasicBlock) => ∀ s, s ∈ blk.succs ↔ b.GoesTo s)
        (Func.rewired { name := name, body := some blks }).blocks (ofInsts name is).blocks :=
      forall₂_succs_rewired (shaped_of_liftAll hblks).2
    obtain ⟨hi, rfl⟩ := List.getElem?_eq_some_iff.mp hb
    have hi₀ : i < blks.length := hall.length_eq ▸ hi
    have hi' := hgoes.length_eq ▸ hi
    have hblk := List.getElem?_eq_getElem hi'
    obtain ⟨blk₀, hblk₀, hcontent, -⟩ :=
      Func.exists_of_block?_rewired ((Func.block?_natCast _ i).trans hblk)
    obtain ⟨_, rfl⟩ := List.getElem?_eq_some_iff.mp ((Func.block?_natCast _ i).symm.trans hblk₀)
    exact ⟨_, _, hblk, hall.get hi hi₀, hcontent, hgoes.get hi' hi⟩

/-- **Nothing falls through from a block**, and its microcode ends in a return or a jump to the target of
its branch. -/
structure Seals (o : LiftOptions) (f : MachineFunc) (i : Nat) (b : BasicBlock) : Prop where
  /-- No block is fallen through to. -/
  next_eq : b.next? = none
  /-- In microcode neither. -/
  lifted : ∀ g, f.lift o = .ok g → ∃ blk t, g.blocks[i]? = some blk ∧ blk.insns.getLast? = some t ∧
    (t.op = .ret ∨ t.op = .goto) ∧ blk.next = noBlock ∧
    ∀ s ∈ blk.succs, ∃ j : Nat, b.taken? = some j ∧ s = j

/-- **Control goes on from a block to the next one.** -/
structure RunsOn (o : LiftOptions) (f : MachineFunc) (i : Nat) (b : BasicBlock) : Prop where
  /-- The next block is fallen through to. -/
  next_eq : b.next? = some (i + 1)
  /-- In microcode too. -/
  lifted : ∀ g, f.lift o = .ok g → ∃ blk, g.blocks[i]? = some blk ∧ blk.next = (i + 1 : Nat) ∧
    ((i + 1 : Nat) : Int) ∈ blk.succs

/-- A branch without a condition seals its block. -/
theorem seals_of_branch? (hb : (ofInsts name is).blocks[i]? = some b) {br : Branch}
    (hbr : b.branch? = some br) (hc : br.isConditional = false) (o : LiftOptions) :
    Seals o (ofInsts name is) i b := by
  have hnext := BasicBlock.next?_eq_none_of_not_conditional (piece_of_getElem? hb) hbr hc
  refine ⟨hnext, fun g hg => ?_⟩
  obtain ⟨blk, blk₀, hblk, hlift, hcontent, hsuccs⟩ := exists_lifted hg hb
  obtain ⟨s, -, -, hserial, hcode⟩ := BasicBlock.of_lift hlift
  have hends : ∃ t, blk₀.insns.getLast? = some t ∧ (t.op = .ret ∨ t.op = .goto) := by
    rcases hcode with ⟨hnone, -⟩ | ⟨br', js, hbr', hjs, hcode⟩
    · cases hnone.symm.trans hbr
    · obtain rfl := Option.some.inj (hbr.symm.trans hbr')
      rw [hcode]
      rcases Lifting.cases_of_branch hjs with ⟨-, rfl⟩ | ⟨a, j, -, -, rfl⟩ | ⟨a, -, -, rfl⟩ | ⟨hcond, -⟩
      · exact ⟨_, List.getLast?_concat, .inl rfl⟩
      · exact ⟨_, List.getLast?_concat, .inr rfl⟩
      · exact ⟨.ret (.register 0 8), by simp, .inl rfl⟩
      · cases hc.symm.trans hcond
  obtain ⟨t, ht, hop⟩ := hends
  refine ⟨blk, t, hblk, by rwa [Block.insns_congr hcontent], hop, ?_, fun s hs => ?_⟩
  · rw [Block.next_congr hcontent, hserial, hnext]
    rfl
  · obtain ⟨j, rfl, htaken | hfalls⟩ := (hsuccs s).mp hs
    · exact ⟨j, htaken, rfl⟩
    · cases hnext.symm.trans hfalls

/-- A block without a branch runs on, unless it is the last. -/
theorem runsOn_of_branch? (hb : (ofInsts name is).blocks[i]? = some b) (hbr : b.branch? = none)
    (hlast : b.stop < is.length) (o : LiftOptions) : RunsOn o (ofInsts name is) i b := by
  have hp := piece_of_getElem? hb
  have hnext : b.next? = some (i + 1) := by
    refine hp.next?_eq_some_iff.mpr ⟨rfl, ?_, fun br h => ?_⟩
    · by_contra hge
      -- the last block stops at the end
      have hstop := hp.stop_eq
      rw [stopOf, List.getElem?_eq_none (Nat.le_of_not_lt hge)] at hstop
      exact absurd hstop (Nat.ne_of_lt hlast)
    · cases hbr.symm.trans h
  refine ⟨hnext, fun g hg => ?_⟩
  obtain ⟨blk, blk₀, hblk, hlift, hcontent, hsuccs⟩ := exists_lifted hg hb
  obtain ⟨s, -, -, hserial, -⟩ := BasicBlock.of_lift hlift
  refine ⟨blk, hblk, ?_, (hsuccs _).mpr ⟨i + 1, rfl, .inr hnext⟩⟩
  rw [Block.next_congr hcontent, hserial, hnext]
  rfl

/-- **Where a block stops that has no branch at a place**: there only if the instructions end or a branch
goes to the instruction after it. -/
theorem Piece.stop_eq_succ_iff (h : Piece is i b) (hlo : b.start ≤ k) (hhi : k < b.stop)
    (hx : is[k]? = some x) (hnone : x.branch? = none) :
    k + 1 = b.stop ↔ k + 1 = is.length ∨ k + 1 ∈ branchTargets is := by
  have hle := h.stop_le
  constructor
  · intro heq
    rcases Nat.lt_or_ge b.stop is.length with hlt | hge
    · have hstop := h.stop_eq
      unfold stopOf at hstop
      cases hl : (leaders is)[i + 1]? with
      | none =>
        rw [hl] at hstop
        exact absurd hstop (Nat.ne_of_lt hlt)
      | some t =>
        rw [hl, Option.getD_some, ← heq] at hstop
        obtain ⟨-, hzero | htarget | hafter⟩ := mem_leaders.mp (List.mem_of_getElem? hl)
        · omega
        · exact .inr (hstop ▸ htarget)
        · obtain ⟨k', y, hy, hbranch, hk'⟩ := mem_afterBranches.mp hafter
          obtain rfl : k' = k := by omega
          obtain rfl := Option.some.inj (hx.symm.trans hy)
          rw [hnone] at hbranch
          cases hbranch
    · exact .inl (by omega)
  · rintro (hend | htarget)
    · omega
    · obtain ⟨y, -, t, br, -, -, hlocal⟩ := mem_branchTargets.mp htarget
      have hmem := mem_leaders.mpr ⟨lt_of_localIndex? hlocal, .inr (.inl htarget)⟩
      have := stopOf_le_of_mem h.start_eq hmem (by omega)
      rw [← h.stop_eq] at this
      omega

/-! ## Departures -/

/-- **Control never goes on after a departure to a fixed target or a return**: it stands last in its block,
and nothing falls through from there.  A branch to the address in a register is not seen: its block stops
after it only at the end of the function or where a branch goes, falls through there if a block follows,
and its microcode is none. -/
theorem departs (o : LiftOptions) (name : String) (hx : is[k]? = some x) (d : Departure)
    (hd : x.raw = .assemble d.fields) : ∃ i b, (ofInsts name is).blocks[i]? = some b ∧ b.start ≤ k ∧
      k < b.stop ∧
      (d.isIndirect = false → k + 1 = b.stop ∧ Seals o (ofInsts name is) i b) ∧
      (d.isIndirect = true →
        (k + 1 = b.stop ↔ k + 1 = is.length ∨ k + 1 ∈ branchTargets is) ∧
        (k + 1 = b.stop → k + 1 < is.length → RunsOn o (ofInsts name is) i b) ∧
        (o.strict = false → o.decoder.destination? x.raw = none →
          ∀ s : Lifting, s.inst o x = .ok { s with flags? := none })) := by
  have hbranch : x.branch? = d.branch? x.addr := by
    rw [Inst.branch?, hd, d.decode?_assemble]
  obtain ⟨i, s, hs, hlo, hhi⟩ := exists_piece (List.getElem?_eq_some_iff.mp hx).1
  obtain ⟨b, hb, rfl⟩ := getElem?_blocks_of_leader name hs
  have hp := piece_of_getElem? hb
  rw [← hp.stop_eq] at hhi
  -- the branch of the block is that of the instruction, if it stands last
  have hlast : k + 1 = b.stop → b.branch? = d.branch? x.addr := by
    intro heq
    rw [hp.branch?_eq, ← heq, Nat.add_sub_cancel, hx, Option.bind_some, hbranch]
  refine ⟨i, b, hb, hlo, hhi, fun hdirect => ?_, fun hindirect => ?_⟩
  · obtain ⟨br, hbr, hc⟩ := d.exists_branch hdirect x.addr
    have hstop := hp.branch_last hx hlo hhi (by rw [hbranch, hbr]; rfl)
    exact ⟨hstop, seals_of_branch? hb ((hlast hstop).trans hbr) hc o⟩
  · cases d with
    | jump | jumpAlways | ret => cases hindirect
    | jumpRegister rn =>
      refine ⟨hp.stop_eq_succ_iff hlo hhi hx hbranch, fun hstop hmore => ?_, fun hstrict hdest s => ?_⟩
      · exact runsOn_of_branch? hb (hlast hstop) (hstop ▸ hmore) o
      · have hform : Form.decode o.decoder x.raw x.addr = .unmodelled :=
          hd ▸ Departure.form_jumpRegister (Departure.shows_assemble (.jumpRegister rn)) _ _
        simp only [Lifting.inst, hform, Lifting.skip, hstrict, hdest, Bool.false_eq_true, if_false]

/-- Always branches over a branch to the address in a register, and returns. -/
def skipsJump : List Inst := ofWords 0x1000 [0x5400004E, 0xD61F0020, 0xD65F03C0]

theorem departs_skipsJump :
    (∃ i b, (ofInsts "f" skipsJump).blocks[i]? = some b ∧ b.start ≤ 0 ∧ 1 = b.stop ∧
      Seals {} (ofInsts "f" skipsJump) i b) ∧
    ∃ i b, (ofInsts "f" skipsJump).blocks[i]? = some b ∧ b.start ≤ 1 ∧ 2 = b.stop ∧
      RunsOn {} (ofInsts "f" skipsJump) i b := by
  have hfirst : skipsJump[0]? = some ⟨0x1000, .assemble (Departure.jumpAlways false 2).fields, "", ""⟩ := by
    decide
  have hsecond : skipsJump[1]? = some ⟨0x1004, .assemble (Departure.jumpRegister 1).fields, "", ""⟩ := by
    decide
  obtain ⟨i, b, hb, hlo, -, hdirect, -⟩ := departs {} "f" hfirst (.jumpAlways false 2) rfl
  obtain ⟨j, c, hc, hlo', -, -, hindirect⟩ := departs {} "f" hsecond (.jumpRegister 1) rfl
  obtain ⟨hstop, hruns, -⟩ := hindirect rfl
  have htwo := hstop.mpr (.inr (by decide))
  exact ⟨⟨i, b, hb, hlo, hdirect rfl⟩, ⟨j, c, hc, hlo', htwo, hruns htwo (by decide)⟩⟩

/-- Branches to the address in a register; a constant is returned after that. -/
def jumpsAway : List Inst := ofWords 0x1000 [0xD61F0020, 0xD2800020, 0xD65F03C0]

/-- **A branch to the address in a register is run through**: it stands first in the only block, and the
constant after it is returned. -/
theorem falls_jumpsAway :
    jumpsAway.head?.map Inst.raw = some (.assemble (Departure.jumpRegister 1).fields) ∧
    (∃ b, (ofInsts "f" jumpsAway).blocks = [b] ∧ b.start = 0 ∧ b.stop = 3) ∧
    ∃ f, (ofInsts "f" jumpsAway).lift {} = .ok f ∧
      ∀ limit : Int, 2 ≤ limit → ∃ e, f.run {} limit = .ok e ∧ e.error? = none ∧ e.trace.ret = 1 := by
  let x0 := Operand.register 0 8
  refine ⟨by decide, ⟨_, rfl, rfl, by decide⟩, ofCode [.mov (.imm 1 8) x0, .ret x0], by decide +kernel,
    fun limit hlimit => run_ofCode (n := 2) rfl rfl (by omega)⟩

end MachineFunc

end Deflatten

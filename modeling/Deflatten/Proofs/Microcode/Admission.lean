import Deflatten.Proofs.Microcode.Stream

/-!
# Proofs/Microcode/Admission — what the functions that are read can be relied on for

A function that is read has its edges rebuilt, so a check of it can find two things wrong only: an
instruction that is not there, or one that ends a block before the end of it.  It names the first
that a walk over the blocks comes upon (`Draft.Admitted.verify_eq`).  Rebuilding looks at the ends of
blocks and passes over both.

Reading breaks off where `null` stands for a block, after blocks in their places, and nowhere else
(`ofJson_eq_absent_iff`).
-/

namespace Deflatten

open Json (Value)

/-! ## Faults of blocks -/

/-- What is wrong with a block whose edges are right. -/
inductive Fault where
  /-- An instruction is not there. -/
  | gap
  /-- An instruction ends the block before the end of it. -/
  | early (op : Opcode)
deriving DecidableEq

/-- **The first fault of a row of instructions**, some of which may not be there. -/
def firstFault? : List (Option Insn) → Option Fault
  | [] => none
  | none :: _ => some .gap
  | [some _] => none
  | some i :: j :: is => if i.op.endsBlock then some (.early i.op) else firstFault? (j :: is)

/-- Instructions without those at some positions. -/
def punctured (gap : Nat → Bool) (is : List Insn) : List (Option Insn) :=
  is.mapIdx fun k i => if gap k then none else some i

section Faults

variable {gap : Nat → Bool} {i : Insn} {is : List Insn}

theorem punctured_cons : punctured gap (i :: is) =
    (if gap 0 then none else some i) :: punctured (fun k => gap (k + 1)) is := by
  simp [punctured, List.mapIdx_cons]

theorem none_mem_punctured {k : Nat} (hk : k < is.length) (hgap : gap k = true) :
    none ∈ punctured gap is := by
  refine List.mem_of_getElem? (i := k) ?_
  simp [punctured, List.getElem?_eq_getElem hk, hgap]

theorem none_not_mem_of_firstFault? {cells : List (Option Insn)} (h : firstFault? cells = none) :
    none ∉ cells := by
  induction cells with
  | nil => simp
  | cons x cells ih =>
    cases x with
    | none => cases h
    | some i =>
      cases cells with
      | nil => simp
      | cons y cells =>
        rw [firstFault?] at h
        split at h
        · cases h
        · simpa using ih h

/-- **A gap is the first fault** if nothing before it ends the block. -/
theorem firstFault?_of_gap {k : Nat} (hk : k < is.length) (hgap : gap k = true)
    (hplain : Plain (is.take k)) : firstFault? (punctured gap is) = some .gap := by
  induction is generalizing gap k with
  | nil => cases hk
  | cons i is ih =>
    rw [punctured_cons]
    cases h0 : gap 0 with
    | true => rfl
    | false =>
      -- The gap stands further on, so there is an instruction after this one, which ends nothing.
      cases k with
      | zero => simp [h0] at hgap
      | succ k =>
        rw [List.take_succ_cons] at hplain
        have hi : i.op.endsBlock = false := hplain i List.mem_cons_self
        have hrest := @ih (fun k => gap (k + 1)) k (Nat.lt_of_succ_lt_succ hk) hgap
          fun x hx => hplain x (List.mem_cons_of_mem i hx)
        cases is with
        | nil => simp at hk
        | cons j is =>
          rw [punctured_cons] at hrest ⊢
          simpa [firstFault?, hi] using hrest

/-- **Gaps behind the end of a block are not seen.** -/
theorem firstFault?_of_ended
    (hended : ∀ k < is.length, gap k = true → ¬ Plain (is.take k)) :
    firstFault? (punctured gap is) = (Func.firstEarlyEnd? is).map fun i => .early i.op := by
  induction is generalizing gap with
  | nil => rfl
  | cons i is ih =>
    have h0 : gap 0 = false := by
      by_contra h
      exact hended 0 (Nat.zero_lt_succ _) (by simpa using h) plain_nil
    rw [punctured_cons, h0]
    cases is with
    | nil => rfl
    | cons j is =>
      cases hi : i.op.endsBlock with
      | true =>
        rw [punctured_cons]
        simp [firstFault?, Func.firstEarlyEnd?, hi]
      | false =>
        have hrest := @ih (fun k => gap (k + 1)) fun k hk hgap hplain => by
          refine hended (k + 1) (Nat.succ_lt_succ hk) hgap ?_
          rw [List.take_succ_cons]
          exact List.forall_mem_cons.mpr ⟨hi, hplain⟩
        rw [punctured_cons] at hrest ⊢
        simpa [firstFault?, Func.firstEarlyEnd?, hi] using hrest

end Faults

/-! ## Checking after rebuilding -/

namespace Func

variable {f : Func} {b : Block}

theorem endsLast_rewired : f.rewired.EndsLast ↔ f.EndsLast := by
  have hmem : ∀ {f g : Func}, (∀ s, g.content? s = f.content? s) → f.EndsLast → g.EndsLast := by
    intro f g hc hf b hb
    obtain ⟨s, hs⟩ := exists_block?_of_mem hb
    obtain ⟨b', hb', hcontent⟩ := exists_of_content? (hc s).symm hs
    rw [← Block.body_congr hcontent]
    exact hf b' (mem_of_block? hb')
  exact ⟨hmem fun s => (f.content?_rewired s).symm, hmem f.content?_rewired⟩

/-- After rebuilding, a block without gaps fails its check only by an early end. -/
theorem Landed.verifyBlock_rewired (h : f.Landed) {i : Nat} (hb : f.rewired.block? i = some b) :
    f.rewired.verifyBlock i b = match firstEarlyEnd? b.insns with
      | none => .ok ()
      | some ins => .error (.earlyEnd f.rewired.name b.serial ins.op) := by
  obtain ⟨b₀, hb₀, hcontent, hserial, hsuccs, -⟩ := exists_of_block?_rewired hb
  have hi : b.serial = i := by rw [hserial, h.placed hb₀]
  cases hend : firstEarlyEnd? b.insns with
  | some ins =>
    simp [verifyBlock, hi, hend, bind, Except.bind, throw, throwThe, MonadExceptOf.throw]
  | none =>
    have hplain := (firstEarlyEnd?_eq_none_iff b).mp hend
    have hplain₀ : Plain b₀.body := Block.body_congr hcontent ▸ hplain
    have hfits : b.Fits f.rewired.blocks.length := by
      rw [length_blocks_rewired]
      exact (Block.fits_iff.mpr ⟨hplain₀, h.lands hb₀⟩).congr hcontent
    refine verifyBlock_eq_ok_iff.mpr ⟨hi, hsuccs, hfits, fun s hs => ?_, fun p hp => ?_⟩
    · rw [hsuccs] at hs
      obtain ⟨h₀, hlt⟩ := hfits.inside s hs
      obtain ⟨t, ht⟩ := exists_block? h₀ hlt
      exact ⟨t, ht, hi ▸ (mem_preds_rewired ht).mpr ⟨b, hb, hs⟩⟩
    · obtain ⟨t, ht, hst⟩ := (mem_preds_rewired hb).mp hp
      obtain ⟨-, -, -, -, hsuccs', -⟩ := exists_of_block?_rewired ht
      exact ⟨t, ht, by rwa [hsuccs', hi]⟩

end Func

namespace Draft

variable {d : Draft} {b : Block} {i : Nat} {is : List Insn}

/-- The instructions of the block at a position that are there. -/
def cells (d : Draft) (i : Nat) (is : List Insn) : List (Option Insn) :=
  punctured (fun k => (i, k) ∈ d.gaps) is

/-- The first fault of blocks that stand from a position on, with the serial of its block. -/
def faultFrom? (d : Draft) : Nat → List Block → Option (Int × Fault)
  | _, [] => none
  | i, b :: bs => ((firstFault? (d.cells i b.insns)).map fun x => (b.serial, x)).or
      (d.faultFrom? (i + 1) bs)

/-- **The first fault of a function that was let in.** -/
def fault? (d : Draft) : Option (Int × Fault) := d.faultFrom? 0 d.func.blocks

/-- What a check answers that comes upon a fault. -/
def answer (d : Draft) : Option (Int × Fault) → Except ReadError Unit
  | none => .ok ()
  | some (_, .gap) => .error .absent
  | some (serial, .early op) => .error (.flow (.earlyEnd d.func.name serial op))

/-- **What is known of a function that was let in.** -/
structure Admitted (d : Draft) : Prop where
  /-- Its edges have been rebuilt. -/
  rebuilt : ∃ g : Func, g.Landed ∧ d.func = g.rewired
  /-- Each instruction that is not there has its place in a block. -/
  fits : ∀ {i k : Nat}, (i, k) ∈ d.gaps → ∃ b, d.func.block? i = some b ∧ k < b.insns.length

/-- Without early ends it is in order. -/
theorem Admitted.wellFormed (h : d.Admitted) (hends : d.func.EndsLast) : d.func.WellFormed := by
  obtain ⟨g, hg, hd⟩ := h.rebuilt
  rw [hd] at hends ⊢
  exact (Func.shaped_iff.mpr ⟨Func.endsLast_rewired.mp hends, hg⟩).wellFormed

theorem comesToGap_iff : d.comesToGap i is = true ↔ ∃ k, (i, k) ∈ d.gaps ∧ Plain (is.take k) := by
  simp only [comesToGap, List.any_eq_true, Bool.and_eq_true, beq_iff_eq, Bool.not_eq_true',
    List.any_eq_false, Bool.not_eq_true, Plain]
  constructor
  · rintro ⟨⟨i', k⟩, hk, rfl, hplain⟩
    exact ⟨k, hk, hplain⟩
  · rintro ⟨k, hk, hplain⟩
    exact ⟨(i, k), hk, rfl, hplain⟩

/-- **The check of a block names its first fault.** -/
theorem Admitted.verifyBlock_eq (h : d.Admitted) (hb : d.func.block? i = some b) :
    d.verifyBlock i b = d.answer ((firstFault? (d.cells i b.insns)).map fun x => (b.serial, x)) := by
  obtain ⟨g, hg, hd⟩ := h.rebuilt
  have hlt : ∀ {k}, (i, k) ∈ d.gaps → k < b.insns.length := fun hk => by
    obtain ⟨b', hb', hlt⟩ := h.fits hk
    obtain rfl := Option.mem_unique hb hb'
    exact hlt
  rw [hd] at hb
  obtain ⟨b₀, hb₀, -, hserial, -⟩ := Func.exists_of_block?_rewired hb
  by_cases hgap : ∃ k, (i, k) ∈ d.gaps ∧ Plain (b.insns.take k)
  · have hi : b.serial = i := hserial.trans (hg.placed hb₀)
    rw [verifyBlock, if_pos ⟨hi, comesToGap_iff.mpr hgap⟩]
    obtain ⟨k, hk, hplain⟩ := hgap
    rw [cells, firstFault?_of_gap (hlt hk) (decide_eq_true hk) hplain]
    rfl
  · rw [verifyBlock, if_neg fun hcome => hgap (comesToGap_iff.mp hcome.2), hd,
      hg.verifyBlock_rewired hb, cells, firstFault?_of_ended fun k _ hk hplain =>
        hgap ⟨k, of_decide_eq_true hk, hplain⟩]
    cases Func.firstEarlyEnd? b.insns with
    | none => rfl
    | some ins => simp [answer, Except.mapError, hd]

theorem Admitted.verifyFrom_eq (h : d.Admitted) {bs : List Block}
    (hbs : ∀ k b, bs[k]? = some b → d.func.block? ((i + k : Nat) : Int) = some b) :
    d.verifyFrom i bs = d.answer (d.faultFrom? i bs) := by
  induction bs generalizing i with
  | nil => rfl
  | cons b bs ih =>
    have hb := h.verifyBlock_eq (hbs 0 b rfl)
    have hrest := ih (i := i + 1) fun k b' hk => by
      rw [Nat.add_assoc, Nat.add_comm 1]
      exact hbs (k + 1) b' hk
    rw [Nat.add_zero] at hb
    rw [verifyFrom, hb, hrest, faultFrom?]
    cases (firstFault? (d.cells i b.insns)).map fun x => (b.serial, x) with
    | none => rfl
    | some x =>
      rcases x with ⟨serial, _ | op⟩
      · rfl
      · rfl

theorem block?_of_getElem? (k : Nat) (b : Block) (hk : d.func.blocks[k]? = some b) :
    d.func.block? ((0 + k : Nat) : Int) = some b := by
  rw [Nat.zero_add, Func.block?_natCast]
  exact hk

/-- **A check names the first fault**, and fails by nothing else. -/
theorem Admitted.verify_eq (h : d.Admitted) : d.verify = d.answer d.fault? :=
  h.verifyFrom_eq block?_of_getElem?

theorem answer_eq_ok_iff {x : Option (Int × Fault)} : d.answer x = .ok () ↔ x = none := by
  rcases x with _ | ⟨serial, fault⟩
  · simp [answer]
  · cases fault with
    | gap => simp [answer]
    | early op => simp [answer]

theorem firstFault?_of_faultFrom? {bs : List Block} (h : d.faultFrom? i bs = none) {k : Nat}
    (hk : bs[k]? = some b) : firstFault? (d.cells (i + k) b.insns) = none := by
  induction bs generalizing i k with
  | nil => simp at hk
  | cons b' bs ih =>
    rw [faultFrom?, Option.or_eq_none_iff, Option.map_eq_none_iff] at h
    cases k with
    | zero =>
      obtain rfl : b' = b := by simpa using hk
      exact h.1
    | succ k =>
      rw [Nat.add_comm k, ← Nat.add_assoc]
      exact ih h.2 hk

/-- Without a fault all instructions are there. -/
theorem Admitted.gaps_eq_nil (h : d.Admitted) (hnone : d.fault? = none) : d.gaps = [] := by
  refine List.eq_nil_iff_forall_not_mem.mpr ?_
  rintro ⟨i, k⟩ hk
  obtain ⟨b, hb, hlt⟩ := h.fits hk
  rw [Func.block?_natCast] at hb
  have hcells := firstFault?_of_faultFrom? hnone hb
  rw [Nat.zero_add] at hcells
  exact none_not_mem_of_firstFault? hcells (none_mem_punctured hlt (decide_eq_true hk))

theorem verifyFrom_of_gaps_eq_nil (h : d.gaps = []) (i : Nat) (bs : List Block) :
    d.verifyFrom i bs = (d.func.verifyFrom i bs).mapError .flow := by
  induction bs generalizing i with
  | nil => rfl
  | cons b bs ih =>
    have hb : d.verifyBlock i b = (d.func.verifyBlock i b).mapError .flow := by
      simp [verifyBlock, comesToGap, h]
    rw [verifyFrom, Func.verifyFrom, hb, ih]
    cases d.func.verifyBlock i b with
    | ok _ => rfl
    | error _ => rfl

/-- **Where all instructions are there, the check is that of the function.** -/
theorem verify_of_gaps_eq_nil (h : d.gaps = []) : d.verify = .ok () ↔ d.func.verify = .ok () := by
  rw [verify, verifyFrom_of_gaps_eq_nil h, Func.verify]
  cases d.func.verifyFrom 0 d.func.blocks with
  | ok _ => simp [Except.mapError]
  | error _ => simp [Except.mapError]

/-- **A function that was let in passes its check** if all instructions are there and none ends a block
early. -/
theorem Admitted.verify_eq_ok_iff (h : d.Admitted) :
    d.verify = .ok () ↔ d.gaps = [] ∧ d.func.EndsLast := by
  constructor
  · intro hok
    have hgaps := h.gaps_eq_nil (answer_eq_ok_iff.mp (h.verify_eq.symm.trans hok))
    exact ⟨hgaps, (Func.verify_eq_ok_iff.mp ((verify_of_gaps_eq_nil hgaps).mp hok)).endsLast⟩
  · rintro ⟨hgaps, hends⟩
    exact (verify_of_gaps_eq_nil hgaps).mpr
      (Func.verify_eq_ok_iff.mpr (h.wellFormed hends).toVerified)

end Draft

/-! ## Records -/

/-- The records stand in their places, from a position on. -/
def PlacedFrom (i : Nat) (bs : List (Option BlockRecord)) : Prop :=
  ∀ (k : Nat) (x : Option BlockRecord), bs[k]? = some x → ∃ b, x = some b ∧ b.serial = (i + k : Nat)

/-- **`null` stands for a block**, after blocks in their places. -/
def FuncRecord.LacksBlock (r : FuncRecord) : Prop :=
  ∃ front back, r.blocks.shown = some (front ++ none :: back) ∧ PlacedFrom 0 front

theorem placedFrom_nil (i : Nat) : PlacedFrom i [] := fun k x h => by simp at h

theorem placedFrom_cons {i : Nat} {b : BlockRecord} {bs : List (Option BlockRecord)} :
    PlacedFrom i (some b :: bs) ↔ b.serial = i ∧ PlacedFrom (i + 1) bs := by
  constructor
  · intro h
    obtain ⟨b', hb', hserial⟩ := h 0 (some b) rfl
    cases hb'
    refine ⟨hserial, fun k x hk => ?_⟩
    rw [Nat.add_assoc, Nat.add_comm 1]
    exact h (k + 1) x hk
  · rintro ⟨hserial, h⟩ k x hk
    cases k with
    | zero =>
      obtain rfl : some b = x := by simpa using hk
      exact ⟨b, rfl, hserial⟩
    | succ k =>
      rw [Nat.add_comm k, ← Nat.add_assoc]
      exact h k x hk

theorem not_placedFrom_none {i : Nat} {bs : List (Option BlockRecord)} :
    ¬ PlacedFrom i (none :: bs) := fun h => by
  obtain ⟨b, hb, -⟩ := h 0 none rfl
  cases hb

section Places

variable {bs : List (Option BlockRecord)} {i : Nat}

theorem checkPlaces_eq_ok_iff (fn : String) : checkPlaces fn i bs = .ok () ↔ PlacedFrom i bs := by
  induction bs generalizing i with
  | nil => exact iff_of_true rfl (placedFrom_nil i)
  | cons x bs ih =>
    cases x with
    | none => exact iff_of_false (by simp [checkPlaces]) not_placedFrom_none
    | some b =>
      rw [checkPlaces, placedFrom_cons, ← ih]
      split
      · next hserial => exact iff_of_false (by simp) fun h => hserial h.1
      · next hserial => exact (and_iff_right (not_not.mp hserial)).symm

/-- Checking places breaks off at the first block that is not there, if all before it are in theirs. -/
theorem checkPlaces_eq_absent_iff (fn : String) : checkPlaces fn i bs = .error .absent ↔
    ∃ front back, bs = front ++ none :: back ∧ PlacedFrom i front := by
  induction bs generalizing i with
  | nil => exact iff_of_false (by simp [checkPlaces]) (by simp)
  | cons x bs ih =>
    cases x with
    | none => exact iff_of_true rfl ⟨[], bs, rfl, placedFrom_nil i⟩
    | some b =>
      have hcons : (∃ front back, some b :: bs = front ++ none :: back ∧ PlacedFrom i front) ↔
          b.serial = i ∧ ∃ front back, bs = front ++ none :: back ∧ PlacedFrom (i + 1) front := by
        constructor
        · rintro ⟨front, back, heq, hfront⟩
          cases front with
          | nil => cases heq
          | cons x front =>
            obtain ⟨rfl, rfl⟩ := List.cons.inj heq
            obtain ⟨hserial, hfront⟩ := placedFrom_cons.mp hfront
            exact ⟨hserial, front, back, rfl, hfront⟩
        · rintro ⟨hserial, front, back, rfl, hfront⟩
          exact ⟨some b :: front, back, rfl, placedFrom_cons.mpr ⟨hserial, hfront⟩⟩
      rw [hcons, checkPlaces, ← ih]
      split
      · next hserial => exact iff_of_false (by simp) fun h => hserial h.1
      · next hserial => exact (and_iff_right (not_not.mp hserial)).symm

/-- Blocks in their places are all there. -/
theorem PlacedFrom.getElem?_filterMap (h : PlacedFrom i bs) {k : Nat} {b : BlockRecord}
    (hb : bs[k]? = some (some b)) :
    (bs.filterMap fun x => x.map BlockRecord.outline)[k]? = some b.outline := by
  induction bs generalizing i k with
  | nil => simp at hb
  | cons x bs ih =>
    cases x with
    | none => exact absurd h not_placedFrom_none
    | some b' =>
      cases k with
      | zero =>
        obtain rfl : b' = b := by simpa using hb
        rfl
      | succ k => exact ih (placedFrom_cons.mp h).2 hb

end Places

theorem BlockRecord.length_insns_outline (b : BlockRecord) :
    b.outline.insns.length = b.insns.elems.length := by
  rw [Block.insns, outline, Slots.elems]
  cases b.insns.shown with
  | none => rfl
  | some is => simp

theorem BlockRecord.lt_of_mem_gaps {b : BlockRecord} {k : Nat} (h : k ∈ b.gaps) :
    k < b.insns.elems.length := by
  obtain ⟨x, hx, rfl⟩ := List.mem_map.mp h
  simpa using List.snd_lt_of_mem_zipIdx (List.mem_of_mem_filter hx)

namespace FuncRecord

variable {r : FuncRecord} {d : Draft}

theorem lacksBlock_iff :
    r.LacksBlock ↔ checkPlaces r.name 0 r.blocks.elems = .error .absent := by
  rw [checkPlaces_eq_absent_iff, LacksBlock, Slots.elems]
  cases r.blocks.shown with
  | none => simp
  | some bs => simp

/-- Once the places are right, building the edges decides. -/
theorem toDraft_of_checkPlaces (h : checkPlaces r.name 0 r.blocks.elems = .ok ()) :
    r.toDraft = match Func.rebuildEdges r.outline with
      | .error e _ => .error (.flow e)
      | .ok _ g => .ok { func := g, gaps := r.gaps } := by
  rw [toDraft, h]
  rfl

theorem toDraft_eq_absent_iff : r.toDraft = .error .absent ↔ r.LacksBlock := by
  rw [lacksBlock_iff]
  cases hcheck : checkPlaces r.name 0 r.blocks.elems with
  | error e => simp [toDraft, hcheck, bind, Except.bind]
  | ok u =>
    rw [toDraft_of_checkPlaces hcheck]
    split
    · simp
    · simp

/-- A record in its place gives the block there. -/
theorem block?_outline (h : PlacedFrom 0 r.blocks.elems) {i : Nat} {b : BlockRecord}
    (hb : r.blocks.elems[i]? = some (some b)) : r.outline.block? i = some b.outline := by
  have hblocks : r.outline.blocks = r.blocks.elems.filterMap fun x => x.map BlockRecord.outline := by
    rw [Func.blocks, outline, Slots.elems]
    cases r.blocks.shown with
    | none => rfl
    | some bs => rfl
  rw [Func.block?_natCast, hblocks]
  exact h.getElem?_filterMap hb

/-- Each instruction that is not there has its place. -/
theorem exists_of_mem_gaps {i k : Nat} (h : (i, k) ∈ r.gaps) :
    ∃ b, r.blocks.elems[i]? = some (some b) ∧ k < b.outline.insns.length := by
  simp only [gaps, List.mem_flatMap, List.mem_map, Prod.mk.injEq] at h
  obtain ⟨⟨x, _⟩, hx, _, hk, rfl, rfl⟩ := h
  cases x with
  | none => cases hk
  | some b =>
    refine ⟨b, List.mk_mem_zipIdx_iff_getElem?.mp hx, ?_⟩
    rw [BlockRecord.length_insns_outline]
    exact BlockRecord.lt_of_mem_gaps hk

/-- **A function is made of a record with its blocks in place** whose edges can be built. -/
theorem admitted_of_toDraft (h : r.toDraft = .ok d) : d.Admitted := by
  cases hcheck : checkPlaces r.name 0 r.blocks.elems with
  | error e =>
    rw [toDraft, hcheck] at h
    cases h
  | ok u =>
    rw [toDraft_of_checkPlaces hcheck] at h
    split at h
    · cases h
    · next g hedges =>
      cases h
      obtain ⟨hlanded, rfl⟩ := Func.rebuildEdges_eq_ok_iff_landed.mp hedges
      refine ⟨⟨r.outline, hlanded, rfl⟩, fun hgap => ?_⟩
      obtain ⟨b, hb, hk⟩ := exists_of_mem_gaps hgap
      have hplace := block?_outline ((checkPlaces_eq_ok_iff r.name).mp hcheck) hb
      obtain ⟨b', hb', hcontent⟩ := Func.exists_of_content? (r.outline.content?_rewired _) hplace
      exact ⟨b', hb', by rwa [Block.insns_congr hcontent]⟩

end FuncRecord

/-- **A value breaks the reading off exactly where a block is not there.** -/
theorem ofJson_eq_absent_iff {j : Json} : Draft.ofJson j = .error .absent ↔
    ∃ r, readObject FuncRecord.readMember {} j = .ok r ∧ r.LacksBlock := by
  rw [Draft.ofJson]
  cases readObject FuncRecord.readMember {} j with
  | error e => simp [Except.mapError, bind, Except.bind]
  | ok r =>
    simp only [Except.ok.injEq, exists_eq_left', ← FuncRecord.toDraft_eq_absent_iff]
    rfl

/-! ## Functions that are read -/

theorem admitted_of_ofJson {j : Json} {d : Draft} (h : Draft.ofJson j = .ok d) : d.Admitted := by
  rw [Draft.ofJson] at h
  cases hr : readObject FuncRecord.readMember {} j with
  | error e =>
    rw [hr] at h
    cases h
  | ok r =>
    rw [hr] at h
    exact FuncRecord.admitted_of_toDraft (r := r) h

/-- Each function that is listed stands somewhere in the text. -/
theorem Draft.Lists.exists_standsAt {cs rest : List Char} {ds : List Draft}
    (h : Draft.Lists cs ds rest) {d : Draft} (hd : d ∈ ds) : ∃ xs ys, Draft.StandsAt xs d ys := by
  induction h with
  | done => cases hd
  | next _ hd' _ ih =>
    rcases List.mem_cons.mp hd with rfl | hd
    · exact ⟨_, _, hd'⟩
    · exact ih hd

/-- **Every function that is read was let in so.** -/
theorem admitted_of_mem_readFuncs {s : String} {d : Draft} (hd : d ∈ (readFuncs s).1) :
    d.Admitted := by
  obtain ⟨rest, hlists, -⟩ := readFuncs_eq_iff.mp (show readFuncs s = (_, _) from rfl)
  obtain ⟨xs, ys, j, -, -, hj⟩ := hlists.exists_standsAt hd
  exact admitted_of_ofJson hj

/-- The value that breaks a reading off spoils the text there. -/
theorem spoils_absent_iff {cs : List Char} : Spoils cs .absent ↔
    ∃ j rest, Value cs j rest ∧ j.depth ≤ Json.maxDepth ∧ Draft.ofJson j = .error .absent := by
  constructor
  · intro h
    obtain ⟨j, rest, hv, hdepth⟩ := h.named nofun
    exact ⟨j, rest, hv, hdepth, h.fails j rest hv hdepth⟩
  · rintro ⟨j, rest, hv, hdepth, hj⟩
    exact spoils_of_readValue_eq_some (readValue_of_ofJson hv hdepth (by simp [hj])) hv hdepth hj

/-- **What is let in passes every check but two**: an instruction may be missing, or end a block before
the end of it.  The check names the first such fault, breaking off where an instruction is missing, and
a function without one is in order.  The reading itself breaks off exactly at a `null` that stands for a
block. -/
theorem readFuncs_admits_but_faults (s : String) :
    (∀ d ∈ (readFuncs s).1, d.verify = d.answer d.fault? ∧
      (d.verify = .ok () ↔ d.gaps = [] ∧ d.func.EndsLast) ∧
      (d.func.EndsLast → d.func.WellFormed)) ∧
    ∀ line, (readFuncs s).2 = some ⟨line, .absent⟩ ↔
      ∃ ds rest j rest' r, line = ds.length + 1 ∧ Draft.Lists s.toList ds rest ∧
        Value rest j rest' ∧ j.depth ≤ Json.maxDepth ∧
        readObject FuncRecord.readMember {} j = .ok r ∧ r.LacksBlock := by
  refine ⟨fun d hd => ?_, fun line => ⟨fun h => ?_, ?_⟩⟩
  · have hadmitted := admitted_of_mem_readFuncs hd
    exact ⟨hadmitted.verify_eq, hadmitted.verify_eq_ok_iff, hadmitted.wellFormed⟩
  · obtain ⟨rest, hlists, hline, hspoils⟩ := readFuncs_eq_iff.mp
      (show readFuncs s = (_, some _) from Prod.ext rfl h)
    obtain ⟨j, rest', hv, hdepth, hj⟩ := spoils_absent_iff.mp hspoils
    obtain ⟨r, hr, hlacks⟩ := ofJson_eq_absent_iff.mp hj
    exact ⟨_, rest, j, rest', r, hline.trans (Nat.add_comm ..), hlists, hv, hdepth, hr, hlacks⟩
  · rintro ⟨ds, rest, j, rest', r, rfl, hlists, hv, hdepth, hr, hlacks⟩
    have hspoils := spoils_absent_iff.mpr
      ⟨j, rest', hv, hdepth, ofJson_eq_absent_iff.mpr ⟨r, hr, hlacks⟩⟩
    have hends : ReadingEnds 1 ds.length rest (some ⟨ds.length + 1, .absent⟩) :=
      ⟨Nat.add_comm .., hspoils⟩
    rw [readFuncs_eq_iff.mpr ⟨rest, hlists, hends⟩]

/-- A function of one block. -/
def Func.ofInsns (is : List Insn) : Func :=
  { body := some [{ serial := 0, code := some is, next := noBlock }] }

/-- A function that returns at once, as text. -/
def returnsOnce : String :=
  "\x7b\"blocks\":[\x7b\"insns\":[\x7b\"op\":\"ret\"\x7d],\"next\":-1\x7d]\x7d"

theorem readFuncs_admits_returnsOnce :
    { func := Func.ofInsns [{ op := .ret }] } ∈ (readFuncs returnsOnce).1 ∧
      (Func.ofInsns [{ op := .ret }]).EndsLast ∧ (Func.ofInsns [{ op := .ret }]).WellFormed := by
  have hmem : { func := Func.ofInsns [{ op := .ret }] } ∈ (readFuncs returnsOnce).1 := by
    decide +kernel
  obtain ⟨-, hverify, hwell⟩ := (readFuncs_admits_but_faults returnsOnce).1 _ hmem
  have hok : Draft.verify { func := Func.ofInsns [{ op := .ret }] } = .ok () := by decide +kernel
  have hends := (hverify.mp hok).2
  exact ⟨hmem, hends, hwell hends⟩

/-- A function whose block goes on after it has returned, as text. -/
def returnsTwice : String :=
  "\x7b\"blocks\":[\x7b\"insns\":[\x7b\"op\":\"ret\"\x7d,\x7b\"op\":\"ret\"\x7d],\"next\":-1\x7d]\x7d"

/-- A function with an instruction that is not there, as text. -/
def lacksInsn : String := "\x7b\"blocks\":[\x7b\"insns\":[null],\"next\":-1\x7d]\x7d"

/-- A function with a block that is not there, as text. -/
def lacksBlock : String := "\x7b\"blocks\":[null]\x7d"

/-- **Neither does every function that is let in pass its check, nor is every check or every reading
brought to an end.** -/
theorem readFuncs_returnsTwice_lacksBlock :
    readFuncs returnsTwice = ([{ func := Func.ofInsns [{ op := .ret }, { op := .ret }] }], none) ∧
      Draft.verify { func := Func.ofInsns [{ op := .ret }, { op := .ret }] } =
        .error (.flow (.earlyEnd "" 0 .ret)) ∧
      (∃ d, readFuncs lacksInsn = ([d], none) ∧ d.verify = .error .absent) ∧
      readFuncs lacksBlock = ([], some ⟨1, .absent⟩) := by
  refine ⟨?_, ?_, ?_, ?_⟩
  · decide +kernel
  · decide +kernel
  · exact ⟨{ func := Func.ofInsns [{}], gaps := [(0, 0)] }, by decide +kernel, by decide +kernel⟩
  · decide +kernel

end Deflatten

import Mathlib.Algebra.Group.Nat.Defs
import Mathlib.Data.List.Basic
import Deflatten.Arm64.Assembly

/-!
# Proofs/Arm64/Blocks — basic blocks tile the instructions

The leaders ascend from 0, so block `i` reaches from the `i`-th leader to the next one or to the end
(`piece_of_getElem?`), and ends where a branch stands or another block begins.  A conditional branch
lacks a target exactly if it goes out of the function, and a fall-through exactly if it stands last
(`exists_open_iff`).

Of code that does not reach the end of the address space, an address is inside if an instruction
stands at it; of code that does, none is (`Consecutive.localIndex?_eq_none_iff`).
-/

namespace Deflatten

/-- **A block with an open end**: its conditional branch lacks its target or its fall-through. -/
def BasicBlock.Open (b : BasicBlock) : Prop :=
  ∃ br, b.branch? = some br ∧ br.isConditional = true ∧ (b.taken? = none ∨ b.next? = none)

theorem Branch.exists_target? {br : Branch} (h : br.isConditional = true) :
    ∃ t, br.target? = some t := by
  cases br with
  | ret => cases h
  | always => cases h
  | onFlags _ t => exact ⟨t, rfl⟩
  | onZero _ _ _ t => exact ⟨t, rfl⟩
  | onBit _ _ _ _ t => exact ⟨t, rfl⟩

namespace MachineFunc

variable {is : List Inst} {name : String} {b : BasicBlock} {i j k s : Nat}

/-! ## Leaders -/

theorem mem_branchTargets : s ∈ branchTargets is ↔
    ∃ x ∈ is, ∃ t b, x.branch? = some b ∧ b.target? = some t ∧ localIndex? is t = some s := by
  simp only [branchTargets, List.mem_filterMap, Option.bind_eq_some_iff]
  constructor
  · rintro ⟨x, hx, b, hb, t, ht, hs⟩
    exact ⟨x, hx, t, b, hb, ht, hs⟩
  · rintro ⟨x, hx, t, b, hb, ht, hs⟩
    exact ⟨x, hx, b, hb, t, ht, hs⟩

theorem mem_afterBranches : s ∈ afterBranches is ↔
    ∃ k x, is[k]? = some x ∧ x.branch?.isSome = true ∧ s = k + 1 := by
  simp only [afterBranches, List.mem_map, List.mem_filter, Prod.exists,
    List.mem_zipIdx_iff_getElem?]
  constructor
  · rintro ⟨x, k, ⟨hk, hb⟩, rfl⟩
    exact ⟨k, x, hk, hb, rfl⟩
  · rintro ⟨k, x, hk, hb, rfl⟩
    exact ⟨x, k, ⟨hk, hb⟩, rfl⟩

theorem mem_leaders : s ∈ leaders is ↔
    s < is.length ∧ (s = 0 ∨ s ∈ branchTargets is ∨ s ∈ afterBranches is) := by
  simp [leaders]

theorem pairwise_leaders (is : List Inst) : (leaders is).Pairwise (· < ·) :=
  List.pairwise_lt_range.filter _

/-- An address inside the function is that of one of its instructions. -/
theorem getElem?_of_indexOf? {a : UInt64} (h : indexOf? is a = some s) :
    ∃ x, is[s]? = some x ∧ x.addr = a := by
  obtain ⟨⟨x, k⟩, hfind, rfl⟩ := Option.map_eq_some_iff.mp h
  rw [List.findRev?_eq_find?_reverse] at hfind
  have hmem := List.mem_reverse.mp (List.mem_of_find?_eq_some hfind)
  exact ⟨x, List.mem_zipIdx_iff_getElem?.mp hmem, by simpa using List.find?_some hfind⟩

theorem indexOf?_eq_none_iff {a : UInt64} : indexOf? is a = none ↔ ∀ x ∈ is, x.addr ≠ a := by
  rw [indexOf?, Option.map_eq_none_iff, List.findRev?_eq_find?_reverse, List.find?_eq_none]
  constructor
  · intro h x hx
    obtain ⟨k, hk⟩ := List.mem_iff_getElem?.mp hx
    simpa using h (x, k) (List.mem_reverse.mpr (List.mem_zipIdx_iff_getElem?.mpr hk))
  · rintro h ⟨x, k⟩ hx
    have hk := List.mem_zipIdx_iff_getElem?.mp (List.mem_reverse.mp hx)
    simpa using h x (List.mem_of_getElem? hk)

theorem lt_of_localIndex? {a : UInt64} (h : localIndex? is a = some s) : s < is.length := by
  unfold localIndex? at h
  split at h
  · split at h
    · cases h
    · obtain ⟨x, hx, -⟩ := getElem?_of_indexOf? h
      exact (List.getElem?_eq_some_iff.mp hx).1
  · cases h

/-! ## Pieces -/

/-- Where the block that begins at the `i`-th leader stops: at the next leader or at the end. -/
def stopOf (is : List Inst) (i : Nat) : Nat := (leaders is)[i + 1]?.getD is.length

/-- The number of the block that begins at an instruction. -/
def leaderIndex? (is : List Inst) (s : Nat) : Option Nat := (leaders is).findIdx? (· == s)

theorem getElem?_cut (is : List Inst) (n : Nat) (starts : List Nat) (i : Nat) :
    (cut is n starts)[i]? = starts[i]?.map fun s =>
      { id := n + i, start := s,
        code := (is.drop s).take (starts[i + 1]?.getD is.length - s) } := by
  induction starts generalizing n i with
  | nil => simp [cut]
  | cons s starts ih =>
    cases i with
    | zero => cases starts <;> simp [cut]
    | succ i => simp [cut, ih, Nat.add_assoc, Nat.add_comm 1]

theorem blockAt?_cut (is : List Inst) (n : Nat) (starts : List Nat) (s : Nat) :
    blockAt? (cut is n starts) s = (starts.findIdx? (· == s)).map (n + ·) := by
  induction starts generalizing n with
  | nil => rfl
  | cons s' starts ih =>
    have ih := ih (n + 1)
    unfold blockAt? at ih ⊢
    rw [cut, List.find?_cons, List.findIdx?_cons]
    by_cases hs : s' = s
    · simp [hs]
    · simp only [hs, beq_eq_false_iff_ne.mpr, ne_eq, not_false_eq_true, if_false, ih,
        Option.map_map, Bool.false_eq_true]
      congr 1
      funext k
      simp only [Function.comp_apply]
      omega

theorem lt_length_of_leaderIndex? (h : leaderIndex? is s = some k) : k < (leaders is).length :=
  (List.findIdx?_eq_some_iff_getElem.mp h).1

theorem leaderIndex?_eq_none_iff : leaderIndex? is s = none ↔ s ∉ leaders is := by
  rw [leaderIndex?, List.findIdx?_eq_none_iff]
  constructor
  · intro h hs
    simpa using h s hs
  · intro h x hx
    have hne : x ≠ s := fun heq => h (heq ▸ hx)
    simpa using hne

/-- **Block `i` of the instructions**: where it stands, what it holds and where control goes from it. -/
structure Piece (is : List Inst) (i : Nat) (b : BasicBlock) : Prop where
  id_eq : b.id = i
  /-- It begins at its leader. -/
  start_eq : (leaders is)[i]? = some b.start
  /-- It stops where the next one begins. -/
  stop_eq : b.stop = stopOf is i
  start_lt : b.start < b.stop
  stop_le : b.stop ≤ is.length
  /-- Its instructions are those in between. -/
  code_eq : b.code = (is.drop b.start).take (b.stop - b.start)
  /-- Its branch goes to the block that begins at the target. -/
  taken_eq : b.taken? =
    (b.branch?.bind fun br => br.target?.bind (localIndex? is)).bind (leaderIndex? is)
  /-- It falls through to the block that begins where it stops, if it falls through. -/
  next_eq : b.next? = if (b.branch?.map Branch.isConditional).getD true then leaderIndex? is b.stop
    else none

theorem start_lt_stopOf (h : (leaders is)[i]? = some s) : s < stopOf is i := by
  unfold stopOf
  cases hnext : (leaders is)[i + 1]? with
  | none => exact (mem_leaders.mp (List.mem_of_getElem? h)).1
  | some t =>
    obtain ⟨hi, rfl⟩ := List.getElem?_eq_some_iff.mp h
    obtain ⟨hi', rfl⟩ := List.getElem?_eq_some_iff.mp hnext
    exact List.pairwise_iff_getElem.mp (pairwise_leaders is) i (i + 1) hi hi' (by omega)

theorem stopOf_le (is : List Inst) (i : Nat) : stopOf is i ≤ is.length := by
  unfold stopOf
  cases hnext : (leaders is)[i + 1]? with
  | none => exact Nat.le_refl _
  | some t => exact Nat.le_of_lt (mem_leaders.mp (List.mem_of_getElem? hnext)).1

/-- No block begins inside another. -/
theorem stopOf_le_of_mem (h : (leaders is)[i]? = some s) {t : Nat} (ht : t ∈ leaders is)
    (hst : s < t) : stopOf is i ≤ t := by
  have hlt := List.pairwise_iff_getElem.mp (pairwise_leaders is)
  obtain ⟨hi, rfl⟩ := List.getElem?_eq_some_iff.mp h
  obtain ⟨j, hj, rfl⟩ := List.getElem_of_mem ht
  have hij : i < j := by
    by_contra hle
    rcases Nat.lt_or_eq_of_le (Nat.le_of_not_lt hle) with hji | rfl
    · exact Nat.lt_asymm hst (hlt j i hj hi hji)
    · exact Nat.lt_irrefl _ hst
  have hnext : (leaders is)[i + 1]? = some (leaders is)[i + 1] :=
    List.getElem?_eq_getElem (by omega)
  rw [stopOf, hnext, Option.getD_some]
  rcases Nat.lt_or_eq_of_le (Nat.succ_le_of_lt hij) with hlt' | heq
  · exact Nat.le_of_lt (hlt (i + 1) j (by omega) hj hlt')
  · simp [← heq]

theorem length_blocks_ofInsts (name : String) (is : List Inst) :
    (ofInsts name is).blocks.length = (leaders is).length := by
  have hcut : ∀ (n : Nat) (starts : List Nat), (cut is n starts).length = starts.length := by
    intro n starts
    induction starts generalizing n with
    | nil => rfl
    | cons s starts ih => rw [cut, List.length_cons, List.length_cons, ih]
  simp [ofInsts, hcut]

/-- **The blocks of a function are its pieces, in order.** -/
theorem piece_of_getElem? (h : (ofInsts name is).blocks[i]? = some b) : Piece is i b := by
  rw [ofInsts, List.getElem?_map, getElem?_cut, Option.map_map, Option.map_eq_some_iff] at h
  obtain ⟨s, hs, rfl⟩ := h
  have hlt := start_lt_stopOf hs
  have hle := stopOf_le is i
  have hstop : s + ((is.drop s).take (stopOf is i - s)).length = stopOf is i := by
    simp only [List.length_take, List.length_drop]
    omega
  have hat : ∀ t, blockAt? (cut is 0 (leaders is)) t = leaderIndex? is t := fun t => by
    simp [blockAt?_cut, leaderIndex?]
  exact {
    id_eq := Nat.zero_add i
    start_eq := hs
    stop_eq := hstop
    start_lt := Nat.lt_of_lt_of_eq hlt hstop.symm
    stop_le := Nat.le_trans (Nat.le_of_eq hstop) hle
    code_eq := congrArg (fun n => (is.drop s).take (n - s)) hstop.symm
    taken_eq := by
      simp only [link, Function.comp_apply, funext hat]
      rfl
    next_eq := by
      simp only [link, Function.comp_apply, hat]
      rfl }

/-- **Every instruction stands in a block.** -/
theorem exists_piece (hk : k < is.length) :
    ∃ i s, (leaders is)[i]? = some s ∧ s ≤ k ∧ k < stopOf is i := by
  have key : ∀ (starts : List Nat) (n : Nat), k < n → (∃ s, starts.head? = some s ∧ s ≤ k) →
      ∃ i s, starts[i]? = some s ∧ s ≤ k ∧ k < starts[i + 1]?.getD n := by
    intro starts n hn
    induction starts with
    | nil =>
      rintro ⟨s, hs, -⟩
      cases hs
    | cons s starts ih =>
      rintro ⟨_, ⟨⟩, hs⟩
      cases starts with
      | nil => exact ⟨0, s, rfl, hs, hn⟩
      | cons t starts =>
        by_cases ht : k < t
        · exact ⟨0, s, rfl, hs, ht⟩
        · obtain ⟨i, u, hi, hu, hlt⟩ := ih ⟨t, rfl, by omega⟩
          exact ⟨i + 1, u, hi, hu, hlt⟩
  refine key (leaders is) is.length hk ?_
  have hzero : 0 ∈ leaders is := mem_leaders.mpr ⟨Nat.zero_lt_of_lt hk, .inl rfl⟩
  obtain ⟨s, starts, hs⟩ := List.exists_cons_of_ne_nil (List.ne_nil_of_mem hzero)
  refine ⟨s, by rw [hs]; rfl, ?_⟩
  have hsorted := pairwise_leaders is
  rw [hs] at hzero hsorted
  rcases List.mem_cons.mp hzero with h | h
  · omega
  · exact absurd ((List.pairwise_cons.mp hsorted).1 0 h) (Nat.not_lt_zero _)

/-- The branch of a block is the instruction in front of where it stops. -/
theorem Piece.branch?_eq (h : Piece is i b) : b.branch? = (is[b.stop - 1]?).bind Inst.branch? := by
  have hlt := h.start_lt
  have hle := h.stop_le
  have hlen : ((is.drop b.start).take (b.stop - b.start)).length = b.stop - b.start := by
    simp only [List.length_take, List.length_drop]
    omega
  rw [BasicBlock.branch?, h.code_eq, List.getLast?_eq_getElem?, hlen, List.getElem?_take,
    if_pos (by omega), List.getElem?_drop, show b.start + (b.stop - b.start - 1) = b.stop - 1 by omega]

/-- **A branch ends a block.** -/
theorem exists_getElem?_of_branch (name : String) {x : Inst} (hx : is[k]? = some x)
    (hb : x.branch?.isSome = true) : ∃ (i : Nat) (b : BasicBlock),
      (ofInsts name is).blocks[i]? = some b ∧ b.stop = k + 1 ∧ b.branch? = x.branch? := by
  have hk := (List.getElem?_eq_some_iff.mp hx).1
  obtain ⟨i, s, hs, hsk, hlt⟩ := exists_piece hk
  have hi : i < (ofInsts name is).blocks.length := by
    rw [length_blocks_ofInsts]
    exact (List.getElem?_eq_some_iff.mp hs).1
  have hblock := List.getElem?_eq_getElem hi
  have hpiece := piece_of_getElem? hblock
  have hstop : stopOf is i = k + 1 := by
    have hle := stopOf_le is i
    by_cases hlast : k + 1 < is.length
    · have hmem : k + 1 ∈ leaders is :=
        mem_leaders.mpr ⟨hlast, .inr (.inr (mem_afterBranches.mpr ⟨k, x, hx, hb, rfl⟩))⟩
      have := stopOf_le_of_mem hs hmem (by omega)
      omega
    · omega
  refine ⟨i, _, hblock, hpiece.stop_eq.trans hstop, ?_⟩
  rw [hpiece.branch?_eq, hpiece.stop_eq, hstop, Nat.add_sub_cancel, hx]
  rfl

/-! ## Branches out of a function -/

theorem Piece.taken?_lt (h : Piece is i b) (ht : b.taken? = some k) :
    k < (leaders is).length := by
  rw [h.taken_eq] at ht
  obtain ⟨s, -, hs⟩ := Option.bind_eq_some_iff.mp ht
  exact lt_length_of_leaderIndex? hs

theorem Piece.next?_lt (h : Piece is i b) (hn : b.next? = some k) : k < (leaders is).length := by
  rw [h.next_eq] at hn
  split at hn
  · exact lt_length_of_leaderIndex? hn
  · cases hn

/-- **A block falls through to a later one.** -/
theorem Piece.lt_next? (h : Piece is i b) (hn : b.next? = some k) : i < k := by
  have hat : (leaders is)[k]? = some b.stop := by
    rw [h.next_eq] at hn
    split at hn
    · obtain ⟨hlt, heq, -⟩ := List.findIdx?_eq_some_iff_getElem.mp hn
      rw [List.getElem?_eq_getElem hlt, beq_iff_eq.mp heq]
    · cases hn
  obtain ⟨hi, hstart⟩ := List.getElem?_eq_some_iff.mp h.start_eq
  obtain ⟨hk, hstop⟩ := List.getElem?_eq_some_iff.mp hat
  have hlt := h.start_lt
  by_contra hle
  rcases Nat.lt_or_eq_of_le (Nat.le_of_not_lt hle) with hki | rfl
  · have := List.pairwise_iff_getElem.mp (pairwise_leaders is) k i hk hi hki
    omega
  · omega

/-- The branch of a block has no target inside exactly if the address is not. -/
theorem Piece.taken?_eq_none_iff (h : Piece is i b) {br : Branch} {t : UInt64}
    (hb : b.branch? = some br) (ht : br.target? = some t) :
    b.taken? = none ↔ localIndex? is t = none := by
  rw [h.taken_eq, hb, Option.bind_some, ht, Option.bind_some, Option.bind_eq_none_iff]
  constructor
  · intro hnone
    cases hs : localIndex? is t with
    | none => rfl
    | some s =>
      have hlt := h.start_lt
      have hbr := h.branch?_eq.symm.trans hb
      obtain ⟨x, hx, hxb⟩ := Option.bind_eq_some_iff.mp hbr
      have hmem : s ∈ leaders is := mem_leaders.mpr ⟨lt_of_localIndex? hs, .inr (.inl
        (mem_branchTargets.mpr ⟨x, List.mem_of_getElem? hx, t, br, hxb, ht, hs⟩))⟩
      exact absurd hmem (leaderIndex?_eq_none_iff.mp (hnone s hs))
  · intro hnone s hs
    rw [hnone] at hs
    cases hs

/-- A conditional branch has no fall-through exactly if it stands last. -/
theorem Piece.next?_eq_none_iff (h : Piece is i b) {br : Branch} (hb : b.branch? = some br)
    (hc : br.isConditional = true) : b.next? = none ↔ b.stop = is.length := by
  rw [h.next_eq, hb, Option.map_some, hc, Option.getD_some, if_pos rfl, leaderIndex?_eq_none_iff,
    mem_leaders]
  have hle := h.stop_le
  have hlt := h.start_lt
  have hbr := h.branch?_eq.symm.trans hb
  obtain ⟨x, hx, hxb⟩ := Option.bind_eq_some_iff.mp hbr
  have hafter : b.stop ∈ afterBranches is :=
    mem_afterBranches.mpr ⟨b.stop - 1, x, hx, by rw [hxb]; rfl, by omega⟩
  constructor
  · intro hno
    by_contra hne
    exact hno ⟨by omega, .inr (.inr hafter)⟩
  · rintro heq ⟨hlt', -⟩
    omega

/-- **Blocks with open ends are conditional branches that stand last or go out of the function.** -/
theorem exists_open_iff (name : String) : (∃ b ∈ (ofInsts name is).blocks, b.Open) ↔
    ∃ (k : Nat) (x : Inst) (br : Branch) (t : UInt64), is[k]? = some x ∧ x.branch? = some br ∧
      br.isConditional = true ∧ br.target? = some t ∧
      (k + 1 = is.length ∨ localIndex? is t = none) := by
  constructor
  · rintro ⟨b, hmem, br, hb, hc, hopen⟩
    obtain ⟨i, hi⟩ := List.mem_iff_getElem?.mp hmem
    have hpiece := piece_of_getElem? hi
    obtain ⟨x, hx, hxb⟩ := Option.bind_eq_some_iff.mp (hpiece.branch?_eq.symm.trans hb)
    obtain ⟨t, ht⟩ := Branch.exists_target? hc
    have hlt := hpiece.start_lt
    refine ⟨b.stop - 1, x, br, t, hx, hxb, hc, ht, ?_⟩
    rcases hopen with hopen | hopen
    · exact .inr ((hpiece.taken?_eq_none_iff hb ht).mp hopen)
    · have := (hpiece.next?_eq_none_iff hb hc).mp hopen
      exact .inl (by omega)
  · rintro ⟨k, x, br, t, hx, hxb, hc, ht, hout⟩
    obtain ⟨i, b, hi, hstop, hb⟩ := exists_getElem?_of_branch name hx (by rw [hxb]; rfl)
    have hpiece := piece_of_getElem? hi
    have hbr := hb.trans hxb
    refine ⟨b, List.mem_of_getElem? hi, br, hbr, hc, ?_⟩
    rcases hout with hlast | hout
    · exact .inr ((hpiece.next?_eq_none_iff hbr hc).mpr (hstop.trans hlast))
    · exact .inl ((hpiece.taken?_eq_none_iff hbr ht).mpr hout)

/-! ## Addresses -/

/-- Instructions that stand one after the other from an address on. -/
def Consecutive (base : UInt64) (is : List Inst) : Prop :=
  ∀ (k : Nat) (x : Inst), is[k]? = some x → x.addr = base + UInt64.ofNat (4 * k)

theorem consecutive_ofBytes : ∀ (limit : Nat) (base : UInt64) (bytes : List UInt8),
    Consecutive base (Inst.ofBytes base limit bytes) ∧
      (Inst.ofBytes base limit bytes).length ≤ limit
  | 0, base, bytes => by
    refine ⟨fun k x hk => ?_, ?_⟩
    · simp [Inst.ofBytes] at hk
    · simp [Inst.ofBytes]
  | limit + 1, base, a :: b :: c :: d :: rest => by
    obtain ⟨haddr, hlen⟩ := consecutive_ofBytes limit (base + 4) rest
    rw [Inst.ofBytes]
    refine ⟨fun k x hk => ?_, by rw [List.length_cons]; omega⟩
    cases k with
    | zero =>
      obtain rfl : Inst.ofWord base (.ofBytes a b c d) = x := by simpa using hk
      simp [Inst.ofWord]
    | succ k =>
      rw [haddr k x hk, show 4 * (k + 1) = 4 + 4 * k by omega, UInt64.ofNat_add,
        ← UInt64.add_assoc]
      rfl
  | limit + 1, _, [] => ⟨fun k x hk => by simp [Inst.ofBytes] at hk, by simp [Inst.ofBytes]⟩
  | limit + 1, _, [_] => ⟨fun k x hk => by simp [Inst.ofBytes] at hk, by simp [Inst.ofBytes]⟩
  | limit + 1, _, [_, _] => ⟨fun k x hk => by simp [Inst.ofBytes] at hk, by simp [Inst.ofBytes]⟩
  | limit + 1, _, [_, _, _] => ⟨fun k x hk => by simp [Inst.ofBytes] at hk, by simp [Inst.ofBytes]⟩

variable {base : UInt64}

theorem Consecutive.toNat_addr (h : Consecutive base is) (hlen : 4 * is.length < 2 ^ 64) {x : Inst}
    (hx : is[k]? = some x) : x.addr.toNat = (base.toNat + 4 * k) % 2 ^ 64 := by
  have hk := (List.getElem?_eq_some_iff.mp hx).1
  rw [h k x hx, UInt64.toNat_add, UInt64.toNat_ofNat', Nat.mod_eq_of_lt (show 4 * k < 2 ^ 64 by omega)]

/-- **Which addresses are inside.**  Of code that reaches the end of the address space none is: the
end of its last instruction wraps round to a small address. -/
theorem Consecutive.localIndex?_eq_none_iff (h : Consecutive base is)
    (hlen : 4 * is.length < 2 ^ 64) {t : UInt64} : localIndex? is t = none ↔
      2 ^ 64 ≤ base.toNat + 4 * is.length ∨ ∀ x ∈ is, x.addr ≠ t := by
  cases is with
  | nil => simp [localIndex?]
  | cons first rest =>
    obtain ⟨last, hlast⟩ : ∃ last, (first :: rest).getLast? = some last :=
      Option.ne_none_iff_exists'.mp (by simp)
    have hfirst := h.toNat_addr hlen (k := 0) (x := first) rfl
    have hend := h.toNat_addr hlen (by rwa [List.getLast?_eq_getElem?] at hlast)
    have hbase := base.toNat_lt
    have hlength : (first :: rest).length = rest.length + 1 := rfl
    rw [Nat.mul_zero, Nat.add_zero, Nat.mod_eq_of_lt hbase] at hfirst
    have hstop : (last.addr + 4).toNat = (base.toNat + 4 * (first :: rest).length) % 2 ^ 64 := by
      rw [UInt64.toNat_add, hend, hlength]
      change ((base.toNat + 4 * (rest.length + 1 - 1)) % 2 ^ 64 + 4) % 2 ^ 64 = _
      omega
    simp only [localIndex?, List.head?_cons, hlast, Bool.or_eq_true, decide_eq_true_eq,
      UInt64.lt_iff_toNat_lt, ge_iff_le, UInt64.le_iff_toNat_le, hfirst, hstop]
    have ht := t.toNat_lt
    by_cases hwraps : 2 ^ 64 ≤ base.toNat + 4 * (first :: rest).length
    · rw [if_pos (by omega)]
      exact iff_of_true rfl (.inl hwraps)
    · rw [Nat.mod_eq_of_lt (by omega)]
      simp only [hwraps, false_or]
      split
      · next hout =>
        refine iff_of_true rfl fun x hx heq => ?_
        obtain ⟨k, hk⟩ := List.mem_iff_getElem?.mp hx
        have haddr := h.toNat_addr hlen hk
        have hklt := (List.getElem?_eq_some_iff.mp hk).1
        rw [heq, Nat.mod_eq_of_lt (by omega)] at haddr
        omega
      · exact indexOf?_eq_none_iff

end MachineFunc

end Deflatten

import Deflatten.Proofs.Arm64.Blocks

/-!
# Proofs/Arm64/Tiling — what the basic blocks of a function are

In code that ends before the address space does, an address is inside the function exactly if an
instruction stands at it (`Consecutive.localIndex?_eq_some_iff`).  So the blocks can be described by the
instructions alone (`Tiling`): they tile them, a branch stands last in its block, and where control goes
from a block is told by its last instruction and by what stands at the target (`tiling_ofInsts`).
-/

namespace Deflatten

/-- **Blocks tile the numbers from `lo` up to `hi`**: each has an instruction at least, and begins where
the one before it stops. -/
def BasicBlock.Tiles : (lo : Nat) → List BasicBlock → (hi : Nat) → Prop
  | lo, [], hi => lo = hi
  | lo, b :: bs, hi => b.start = lo ∧ lo < b.stop ∧ Tiles b.stop bs hi

namespace MachineFunc

variable {is : List Inst} {name : String} {b : BasicBlock} {i j k n s : Nat} {base t : UInt64}

/-! ## Places -/

theorem leaderIndex?_eq_some_iff : leaderIndex? is s = some k ↔ (leaders is)[k]? = some s := by
  rw [leaderIndex?, List.findIdx?_eq_some_iff_getElem]
  constructor
  · rintro ⟨hk, hs, -⟩
    rw [List.getElem?_eq_getElem hk, beq_iff_eq.mp hs]
  · intro h
    obtain ⟨hk, rfl⟩ := List.getElem?_eq_some_iff.mp h
    refine ⟨hk, beq_self_eq_true _, fun j hj heq => ?_⟩
    -- an earlier leader is smaller
    have hlt := List.pairwise_iff_getElem.mp (pairwise_leaders is) j k (by omega) hk hj
    exact Nat.ne_of_lt hlt (beq_iff_eq.mp heq)

/-- The block after block `i` begins where block `i` stops. -/
theorem leaderIndex?_stopOf (is : List Inst) (i : Nat) :
    leaderIndex? is (stopOf is i) = if i + 1 < (leaders is).length then some (i + 1) else none := by
  unfold stopOf
  split
  · next h =>
    rw [leaderIndex?_eq_some_iff, List.getElem?_eq_getElem h]
    rfl
  · next h =>
    rw [List.getElem?_eq_none (Nat.le_of_not_lt h), leaderIndex?_eq_none_iff, mem_leaders]
    exact fun hmem => Nat.lt_irrefl _ hmem.1

/-- **The instruction at an address inside the function.** -/
theorem Consecutive.localIndex?_eq_some_iff (h : Consecutive base is)
    (hend : base.toNat + 4 * is.length < 2 ^ 64) :
    localIndex? is t = some k ↔ ∃ y, is[k]? = some y ∧ y.addr = t := by
  have hlen : 4 * is.length < 2 ^ 64 := by omega
  have hplace : ∀ {k : Nat} {y : Inst}, is[k]? = some y → y.addr.toNat = base.toNat + 4 * k := by
    intro k y hk
    have hlt := (List.getElem?_eq_some_iff.mp hk).1
    rw [h.toNat_addr hlen hk, Nat.mod_eq_of_lt (by omega)]
  have hfound : ∀ {k : Nat}, localIndex? is t = some k → ∃ y, is[k]? = some y ∧ y.addr = t := by
    intro k hk
    unfold localIndex? at hk
    split at hk
    · split at hk
      · cases hk
      · exact getElem?_of_indexOf? hk
    · cases hk
  refine ⟨hfound, ?_⟩
  rintro ⟨y, hy, rfl⟩
  cases hk : localIndex? is y.addr with
  | none =>
    rcases (h.localIndex?_eq_none_iff hlen).mp hk with hwraps | hnone
    · omega
    · exact absurd rfl (hnone y (List.mem_of_getElem? hy))
  | some k' =>
    -- no two instructions have one address
    obtain ⟨y', hy', haddr⟩ := hfound hk
    have hk' := hplace hy'
    rw [haddr, hplace hy] at hk'
    rw [show k' = k by omega]

/-! ## Tiles -/

theorem tiles_cut {lo : Nat} {starts : List Nat} (hsorted : (lo :: starts).Pairwise (· < ·))
    (hinside : ∀ s ∈ lo :: starts, s < is.length) (n : Nat) :
    BasicBlock.Tiles lo (cut is n (lo :: starts)) is.length := by
  induction starts generalizing lo n with
  | nil =>
    have hlo := hinside lo (by simp)
    refine ⟨rfl, ?_, ?_⟩
    · simp only [BasicBlock.stop, List.headD_nil, List.length_take, List.length_drop]
      omega
    · simp only [cut, BasicBlock.Tiles, BasicBlock.stop, List.headD_nil, List.length_take,
        List.length_drop]
      omega
  | cons s starts ih =>
    have hlo : lo < s := (List.pairwise_cons.mp hsorted).1 s (by simp)
    have hs := hinside s (by simp)
    have hstop : lo + ((is.drop lo).take (s - lo)).length = s := by
      simp only [List.length_take, List.length_drop]
      omega
    refine ⟨rfl, by simpa only [BasicBlock.stop, List.headD_cons, hstop] using hlo, ?_⟩
    simp only [BasicBlock.stop, List.headD_cons, hstop]
    exact ih (List.pairwise_cons.mp hsorted).2 (fun x hx => hinside x (List.mem_cons_of_mem _ hx)) _

/-- Links between blocks do not move them. -/
theorem tiles_map_link {lo hi : Nat} {bs cs : List BasicBlock} (h : BasicBlock.Tiles lo bs hi) :
    BasicBlock.Tiles lo (bs.map (link is cs)) hi := by
  induction bs generalizing lo with
  | nil => exact h
  | cons b bs ih => exact ⟨h.1, h.2.1, ih h.2.2⟩

/-- **The blocks of a function tile its instructions.** -/
theorem tiles_ofInsts (name : String) (is : List Inst) :
    BasicBlock.Tiles 0 (ofInsts name is).blocks is.length := by
  refine tiles_map_link ?_
  cases hl : leaders is with
  | nil =>
    by_contra hne
    have hmem : 0 ∈ leaders is := mem_leaders.mpr ⟨Nat.pos_of_ne_zero (Ne.symm hne), .inl rfl⟩
    rw [hl] at hmem
    cases hmem
  | cons s starts =>
    have hsorted := hl ▸ pairwise_leaders is
    have hinside : ∀ x ∈ s :: starts, x < is.length := fun x hx => (mem_leaders.mp (hl ▸ hx)).1
    have hzero : 0 ∈ s :: starts :=
      hl ▸ mem_leaders.mpr ⟨Nat.zero_lt_of_lt (hinside s (by simp)), .inl rfl⟩
    obtain rfl : s = 0 := by
      rcases List.mem_cons.mp hzero with h | h
      · exact h.symm
      · exact absurd ((List.pairwise_cons.mp hsorted).1 0 h) (Nat.not_lt_zero _)
    exact tiles_cut hsorted hinside 0

/-! ## Blocks by their instructions -/

/-- **How instructions fall into basic blocks**, told by the instructions and their addresses. -/
structure Tiling (is : List Inst) (bs : List BasicBlock) : Prop where
  /-- Blocks are numbered in order. -/
  id_eq : ∀ (i : Nat) (b : BasicBlock), bs[i]? = some b → b.id = i
  /-- They are not empty, and one begins where the other stops, from the first instruction to the
  last. -/
  tiles : BasicBlock.Tiles 0 bs is.length
  /-- Each holds the instructions between its ends. -/
  code_eq : ∀ b ∈ bs, b.code = (is.drop b.start).take (b.stop - b.start)
  /-- A branch stands last in its block. -/
  branch_last : ∀ b ∈ bs, ∀ (k : Nat) (x : Inst), is[k]? = some x → b.start ≤ k → k < b.stop →
    x.branch?.isSome = true → k + 1 = b.stop
  /-- Where a branch goes inside the function, a block begins. -/
  target_start : ∀ x ∈ is, ∀ br t, x.branch? = some br → br.target? = some t →
    ∀ (k : Nat) (y : Inst), is[k]? = some y → y.addr = t → ∃ b ∈ bs, b.start = k
  /-- The branch of a block goes to the block that begins at the target, if an instruction of the
  function stands there. -/
  taken_eq_some : ∀ b ∈ bs, ∀ br t, b.branch? = some br → br.target? = some t →
    ∀ (k : Nat) (y : Inst), is[k]? = some y → y.addr = t →
      ∃ (j : Nat) (c : BasicBlock), bs[j]? = some c ∧ c.start = k ∧ b.taken? = some j
  /-- In every other case there is no such block. -/
  taken_eq_none : ∀ b ∈ bs, (∀ br t, b.branch? = some br → br.target? = some t →
    ∀ y ∈ is, y.addr ≠ t) → b.taken? = none
  /-- Control falls through to the next block, if there is one, from a block without a branch and from
  one with a conditional branch, and from no other. -/
  next_eq : ∀ (i : Nat) (b : BasicBlock), bs[i]? = some b → ∀ j, b.next? = some j ↔
    j = i + 1 ∧ i + 1 < bs.length ∧ ∀ br, b.branch? = some br → br.isConditional = true
  /-- A block is terminal if it returns, or always branches to where no instruction of the function
  stands. -/
  isTerminal_iff : ∀ b ∈ bs, b.isTerminal = true ↔
    b.branch? = some .ret ∨ ∃ t, b.branch? = some (.always t) ∧ ∀ y ∈ is, y.addr ≠ t
  /-- Edges lead to the target and to the next block, and nowhere else. -/
  edges_eq : ∀ b ∈ bs, b.edges.map Prod.fst = b.taken?.toList ++ b.next?.toList

theorem getElem?_blocks_of_leader (name : String) (h : (leaders is)[i]? = some s) :
    ∃ b, (ofInsts name is).blocks[i]? = some b ∧ b.start = s := by
  have hi : i < (ofInsts name is).blocks.length := by
    rw [length_blocks_ofInsts]
    exact (List.getElem?_eq_some_iff.mp h).1
  have hb := List.getElem?_eq_getElem hi
  exact ⟨_, hb, Option.some.inj ((piece_of_getElem? hb).start_eq.symm.trans h)⟩

/-- A branch is followed by the end of its block. -/
theorem Piece.branch_last (h : Piece is i b) {x : Inst} (hx : is[k]? = some x) (hlo : b.start ≤ k)
    (hhi : k < b.stop) (hbranch : x.branch?.isSome = true) : k + 1 = b.stop := by
  have hle := h.stop_le
  rcases Nat.lt_or_ge (k + 1) is.length with hlt | hge
  · have hmem : k + 1 ∈ leaders is :=
      mem_leaders.mpr ⟨hlt, .inr (.inr (mem_afterBranches.mpr ⟨k, x, hx, hbranch, rfl⟩))⟩
    have hstop := stopOf_le_of_mem h.start_eq hmem (by omega)
    rw [← h.stop_eq] at hstop
    omega
  · omega

/-- The target of a branch inside the function is a leader. -/
theorem mem_leaders_of_target {x : Inst} {br : Branch} (hx : x ∈ is) (hbr : x.branch? = some br)
    (ht : br.target? = some t) (hk : localIndex? is t = some k) : k ∈ leaders is :=
  mem_leaders.mpr ⟨lt_of_localIndex? hk, .inr (.inl (mem_branchTargets.mpr ⟨x, hx, t, br, hbr, ht, hk⟩))⟩

/-- The branch of a block stands in it. -/
theorem Piece.exists_branch (h : Piece is i b) {br : Branch} (hbr : b.branch? = some br) :
    ∃ x ∈ is, x.branch? = some br := by
  obtain ⟨x, hx, hxb⟩ := Option.bind_eq_some_iff.mp (h.branch?_eq.symm.trans hbr)
  exact ⟨x, List.mem_of_getElem? hx, hxb⟩

/-- The next block, as the order of the blocks tells it. -/
theorem Piece.next?_eq_some_iff (h : Piece is i b) : b.next? = some j ↔
    j = i + 1 ∧ i + 1 < (leaders is).length ∧ ∀ br, b.branch? = some br → br.isConditional = true := by
  have hfalls : (b.branch?.map Branch.isConditional).getD true = true ↔
      ∀ br, b.branch? = some br → br.isConditional = true := by
    cases b.branch? <;> simp
  rw [h.next_eq, h.stop_eq, leaderIndex?_stopOf]
  simp only [Option.ite_none_right_eq_some, Option.some.injEq, hfalls]
  constructor
  · rintro ⟨hc, hlast, rfl⟩
    exact ⟨rfl, hlast, hc⟩
  · rintro ⟨rfl, hlast, hc⟩
    exact ⟨hc, hlast, rfl⟩

/-- The branch of a block goes to the block that begins at its target. -/
theorem Consecutive.exists_taken (h : Consecutive base is) (hend : base.toNat + 4 * is.length < 2 ^ 64)
    (hp : Piece is i b) {br : Branch} (hbr : b.branch? = some br) (ht : br.target? = some t) {y : Inst}
    (hk : is[k]? = some y) (hy : y.addr = t) (name : String) :
    ∃ (j : Nat) (c : BasicBlock), (ofInsts name is).blocks[j]? = some c ∧ c.start = k ∧
      b.taken? = some j := by
  obtain ⟨x, hx, hxbr⟩ := hp.exists_branch hbr
  have hat := (h.localIndex?_eq_some_iff hend).mpr ⟨y, hk, hy⟩
  obtain ⟨j, hj⟩ := List.mem_iff_getElem?.mp (mem_leaders_of_target hx hxbr ht hat)
  obtain ⟨c, hc, hstart⟩ := getElem?_blocks_of_leader name hj
  refine ⟨j, c, hc, hstart, ?_⟩
  rw [hp.taken_eq, hbr, Option.bind_some, ht, Option.bind_some, hat, Option.bind_some]
  exact leaderIndex?_eq_some_iff.mpr hj

/-- It goes to no block if no instruction of the function stands there. -/
theorem Consecutive.taken?_eq_none (h : Consecutive base is) (hend : base.toNat + 4 * is.length < 2 ^ 64)
    (hp : Piece is i b) (hout : ∀ br t, b.branch? = some br → br.target? = some t →
      ∀ y ∈ is, y.addr ≠ t) : b.taken? = none := by
  rw [hp.taken_eq]
  cases hbr : b.branch? with
  | none => rfl
  | some br =>
    cases ht : br.target? with
    | none => simp [ht]
    | some t =>
      have hnone : localIndex? is t = none :=
        (h.localIndex?_eq_none_iff (by omega)).mpr (.inr (hout br t hbr ht))
      simp [ht, hnone]

/-- A block is terminal if control leaves the function for good after it. -/
theorem Consecutive.isTerminal_iff (h : Consecutive base is) (hend : base.toNat + 4 * is.length < 2 ^ 64)
    (hp : Piece is i b) : b.isTerminal = true ↔
      b.branch? = some .ret ∨ ∃ t, b.branch? = some (.always t) ∧ ∀ y ∈ is, y.addr ≠ t := by
  unfold BasicBlock.isTerminal
  split
  · next hbr => simp [hbr]
  · next t hbr =>
    simp only [hbr, Option.some.injEq, Branch.always.injEq, exists_eq_left', reduceCtorEq, false_or,
      Option.isNone_iff_eq_none]
    constructor
    · intro hnone y hy heq
      obtain ⟨k, hk⟩ := List.mem_iff_getElem?.mp hy
      obtain ⟨j, -, -, -, hj⟩ := h.exists_taken hend hp hbr rfl hk heq ""
      cases hnone.symm.trans hj
    · intro hout
      refine h.taken?_eq_none hend hp fun br t' hbr' ht' => ?_
      obtain rfl := Option.mem_unique hbr hbr'
      exact Option.some.inj ht' ▸ hout
  · next hret halways =>
    refine iff_of_false Bool.false_ne_true ?_
    rintro (hbr | ⟨t, hbr, -⟩)
    · exact hret hbr
    · exact halways t hbr

/-- **The basic blocks of a function are told by its instructions**, wherever these stand one after the
other and end before the address space does. -/
theorem tiling_ofInsts (h : Consecutive base is) (hend : base.toNat + 4 * is.length < 2 ^ 64)
    (name : String) : Tiling is (ofInsts name is).blocks := by
  have hpiece : ∀ b ∈ (ofInsts name is).blocks, ∃ i, Piece is i b := by
    intro b hb
    obtain ⟨i, hi⟩ := List.mem_iff_getElem?.mp hb
    exact ⟨i, piece_of_getElem? hi⟩
  exact {
    id_eq := fun i b hb => (piece_of_getElem? hb).id_eq
    tiles := tiles_ofInsts name is
    code_eq := fun b hb => (hpiece b hb).elim fun _ hp => hp.code_eq
    branch_last := fun b hb k x hx hlo hhi hbr =>
      (hpiece b hb).elim fun _ hp => hp.branch_last hx hlo hhi hbr
    target_start := by
      intro x hx br t hbr ht k y hk hy
      have hat := (h.localIndex?_eq_some_iff hend).mpr ⟨y, hk, hy⟩
      obtain ⟨j, hj⟩ := List.mem_iff_getElem?.mp (mem_leaders_of_target hx hbr ht hat)
      obtain ⟨c, hc, hstart⟩ := getElem?_blocks_of_leader name hj
      exact ⟨c, List.mem_of_getElem? hc, hstart⟩
    taken_eq_some := fun b hb br t hbr ht k y hk hy =>
      (hpiece b hb).elim fun _ hp => h.exists_taken hend hp hbr ht hk hy name
    taken_eq_none := fun b hb hout => (hpiece b hb).elim fun _ hp => h.taken?_eq_none hend hp hout
    next_eq := fun i b hb j => by
      rw [length_blocks_ofInsts]
      exact (piece_of_getElem? hb).next?_eq_some_iff
    isTerminal_iff := fun b hb => (hpiece b hb).elim fun _ hp => h.isTerminal_iff hend hp
    edges_eq := fun b _ => by
      cases ht : b.taken? <;> cases hn : b.next? <;> simp [BasicBlock.edges, ht, hn] }

/-- Goes round while a register is not zero, and returns. -/
def roundAndRound : List Inst :=
  Inst.ofBytes 0x1000 3 [0x40, 0x00, 0x00, 0xB4, 0xFF, 0xFF, 0xFF, 0x17, 0xC0, 0x03, 0x5F, 0xD6]

theorem tiling_roundAndRound :
    Consecutive 0x1000 roundAndRound ∧ (0x1000 : UInt64).toNat + 4 * roundAndRound.length < 2 ^ 64 ∧
      Tiling roundAndRound (ofInsts "f" roundAndRound).blocks :=
  have hconsec : Consecutive 0x1000 roundAndRound := (consecutive_ofBytes 3 0x1000 _).1
  have hend : (0x1000 : UInt64).toNat + 4 * roundAndRound.length < 2 ^ 64 := by decide
  ⟨hconsec, hend, tiling_ofInsts hconsec hend "f"⟩

end MachineFunc

end Deflatten

import Deflatten.Proofs.Binary64.Rounding
import Deflatten.Proofs.Dispatch.Discovery
import Deflatten.Proofs.Flattening.Dispatcher
import Mathlib.Algebra.Group.Action.Defs
import Mathlib.Algebra.Order.BigOperators.Group.List

/-!
# Proofs/Flattening/Detection — a chain of comparisons is found, and nothing else

The numbers of a plan pass for made-up ones (`entropy_within`), the chain is entered at its start
only, and no other block starts a region of more than one comparison, so a chained function has
exactly one region (`Func.Chained.collect`).
-/

namespace Deflatten

/-! ## Entropy -/

theorem Binary64.lt_eq_false {x y : Binary64} (h : y.rank ≤ x.rank) : x.lt y = false := by
  simp only [lt, Bool.and_eq_false_iff, decide_eq_false_iff_not]
  exact .inr (by omega)

/-- **Values with about half of their bits set pass for made-up ones.** -/
theorem entropy_within (vs : List UInt64) {size : Int} (h₁ : 1 ≤ size) (h₈ : size ≤ 8)
    (hne : vs ≠ []) (hlen : vs.length < 2 ^ 57)
    (hbal : ∀ v ∈ vs, 3 * size ≤ popCount (truncate v size) ∧
      (popCount (truncate v size) : Int) ≤ 5 * size) :
    (entropy vs size).lt ({} : Config).entropyMin = false ∧
      ({} : Config).entropyMax.lt (entropy vs size) = false := by
  obtain ⟨k, rfl⟩ := Int.eq_ofNat_of_zero_le (show 0 ≤ size by omega)
  have hpos : 0 < vs.length := List.length_pos_iff.mpr hne
  -- the bits that are set, and those there are
  have hones : ∀ n ∈ vs.map fun v => popCount (truncate v k), 3 * k ≤ n ∧ n ≤ 5 * k := by
    intro n hn
    obtain ⟨v, hv, rfl⟩ := List.mem_map.mp hn
    have := hbal v hv
    omega
  have hlow := List.card_nsmul_le_sum _ (3 * k) fun n hn => (hones n hn).1
  have hhigh := List.sum_le_card_nsmul _ (5 * k) fun n hn => (hones n hn).2
  have hbits : vs.length * k ≤ vs.length * 8 := Nat.mul_le_mul_left _ (by omega)
  have hbits' : vs.length * 1 ≤ vs.length * k := Nat.mul_le_mul_left _ (by omega)
  have htotal : wrapInt (vs.length * (k : Int) * 8) = ((vs.length * k * 8 : Nat) : Int) := by
    rw [wrapInt, Int.bmod_eq_of_le] <;> push_cast <;> omega
  have heq : entropy vs k =
      (Binary64.ofInt ((vs.map fun v => popCount (truncate v k)).sum : Nat)).divFinite
        (.ofInt ((vs.length * k * 8 : Nat) : Int)) := by
    unfold entropy
    dsimp only
    rw [htotal, if_neg (by omega), List.sum_eq_foldl, List.foldl_map]
  simp only [List.length_map, smul_eq_mul] at hlow hhigh
  rw [Nat.mul_left_comm] at hlow hhigh
  rw [heq]
  generalize (vs.map fun v => popCount (truncate v k)).sum = ones at *
  generalize vs.length * k = n at *
  have hmin : ({} : Config).entropyMin.rank ≤ (Binary64.ofRatio false 5 16).rank := by
    decide +kernel
  have hmax : (Binary64.ofRatio false 11 16).rank ≤ ({} : Config).entropyMax.rank := by
    decide +kernel
  exact ⟨Binary64.lt_eq_false (hmin.trans (Binary64.le_rank_divFinite (by omega) (by omega)
      (by omega) (by omega) (by decide) (by omega))),
    Binary64.lt_eq_false (le_trans (Binary64.rank_divFinite_le (by omega) (by omega) (by omega)
      (by omega) (by decide) (by omega)) hmax)⟩

namespace Region

variable {f : Func} {p : CasePlan} {v : Var} {d : Region} {x : BlockInfo} {b : Block} {s : Int}
  {ss : List Int}

/-! ## Judgement -/

/-- A region of a plan, by the lists of its blocks. -/
theorem dispatches_of_lists (hstate : d.state? = some v) (h3 : 3 ≤ p.count)
    (hhead : d.internal.head? = some x) (hx : x.place = 1)
    (hser : ∀ y ∈ d.internal, y.serial = y.place)
    (hint : d.internal.map BlockInfo.place = serialsFrom 1 (p.count - 1))
    (hout : (d.exits.map Exit.info).map BlockInfo.place = (serialsFrom p.count p.count).reverse) :
    d.Dispatches p v := by
  have hlen := congrArg List.length hint
  rw [List.length_map, length_serialsFrom] at hlen
  refine ⟨hstate, ⟨x, hhead, (hser x (List.mem_of_head? hhead)).trans hx, hx⟩, by omega,
    fun s => ?_, fun s => ?_⟩
  · have hmem : s ∈ d.internal.map BlockInfo.place ↔ 1 ≤ s ∧ s < p.count := by
      rw [hint, mem_serialsFrom]
      omega
    rw [← hmem, List.mem_map]
    simp only [Region.isInternal, List.any_eq_true, beq_iff_eq]
    exact exists_congr fun y => and_congr_right fun hy => by rw [hser y hy]
  · have hmem : s ∈ (d.exits.map Exit.info).map BlockInfo.place ↔
        (p.count : Int) ≤ s ∧ s < 2 * p.count := by
      rw [hout, List.mem_reverse, mem_serialsFrom]
      omega
    rw [← hmem]
    simp [Region.isExit]

/-- The constants of comparisons are the numbers of their cases. -/
theorem values_comparisons {xs : List BlockInfo} (h : ∀ y ∈ xs, ∃ i, Compares f p v i y) :
    (xs.filterMap fun y => y.comparison?.map Comparison.value) =
      (xs.map BlockInfo.place).map fun s => p.number (s - 1) := by
  induction xs with
  | nil => rfl
  | cons y ys ih =>
    obtain ⟨i, hi⟩ := h y (by simp)
    rw [List.map_cons, List.map_cons, ← ih fun z hz => h z (by simp [hz]), List.filterMap_cons,
      hi.comparison_eq, Option.map_some, CasePlan.value_comparison, hi.place_eq]
    simp

theorem two_le_length {α : Type} {l : List α} {a b : α} (ha : a ∈ l) (hb : b ∈ l) (hne : a ≠ b) :
    2 ≤ l.length := by
  match l with
  | [] => cases ha
  | [x] => exact absurd ((List.mem_singleton.mp ha).trans (List.mem_singleton.mp hb).symm) hne
  | _ :: _ :: _ => simp

/-- **A region of comparisons that is entered at its start only is believed.** -/
theorem judge_comparisons (hf : f.Shaped) (hp : p.Sound v)
    (h : ∀ y ∈ d.internal, ∃ i, Compares f p v i y)
    (hint : d.internal.map BlockInfo.place = serialsFrom 1 (p.count - 1))
    (hsize : d.cmpSize = p.state.size) (hout : d.enteredFromOutside = []) (blk : Int) :
    (judge {} f blk d).verdict = .ok true ∧ 2 ≤ d.distinctValues := by
  have h3 := hp.three_le
  have hvalues : d.values = (serialsFrom 1 (p.count - 1)).map fun s => p.number (s - 1) := by
    rw [Region.values, values_comparisons h, hint]
  have hmem : ∀ {c : UInt64}, c ∈ d.values ↔ ∃ i : Nat, i + 1 < p.count ∧ c = p.number i := by
    intro c
    rw [hvalues, List.mem_map]
    constructor
    · rintro ⟨s, hs, rfl⟩
      rw [mem_serialsFrom] at hs
      refine ⟨(s - 1).toNat, by omega, ?_⟩
      rw [Int.toNat_of_nonneg (by omega)]
    · rintro ⟨i, hi, rfl⟩
      exact ⟨(i : Int) + 1, mem_serialsFrom.mpr (by omega), by simp⟩
  have hlen : d.values.length = p.count - 1 := by
    rw [hvalues, List.length_map, length_serialsFrom]
  have hentropy := entropy_within d.values hp.one_le hp.le_eight
    (List.length_pos_iff.mp (by omega)) (by have := hp.count_le; omega) (by
      intro c hc
      obtain ⟨i, hi, rfl⟩ := hmem.mp hc
      rw [CasePlan.number, truncate_truncate]
      exact hp.balanced (by omega))
  rw [← hsize] at hentropy
  have hblocks : ∀ s, d.isInternal s = true → ∃ b, f.block? s = some b := by
    intro s hs
    obtain ⟨y, hy, rfl⟩ := isInternal_iff.mp hs
    obtain ⟨i, hi⟩ := h y hy
    exact ⟨y.block, hi.serial_eq hf ▸ hi.block_eq⟩
  constructor
  · unfold judge
    dsimp only
    rw [hentropy.1, hentropy.2,
      show enteredFromOutside { d with entropy := Deflatten.entropy d.values d.cmpSize } = [] from
        hout]
    obtain ⟨d', hd'⟩ := exists_pairExits
      (d := { d with entropy := Deflatten.entropy d.values d.cmpSize }) hblocks
    simp [hd']
  · have hne : p.number (0 : Nat) ≠ p.number (1 : Nat) := fun heq => by
      cases hp.number_inj (by omega) (by omega) heq
    exact two_le_length (mem_distinct.mpr (hmem.mpr ⟨0, by omega, rfl⟩))
      (mem_distinct.mpr (hmem.mpr ⟨1, by omega, rfl⟩)) hne

/-! ## Exploration -/

/-- Blocks that end in no conditional jump do not make a region grow. -/
theorem internal_grow_of_exits (fuel : Nat) (x : BlockInfo) (d : Region)
    (hss : ∀ s ∈ ss, ∃ b t, f.block? s = some b ∧ b.tail? = some t ∧
      t.op.isFlatteningJump = false) :
    (grow f fuel [(x, ss)] d).1.internal = d.internal := by
  induction fuel generalizing ss d with
  | zero => rfl
  | succ fuel ih =>
    cases ss with
    | nil => exact congrArg (fun r => r.1.internal) (grow_nil f fuel d)
    | cons s ss =>
      obtain ⟨b, t, hb, ht, hop⟩ := hss s (by simp)
      have hrest := fun s hs => hss s (List.mem_cons_of_mem _ hs)
      have hbel : belongs x (x.child b s) = false := by
        simp [belongs, BlockInfo.child, BlockInfo.ofBlock, ht, hop]
      rw [grow]
      split
      · exact ih d hrest
      · simp only [Func.getBlock_of_block? hb, hbel, Bool.false_eq_true, if_false]
        exact ih _ hrest

variable {hub last : Int}

/-- **A comparison that leads to none starts a region of one block at most.** -/
theorem length_internal_explore (cfg : Config) (hss : ∀ s ∈ b.succs, ∃ b' t,
    f.block? s = some b' ∧ b'.tail? = some t ∧ t.op.isFlatteningJump = false) :
    (explore cfg f hub last s b).region.internal.length ≤ 1 := by
  unfold explore
  dsimp only
  split
  · exact Nat.zero_le _
  · exact Nat.zero_le _
  · exact Nat.zero_le _
  · next viaHub c _ _ =>
    split
    · exact Nat.zero_le _
    · next entry _ =>
      have hint := internal_grow_of_exits (growthBound f) entry (seed hub last viaHub entry c) hss
      split
      · next hgrow =>
        rw [hgrow] at hint
        exact (congrArg List.length hint).le
      · next hgrow =>
        rw [hgrow] at hint
        rw [(judge_region ..).1]
        exact (congrArg List.length hint).le

end Region

namespace Func

variable {f : Func} {p : CasePlan} {v : Var} {b : Block} {s hub last : Int}

theorem comparedBefore_eq_false {ps : List Int} (blk : Int) (o : Operand)
    (h : ∀ q ∈ ps, ∃ b, f.block? q = some b ∧ b.comparison? = none) :
    f.comparedBefore blk o ps = .ok false := by
  induction ps with
  | nil => rfl
  | cons q ps ih =>
    obtain ⟨b, hb, hc⟩ := h q (by simp)
    simp only [comparedBefore, getBlock_of_block? hb, hc, Option.any_none, Bool.false_eq_true,
      if_false]
    exact ih fun q hq => h q (by simp [hq])

namespace Chained

/-- The blocks for edges choose nothing. -/
theorem tail?_jump (h : f.Chained p v) (hs : 2 * (p.count : Int) ≤ s) (hne : s ≠ p.dispatch)
    (hb : f.block? s = some b) : ∃ t, b.tail? = some t ∧ t.op.isFlatteningJump = false := by
  obtain ⟨⟨j, -, hins⟩, -⟩ := h.jump hs hne hb
  exact ⟨.goto p.dispatch, by simp [Block.tail?, hins, CasePlan.transfer], rfl⟩

/-- **No block that goes to the chain compares anything**, those of the chain apart. -/
theorem comparison?_eq_none (h : f.Chained p v) (hp : p.Sound v) (he : f.Edge s 1)
    (hb : f.block? s = some b) : b.comparison? = none := by
  have h3 := hp.three_le
  rcases h.edge hp he with ⟨rfl, -⟩ | ⟨i, _, _, hy⟩ | ⟨hs, -⟩
  · obtain ⟨b₀, hb₀, hins⟩ := h.prologue
    obtain rfl := Option.mem_unique hb₀ hb
    exact Block.comparison?_eq_none (t := .goto 1) (by simp [Block.tail?, hins]) rfl
  · omega
  · rcases h.behind hp hs hb with hw | ⟨-, hins⟩
    · rcases hw.tail? with ⟨t, ht, hop⟩ | ⟨-, -, hx⟩
      · exact Block.comparison?_eq_none ht hop
      · obtain ⟨b', hb', hx'⟩ := he
        obtain rfl := Option.mem_unique hb' hb
        have := (hx 1 hx').1
        omega
    · exact Block.comparison?_eq_none (t := .goto 1) (by simp [Block.tail?, hins]) rfl

/-- The first comparison may start a region. -/
theorem admits_first (h : f.Chained p v) (hp : p.Sound v) (cfg : Config) (hb : f.block? 1 = some b)
    (hc : b.comparison? = some ⟨p.label 0, p.state⟩) :
    Region.admits cfg f hub b = .ok (some false) := by
  have hbefore : f.comparedBefore b.serial p.state b.preds = .ok false := by
    refine comparedBefore_eq_false _ _ fun q hq => ?_
    have hedge := (h.wellFormed.mem_preds hb q).mp hq
    obtain ⟨b', hb', -⟩ := id hedge
    exact ⟨b', hb', h.comparison?_eq_none hp hedge hb'⟩
  simp [Region.admits, isCandidateEntry, hc, hbefore, Except.map]

/-- If the hub is the first comparison, the last block before it is the first of all. -/
theorem lastBeforeHub_one (h : f.Chained p v) (hb : f.block? 1 = some b) :
    f.lastBeforeHub 1 = .ok 0 := by
  obtain ⟨b₀, hb₀, hins⟩ := h.prologue
  have hplain : b₀.endsPlainly = true := by
    simp [Block.endsPlainly, Block.tail?, hins, Insn.goto, Opcode.isConditional]
  have hedge : f.Edge 0 1 := ⟨b₀, hb₀, by
    rw [Block.exits_goto (t := .goto 1) (by
      simp [Block.terminator?, Block.tail?, hins, Insn.goto, Opcode.endsBlock, Opcode.isJump]) rfl]
    simp [Insn.goto, Operand.target, Operand.block, Operand.fields]⟩
  have hmem : (0 : Int) ∈ b.preds := (h.wellFormed.mem_preds hb 0).mpr hedge
  have hsorted := h.wellFormed.ascending hb
  cases hps : b.preds with
  | nil => simp [hps] at hmem
  | cons q ps =>
    rw [hps] at hmem hsorted
    obtain rfl : q = 0 := by
      have hq : f.Edge q 1 := (h.wellFormed.mem_preds hb q).mp (by simp [hps])
      obtain ⟨bq, hbq, -⟩ := hq
      have := (lt_of_block? hbq).1
      rcases List.mem_cons.mp hmem with h0 | h0
      · exact h0.symm
      · have := List.rel_of_pairwise_cons hsorted h0
        omega
    simp [lastBeforeHub, noBlock, getBlock_of_block? hb, hps, getBlock_of_block? hb₀, hplain]

/-- **The first comparison as an entry**, whatever the hub is taken to be. -/
theorem exists_entryInfo (h : f.Chained p v) (hp : p.Sound v)
    (hlast : f.lastBeforeHub hub = .ok last) (hb : f.block? 1 = some b) :
    ∃ x, Region.entryInfo f hub last 1 b = .ok x ∧ x.block = b ∧ Region.Compares f p v 0 x := by
  have h3 := hp.three_le
  obtain ⟨b', hb', hc⟩ := h.exists_comparison (i := 0) (by omega)
  obtain rfl := Option.mem_unique hb' hb
  obtain ⟨huses, hdefs, hfree, hcmp⟩ := CasePlan.comparison_spec hp.state_eq (Block.insns_congr hc)
  unfold Region.entryInfo
  dsimp only
  split
  · next hhub =>
    obtain rfl : hub = 1 := hhub.1.symm.trans (h.wellFormed.placed hb)
    obtain rfl : last = 0 := by
      rw [h.lastBeforeHub_one hb] at hlast
      exact (Except.ok.inj hlast).symm
    obtain ⟨b₀, hb₀, hins⟩ := h.prologue
    have hdefs₀ : b₀.defs = [v] := by
      have hgoto : (Insn.goto 1).def? = none := rfl
      simp [Block.defs, hins, Insn.defs, CasePlan.def?_store hp.state_eq, hgoto, distinct]
    rw [getBlock_of_block? hb₀]
    refine ⟨_, rfl, rfl, by omega, hb, rfl, hcmp, fun w => ?_⟩
    simp [BlockInfo.ofBlock, hdefs, hdefs₀, huses]
  · refine ⟨_, rfl, rfl, by omega, hb, rfl, hcmp, fun w => ?_⟩
    simp [BlockInfo.ofBlock, hdefs, huses]

/-- The steps that growth needs are there. -/
theorem le_growthBound (h : f.Chained p v) :
    3 * (p.count - 1) ≤ Region.growthBound f := by
  have hlen := h.length_le
  -- the comparisons stand behind the first block
  have hsucc : ∀ n ∈ ((f.blocks.drop 1).take (p.count - 1)).map fun b => b.succs.length + 1,
      3 ≤ n := by
    intro n hn
    obtain ⟨b, hb, rfl⟩ := List.mem_map.mp hn
    obtain ⟨i, hi⟩ := List.mem_iff_getElem?.mp hb
    rw [List.getElem?_take, List.getElem?_drop] at hi
    split at hi
    · next hlt =>
      obtain ⟨b', hb', hc⟩ := h.exists_comparison (i := i) (by omega)
      rw [block?_natCast, Nat.add_comm, hi] at hb'
      obtain rfl := Option.some.inj hb'
      rw [h.wellFormed.succs_eq (s := ((1 + i : Nat) : Int)) (by rw [block?_natCast, hi]),
        exits_comparison (by omega) hc]
      simp
    · cases hi
  have hmid := List.card_nsmul_le_sum _ 3 hsucc
  have hsplit : f.blocks = f.blocks.take 1 ++ ((f.blocks.drop 1).take (p.count - 1) ++
      (f.blocks.drop 1).drop (p.count - 1)) := by
    rw [List.take_append_drop, List.take_append_drop]
  rw [Region.growthBound_eq, hsplit]
  simp only [List.map_append, List.sum_append]
  simp only [List.length_map, List.length_take, List.length_drop, smul_eq_mul] at hmid
  rw [Nat.min_eq_left (by omega)] at hmid
  omega

/-- **Growth from the first comparison finds the chain and its cases.** -/
theorem exists_grow_first (h : f.Chained p v) (hp : p.Sound v) {x : BlockInfo}
    (hx : Region.Compares f p v 0 x) (hub last : Int) (viaHub : Bool) (c : Comparison) :
    ∃ ints outs, Region.grow f (Region.growthBound f) [(x, x.block.succs)]
        (.seed hub last viaHub x c) = ((Region.seed hub last viaHub x c).extend ints outs, none) ∧
      (x :: ints).map BlockInfo.place = Region.serialsFrom 1 (p.count - 1) ∧
      (∀ y ∈ x :: ints, ∃ i, Region.Compares f p v i y) ∧
      outs.map BlockInfo.place = (Region.serialsFrom p.count p.count).reverse := by
  have h3 := hp.three_le
  obtain ⟨fuel, hfuel⟩ := Nat.exists_eq_add_of_le' h.le_growthBound
  have hseed : ∀ s : Int, 1 < s → (Region.seed hub last viaHub x c).Unseen s := by
    intro s hs
    refine ⟨?_, rfl⟩
    simp only [Region.seed, Region.isInternal, List.any_cons, List.any_nil, Bool.or_false,
      beq_eq_false_iff_ne, hx.serial_eq h.wellFormed.toShaped]
    omega
  obtain ⟨ints, outs, hgrow, hints, hall, houts⟩ := Region.grow_chain h hp (m := p.count - 2)
    (by omega) hx (fun s hs _ => hseed s (by omega)) (fun s hs _ => hseed s (by omega))
    fuel []
  rw [show fuel + 3 * (p.count - 2 + 1) = Region.growthBound f by omega, Region.grow_nil] at hgrow
  refine ⟨ints, outs, hgrow, ?_, ?_, ?_⟩
  · rw [List.map_cons, hints, hx.place_eq, show p.count - 1 = p.count - 2 + 1 by omega,
      Region.serialsFrom_succ]
  · rintro y (_ | ⟨_, hy⟩)
    · exact ⟨0, hx⟩
    · exact hall y hy
  · rw [houts, show p.count - 2 + 2 = p.count by omega, Nat.add_zero]

/-- A chain is entered at its start only. -/
theorem enteredFromOutside_eq_nil (h : f.Chained p v) (hp : p.Sound v) {d : Region}
    (hall : ∀ y ∈ d.internal, ∃ i, Region.Compares f p v i y)
    (hint : d.internal.map BlockInfo.place = Region.serialsFrom 1 (p.count - 1)) :
    d.enteredFromOutside = [] := by
  have h3 := hp.three_le
  have hplace : d.internal.tail.map BlockInfo.place = Region.serialsFrom 2 (p.count - 2) := by
    rw [List.map_tail, hint, show p.count - 1 = p.count - 2 + 1 by omega, Region.serialsFrom_succ,
      List.tail_cons]
  have hin : ∀ s : Int, 1 ≤ s → s < p.count → d.isInternal s = true := by
    intro s hs hs'
    have hmem : s ∈ d.internal.map BlockInfo.place := by
      rw [hint, Region.mem_serialsFrom]
      omega
    obtain ⟨y, hy, rfl⟩ := List.mem_map.mp hmem
    obtain ⟨i, hi⟩ := hall y hy
    simp only [Region.isInternal, List.any_eq_true, beq_iff_eq]
    exact ⟨y, hy, (hi.serial_eq h.wellFormed.toShaped).trans hi.place_eq.symm⟩
  rw [Region.enteredFromOutside, List.map_eq_nil_iff, List.filter_eq_nil_iff]
  intro y hy
  obtain ⟨i, hi⟩ := hall y (List.mem_of_mem_tail hy)
  have hmem : y.place ∈ d.internal.tail.map BlockInfo.place := List.mem_map_of_mem hy
  rw [hplace, Region.mem_serialsFrom, hi.place_eq] at hmem
  simp only [List.any_eq_true, Bool.not_eq_true', not_exists, not_and, Bool.not_eq_false]
  intro q hq
  -- only the comparison before leads here
  have hedge := (h.wellFormed.mem_preds hi.block_eq q).mp hq
  rcases h.edge hp hedge with ⟨-, hy⟩ | ⟨j, hj, rfl, hy⟩ | ⟨-, hy⟩
  · omega
  · exact hin _ (by omega) (by omega)
  · omega

/-- **Exploration from the first comparison finds the chain and its cases**, and believes it. -/
theorem explore_first (h : f.Chained p v) (hp : p.Sound v)
    (hlast : f.lastBeforeHub hub = .ok last) (hb : f.block? 1 = some b) :
    (Region.explore {} f hub last 1 b).verdict = .ok true ∧
      (Region.explore {} f hub last 1 b).region.Dispatches p v ∧
      (Region.explore {} f hub last 1 b).region.isSmall {} = false := by
  have h3 := hp.three_le
  obtain ⟨x, hentry, rfl, hx⟩ := h.exists_entryInfo hp hlast hb
  obtain ⟨b', hb', hc⟩ := h.exists_comparison (i := 0) (by omega)
  obtain rfl := Option.mem_unique hb' hb
  obtain ⟨-, -, -, hcmp⟩ := CasePlan.comparison_spec hp.state_eq (Block.insns_congr hc)
  obtain ⟨ints, outs, hgrow, hint, hall, houts⟩ := h.exists_grow_first hp hx hub last false
    ⟨p.label 0, p.state⟩
  rw [Region.explore_eq_judge (h.admits_first hp {} hb hcmp) hcmp hentry hgrow]
  set d := (Region.seed hub last false x ⟨p.label 0, p.state⟩).extend ints outs with hd
  have hinternal : d.internal = x :: ints := rfl
  have hstate : d.state? = some v := by
    simp [hd, Region.extend, Region.seed, Operand.reads_of_var? hp.state_eq, distinct]
  have hexits : d.exits.map Exit.info = outs := by
    simp [hd, Region.extend, Region.seed, Function.comp_def]
  rw [← hinternal] at hint hall
  obtain ⟨hverdict, hvalues⟩ := Region.judge_comparisons h.wellFormed.toShaped hp hall hint rfl
    (h.enteredFromOutside_eq_nil hp hall hint) x.block.serial
  obtain ⟨hji, hjs, hjx⟩ := Region.judge_region {} f x.block.serial d
  generalize (Region.judge {} f x.block.serial d).region = r at hji hjs hjx ⊢
  refine ⟨hverdict,
    Region.dispatches_of_lists (x := x) (hjs.trans hstate) h3 ?_ hx.place_eq ?_ ?_ ?_, ?_⟩
  · rw [hji, hinternal, List.head?_cons]
  · intro y hy
    obtain ⟨i, hi⟩ := hall y (hji ▸ hy)
    rw [hi.serial_eq h.wellFormed.toShaped, hi.place_eq]
  · rw [hji, hint]
  · rw [hjx, hexits, houts]
  · have hlen : r.internal.length = p.count - 1 := by
      have := congrArg List.length hint
      rwa [List.length_map, Region.length_serialsFrom, ← hji] at this
    have hlen' : r.exits.length = p.count := by
      have := congrArg List.length (hexits ▸ houts)
      rwa [← hjx, List.length_reverse, Region.length_serialsFrom, List.length_map,
        List.length_map] at this
    have hvalues' : 2 ≤ r.distinctValues := by
      rwa [Region.distinctValues, Region.values, hji]
    simp [Region.isSmall, hlen, hlen']
    omega

/-! ## Collection -/

/-- **A block from which no region is found**: it starts none, or too small a one. -/
def Dull (cfg : Config) (f : Func) (hub last s : Int) (b : Block) : Prop :=
  ∃ r, (Region.explore cfg f hub last s b).verdict = .ok r ∧
    (r = true → (Region.explore cfg f hub last s b).region.isSmall cfg = true)

theorem dull_of_comparison? {cfg : Config} (hc : b.comparison? = none) : Dull cfg f hub last s b :=
  ⟨false, by simp [Region.explore, Region.admits, isCandidateEntry, hc, Except.map], by simp⟩

/-- The first block and those behind the chain are dull. -/
theorem dull (h : f.Chained p v) (hp : p.Sound v)
    (hlast : last = noBlock ∨ ∃ b, f.block? last = some b) (hs : s = 0 ∨ (p.count : Int) ≤ s)
    (hb : f.block? s = some b) : Dull {} f hub last s b := by
  have h3 := hp.three_le
  rcases hs with rfl | hs
  · obtain ⟨b₀, hb₀, hins⟩ := h.prologue
    obtain rfl := Option.mem_unique hb₀ hb
    exact dull_of_comparison? (Block.comparison?_eq_none (t := .goto 1)
      (by simp [Block.tail?, hins]) rfl)
  · rcases h.behind hp hs hb with hw | ⟨-, hins⟩
    · rcases hw.tail? with ⟨t, ht, hop⟩ | ⟨-, -, hx⟩
      · exact dull_of_comparison? (Block.comparison?_eq_none ht hop)
      · -- both ways of a block that chooses lead to blocks for edges
        obtain ⟨r, hr, -⟩ := Region.explore_spec h.wellFormed.toVerified {} hub hlast hb
        refine ⟨r, hr, fun _ => ?_⟩
        have hlen : (Region.explore {} f hub last s b).region.internal.length ≤ 1 := by
          refine Region.length_internal_explore {} fun y hy => ?_
          rw [h.wellFormed.succs_eq hb] at hy
          obtain ⟨b', hb'⟩ := h.wellFormed.exists_of_edge ⟨b, hb, hy⟩
          obtain ⟨t, ht, hop⟩ := h.tail?_jump (hx y hy).1 (hx y hy).2 hb'
          exact ⟨b', t, hb', ht, hop⟩
        have hsmall : ((Region.explore {} f hub last s b).region.internal.length : Int) <
            ({} : Config).minInternalBlocks := by
          have : ({} : Config).minInternalBlocks = 2 := rfl
          omega
        simp [Region.isSmall, hsmall]
    · exact dull_of_comparison? (Block.comparison?_eq_none (t := .goto 1)
        (by simp [Block.tail?, hins]) rfl)

end Chained

/-- A block that is taken or dull adds no region. -/
theorem collectFrom_cons {cfg : Config} {taken : List Int} {place : Nat} (bs : List (Block × Nat))
    (h : b.serial ∈ taken ∨ Chained.Dull cfg f hub last place b) :
    (f.collectFrom cfg hub last taken ((b, place) :: bs)).error? =
        (f.collectFrom cfg hub last taken bs).error? ∧
      (f.collectFrom cfg hub last taken ((b, place) :: bs)).regions =
        (f.collectFrom cfg hub last taken bs).regions := by
  rw [collectFrom]
  split
  · exact ⟨rfl, rfl⟩
  · next hmem =>
    obtain ⟨r, hr, hsmall⟩ := h.resolve_left hmem
    cases r with
    | false =>
      simp only [hr]
      exact ⟨rfl, rfl⟩
    | true =>
      simp only [hr, hsmall rfl, if_true]
      exact ⟨rfl, rfl⟩

theorem collectFrom_eq_nil {cfg : Config} {taken : List Int} {bs : List (Block × Nat)}
    (h : ∀ x ∈ bs, x.1.serial ∈ taken ∨ Chained.Dull cfg f hub last x.2 x.1) :
    (f.collectFrom cfg hub last taken bs).error? = none ∧
      (f.collectFrom cfg hub last taken bs).regions = [] := by
  induction bs with
  | nil => exact ⟨rfl, rfl⟩
  | cons x bs ih =>
    obtain ⟨herr, hreg⟩ := collectFrom_cons bs (h x (by simp))
    rw [herr, hreg]
    exact ih fun y hy => h y (by simp [hy])

namespace Chained

/-- **A chained function has exactly one region, and it dispatches for the plan.** -/
theorem collect (h : f.Chained p v) (hp : p.Sound v) :
    ∃ d, (f.collect {}).error? = none ∧ (f.collect {}).regions = [d] ∧ d.Dispatches p v := by
  have h3 := hp.three_le
  have hlen := h.length_le
  obtain ⟨last, hl, hlast⟩ := lastBeforeHub_spec h.wellFormed.toVerified
    (guessHub_cases h.wellFormed.toShaped ({} : Config).minPredecessors)
  simp only [Func.collect, hl]
  generalize f.guessHub ({} : Config).minPredecessors = hub at hl
  obtain ⟨b₀, b₁, bs, hbs⟩ : ∃ b₀ b₁ bs, f.blocks = b₀ :: b₁ :: bs := by
    rcases hbs : f.blocks with _ | ⟨b₀, _ | ⟨b₁, bs⟩⟩
    · simp [hbs] at hlen; omega
    · simp [hbs] at hlen; omega
    · exact ⟨b₀, b₁, bs, rfl⟩
  have hb₀ : f.block? (0 : Nat) = some b₀ := by rw [block?_natCast, hbs]; rfl
  have hb₁ : f.block? (1 : Nat) = some b₁ := by rw [block?_natCast, hbs]; rfl
  have hrest : ∀ x ∈ bs.zipIdx 2, f.block? x.2 = some x.1 ∧ 2 ≤ x.2 := by
    rintro ⟨b, i⟩ hx
    obtain ⟨hi, hget⟩ := List.mem_zipIdx_iff_le_and_getElem?_sub.mp hx
    refine ⟨?_, hi⟩
    obtain ⟨k, rfl⟩ := Nat.exists_eq_add_of_le' hi
    rw [block?_natCast, hbs]
    simpa using hget
  obtain ⟨hverdict, hd, hsmall⟩ := h.explore_first hp hl hb₁
  have hdull₀ : b₀.serial ∈ [] ∨ Dull {} f hub last (0 : Nat) b₀ :=
    .inr (h.dull hp hlast (.inl rfl) hb₀)
  obtain ⟨herr₀, hreg₀⟩ := collectFrom_cons ((b₁, 1) :: bs.zipIdx 2) hdull₀
  have hdull : ∀ x ∈ bs.zipIdx 2,
      x.1.serial ∈ (Region.explore {} f hub last 1 b₁).region.internalSerials ∨
        Dull {} f hub last x.2 x.1 := by
    intro x hx
    obtain ⟨hb, hi⟩ := hrest x hx
    by_cases hlt : x.2 < p.count
    · left
      rw [hd.internalSerials_eq, Region.mem_serialsFrom, h.wellFormed.placed hb]
      omega
    · exact .inr (h.dull hp hlast (.inr (by omega)) hb)
  obtain ⟨herr, hreg⟩ := collectFrom_eq_nil hdull
  -- the second block starts the region that is kept
  refine ⟨_, ?_, ?_, hd⟩
  · simp only [Collection.telling, hbs, List.zipIdx_cons]
    refine herr₀.trans ?_
    rw [collectFrom]
    simpa [hverdict, hsmall, Collection.telling, Collection.adding] using herr
  · simp only [Collection.telling, hbs, List.zipIdx_cons]
    refine hreg₀.trans ?_
    rw [collectFrom]
    simpa [hverdict, hsmall, Collection.telling, Collection.adding] using hreg

end Chained

end Func

end Deflatten

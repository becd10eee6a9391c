import Deflatten.Proofs.Flattening.FullPeriod
import Deflatten.Proofs.Flattening.Layout
import Mathlib.Combinatorics.Colex

/-!
# Proofs/Flattening/Constants — how many constants there are to draw

A constant is a set of bits: as many positions as the state has bits, and between three and five
eighths of its width are taken (`bits_mem_stateSets`).  So there are `stateCapacity` constants, a sum
of binomial coefficients.  Draws that are used up have met every constant in a period, and kept fewer
than were asked for (`exists_kept_of_drawConstants`); hence a period is enough exactly if there are
as many constants as blocks, and otherwise no number of draws is (`stateConstants_eq_none_iff`).
-/

namespace Deflatten

/-! ## Words as sets of bits -/

/-- The positions of the bits that are set in a word. -/
def bits (v : UInt64) : Finset ℕ := Finset.equivBitIndices v.toNat

variable {v : UInt64} {size : Int}

theorem mem_bits {i : ℕ} : i ∈ bits v ↔ v.toNat.testBit i = true := by simp [bits]

theorem bits_injective : Function.Injective bits :=
  Finset.equivBitIndices.injective.comp fun _ _ => UInt64.toNat_inj.mp

/-- Bits lie below `n` exactly in numbers below `2 ^ n`. -/
theorem bits_subset_range {n : ℕ} : bits v ⊆ Finset.range n ↔ v.toNat < 2 ^ n := by
  constructor
  · intro h
    refine Nat.lt_pow_two_of_testBit _ fun i hi => ?_
    by_contra hset
    have := Finset.mem_range.mp (h (mem_bits.mpr (by simpa using hset)))
    omega
  · intro h i hi
    rw [Finset.mem_range]
    exact (Nat.pow_lt_pow_iff_right (by decide)).mp
      (Nat.lt_of_le_of_lt (Nat.ge_two_pow_of_testBit (mem_bits.mp hi)) h)

theorem card_bits (v : UInt64) : (bits v).card = popCount v := by
  have hset : bits v = ((List.range 64).filter fun i => v.toNat.testBit i).toFinset := by
    ext i
    have hlt : i ∈ bits v → i < 64 := fun hi =>
      Finset.mem_range.mp (bits_subset_range.mpr v.toNat_lt hi)
    simpa [mem_bits] using hlt
  rw [hset, List.toFinset_card_of_nodup (List.nodup_range.filter _), popCount]

/-- Any set of positions is that of a word. -/
theorem exists_bits_eq {s : Finset ℕ} (hs : s ⊆ Finset.range 64) : ∃ v, bits v = s := by
  have hlt : Finset.equivBitIndices.symm s < 2 ^ 64 := by
    refine Nat.lt_pow_two_of_testBit _ fun i hi => ?_
    by_contra hset
    have hmem : i ∈ Finset.equivBitIndices (Finset.equivBitIndices.symm s) := by
      rw [Finset.equivBitIndices_apply, List.mem_toFinset, Nat.mem_bitIndices]
      simpa using hset
    rw [Equiv.apply_symm_apply] at hmem
    have := Finset.mem_range.mp (hs hmem)
    omega
  refine ⟨UInt64.ofNat (Finset.equivBitIndices.symm s), ?_⟩
  rw [bits, UInt64.toNat_ofNat_of_lt' hlt, Equiv.apply_symm_apply]

/-! ## The constants there are -/

/-- **The number of balanced constants** of a byte size. -/
def stateCapacity (size : Int) : ℕ :=
  ∑ c ∈ Finset.Icc (stateWidth size * 3 / 8) (stateWidth size * 5 / 8), (bitWidth size).choose c

/-- The sets of bits that a constant may have. -/
def stateSets (size : Int) : Finset (Finset ℕ) :=
  (Finset.range (bitWidth size)).powerset.filter fun s =>
    s.card ∈ Finset.Icc (stateWidth size * 3 / 8) (stateWidth size * 5 / 8)

theorem card_stateSets (size : Int) : (stateSets size).card = stateCapacity size := by
  have hmaps : Set.MapsTo Finset.card (stateSets size : Set (Finset ℕ))
      (Finset.Icc (stateWidth size * 3 / 8) (stateWidth size * 5 / 8) : Finset ℕ) := fun s hs =>
    (Finset.mem_filter.mp (Finset.mem_coe.mp hs)).2
  rw [Finset.card_eq_sum_card_fiberwise hmaps, stateCapacity]
  refine Finset.sum_congr rfl fun c hc => ?_
  have hfiber : (stateSets size).filter (fun s => s.card = c) =
      (Finset.range (bitWidth size)).powersetCard c := by
    ext s
    simp only [stateSets, Finset.mem_filter, Finset.mem_powerset, Finset.mem_powersetCard]
    exact ⟨fun ⟨⟨hs, _⟩, hcard⟩ => ⟨hs, hcard⟩, fun ⟨hs, hcard⟩ => ⟨⟨hs, hcard ▸ hc⟩, hcard⟩⟩
  rw [hfiber, Finset.card_powersetCard, Finset.card_range]

/-- **What makes a word a constant is a matter of its bits.** -/
theorem bits_mem_stateSets :
    bits v ∈ stateSets size ↔ truncate v size = v ∧ isBalanced size v = true := by
  have htrunc : truncate v size = v ↔ v.toNat < 2 ^ bitWidth size := by
    rw [← UInt64.toNat_inj, toNat_truncate]
    exact ⟨fun h => h ▸ Nat.mod_lt _ (Nat.two_pow_pos _), Nat.mod_eq_of_lt⟩
  rw [stateSets, Finset.mem_filter, Finset.mem_powerset, bits_subset_range, htrunc, card_bits,
    Finset.mem_Icc]
  simp [isBalanced]

/-- Different constants are no more than there are. -/
theorem length_le_stateCapacity {cs : List UInt64} (hnodup : cs.Nodup)
    (h : ∀ c ∈ cs, truncate c size = c ∧ isBalanced size c = true) :
    cs.length ≤ stateCapacity size := by
  rw [← card_stateSets, ← List.toFinset_card_of_nodup hnodup,
    ← Finset.card_map ⟨bits, bits_injective⟩]
  refine Finset.card_le_card fun s hs => ?_
  obtain ⟨c, hc, rfl⟩ := Finset.mem_map.mp hs
  exact bits_mem_stateSets.mpr (h c (List.mem_toFinset.mp hc))

/-- A list with all constants is as long as there are constants. -/
theorem stateCapacity_le_length {cs : List UInt64}
    (h : ∀ c, truncate c size = c → isBalanced size c = true → c ∈ cs) :
    stateCapacity size ≤ cs.length := by
  calc stateCapacity size = (stateSets size).card := (card_stateSets size).symm
    _ ≤ (cs.map bits).toFinset.card := Finset.card_le_card fun s hs => ?_
    _ ≤ (cs.map bits).length := List.toFinset_card_le _
    _ = cs.length := List.length_map _
  have hsub : s ⊆ Finset.range 64 := (Finset.mem_powerset.mp (Finset.mem_filter.mp hs).1).trans
    (Finset.range_mono (bitWidth_le size))
  obtain ⟨c, rfl⟩ := exists_bits_eq hsub
  obtain ⟨htrunc, hbal⟩ := bits_mem_stateSets.mp hs
  exact List.mem_toFinset.mpr (List.mem_map_of_mem (h c htrunc hbal))

/-! ## Draws -/

variable {draws need n : ℕ} {seen cs : List UInt64} {g : Generator} {seed : UInt64}

/-- **More draws find the same constants.** -/
theorem drawConstants_add (h : drawConstants size draws need seen g = some cs) (more : ℕ) :
    drawConstants size (draws + more) need seen g = some cs := by
  induction draws generalizing need seen cs g with
  | zero =>
    cases need with
    | zero => simpa [drawConstants] using h
    | succ need => simp [drawConstants] at h
  | succ draws ih =>
    cases need with
    | zero => simpa [drawConstants] using h
    | succ need =>
      rw [Nat.add_right_comm]
      rw [drawConstants] at h ⊢
      dsimp only at h ⊢
      split at h
      · next hv =>
        obtain ⟨cs', hcs', rfl⟩ := Option.map_eq_some_iff.mp h
        rw [if_pos hv, ih hcs']
        rfl
      · next hv => rw [if_neg hv, ih h]

/-- **Draws that are used up have kept all constants that they met**, and fewer than were needed. -/
theorem exists_kept_of_drawConstants (h : drawConstants size draws need seen g = none) :
    ∃ kept : List UInt64, kept.length < seen.length + need ∧ seen ⊆ kept ∧
      ∀ k < draws, isBalanced size (truncate (Generator.step^[k + 1] g).output size) = true →
        truncate (Generator.step^[k + 1] g).output size ∈ kept := by
  induction draws generalizing need seen g with
  | zero =>
    cases need with
    | zero => simp [drawConstants] at h
    | succ need => exact ⟨seen, by omega, List.Subset.refl _, fun k hk => by omega⟩
  | succ draws ih =>
    cases need with
    | zero => simp [drawConstants] at h
    | succ need =>
      rw [drawConstants] at h
      dsimp only [Generator.next] at h
      split at h
      · obtain ⟨kept, hlen, hsub, hmet⟩ := ih (Option.map_eq_none_iff.mp h)
        refine ⟨kept, by simp only [List.length_cons] at hlen; omega,
          fun c hc => hsub (List.mem_cons_of_mem _ hc), fun k hk hbal => ?_⟩
        cases k with
        | zero => exact hsub List.mem_cons_self
        | succ k =>
          rw [Function.iterate_succ_apply] at hbal ⊢
          exact hmet k (by omega) hbal
      · next hv =>
        obtain ⟨kept, hlen, hsub, hmet⟩ := ih h
        refine ⟨kept, hlen, hsub, fun k hk hbal => ?_⟩
        cases k with
        | zero =>
          rw [Function.iterate_one] at hbal ⊢
          exact hsub (by simpa [hbal] using hv)
        | succ k =>
          rw [Function.iterate_succ_apply] at hbal ⊢
          exact hmet k (by omega) hbal

/-- No number of draws brings more constants than there are. -/
theorem drawConstants_eq_none (h : stateCapacity size < n) (draws : ℕ) (g : Generator) :
    drawConstants size draws n [] g = none := by
  cases hcs : drawConstants size draws n [] g with
  | none => rfl
  | some cs =>
    obtain ⟨rfl, hnodup, hall⟩ := drawConstants_spec hcs
    exact absurd (length_le_stateCapacity hnodup fun c hc => (hall c hc).2) (by omega)

/-- **A period of draws is enough exactly if there are enough constants.** -/
theorem stateConstants_eq_none_iff : stateConstants seed n size = none ↔ stateCapacity size < n := by
  constructor
  · intro h
    obtain ⟨kept, hlen, -, hmet⟩ := exists_kept_of_drawConstants h
    have hall : stateCapacity size ≤ kept.length := stateCapacity_le_length fun c htrunc hbal => by
      obtain ⟨k, hk, rfl⟩ := (Generator.ofSeed seed).exists_draw_eq c
      exact htrunc ▸ hmet k hk (htrunc.symm ▸ hbal)
    simp only [List.length_nil] at hlen
    omega
  · exact fun h => drawConstants_eq_none h ..

/-- Draws that end are those of the period. -/
theorem stateConstants_of_drawConstants
    (h : drawConstants size draws n [] (.ofSeed seed) = some cs) :
    stateConstants seed n size = some cs := by
  cases hcs : stateConstants seed n size with
  | none =>
    rw [drawConstants_eq_none (stateConstants_eq_none_iff.mp hcs)] at h
    cases h
  | some cs' =>
    have h₁ := drawConstants_add h Generator.period
    have h₂ := drawConstants_add hcs draws
    rw [Nat.add_comm, h₁] at h₂
    exact h₂.symm

theorem eight_dvd_stateWidth (size : Int) : 8 ∣ stateWidth size := by
  have hwrap : (8 : Int) ∣ wrapInt (size * 8) := by
    unfold wrapInt Int.bmod UInt64.size
    dsimp only
    split <;> omega
  unfold stateWidth
  dsimp only
  split <;> omega

theorem isBalanced_iff : isBalanced size v = true ↔
    3 * stateWidth size ≤ 8 * popCount v ∧ 8 * popCount v ≤ 5 * stateWidth size := by
  have := eight_dvd_stateWidth size
  simp only [isBalanced, Bool.and_eq_true, decide_eq_true_eq]
  omega

/-! ## Flattening -/

namespace CasePlan

variable {p : CasePlan} {fn : String} {i jumps : ℕ} {e : FlattenError}

theorem fallsOff_of_caseBlock {b : Block} (h : p.caseBlock fn i jumps b = .error e) :
    e = .fallsOff fn b.serial := by
  unfold caseBlock at h
  repeat' split at h
  all_goals cases h
  rfl

/-- What the cases of blocks can want is a successor. -/
theorem exists_fallsOff_of_caseBlocks {bs : List Block}
    (h : p.caseBlocks fn i jumps bs = .error e) : ∃ blk, e = .fallsOff fn blk := by
  induction bs generalizing i jumps with
  | nil => cases h
  | cons b bs ih =>
    rw [caseBlocks] at h
    cases hc : p.caseBlock fn i jumps b with
    | error e' =>
      obtain rfl : e' = e := by simpa [hc, bind, Except.bind] using h
      exact ⟨_, fallsOff_of_caseBlock hc⟩
    | ok c =>
      cases hcs : p.caseBlocks fn (i + 1) (jumps + c.2.length) bs with
      | error e' =>
        obtain rfl : e' = e := by simpa [hc, hcs, bind, Except.bind] using h
        exact ih hcs
      | ok cs => simp [hc, hcs, bind, Except.bind, pure, Except.pure] at h

theorem exists_fallsOff_of_blocks {bs : List Block} {loopEnd : Bool}
    (h : p.blocks fn loopEnd bs = .error e) : ∃ blk, e = .fallsOff fn blk := by
  unfold blocks at h
  cases hcs : p.caseBlocks fn 0 0 bs with
  | error e' =>
    obtain rfl : e' = e := by simpa [hcs, bind, Except.bind] using h
    exact exists_fallsOff_of_caseBlocks hcs
  | ok cs => simp [hcs, bind, Except.bind, pure, Except.pure] at h

end CasePlan

/-- **Constants are wanting exactly for functions with more blocks than there are constants.** -/
theorem Func.flatten_eq_tooFewConstants_iff {f : Func} {opts : FlattenOptions} :
    f.flatten opts = .error (.tooFewConstants f.name) ↔
      2 ≤ f.blocks.length ∧ (∃ x, opts.stateOrDefault.var? = some x ∧ f.userOf? x = none) ∧
        stateCapacity opts.stateOrDefault.size < f.blocks.length := by
  constructor
  · intro h
    unfold flatten at h
    dsimp only at h
    split at h
    · cases h
    · next x hx =>
      split at h
      · cases h
      · next hn =>
        split at h
        · cases h
        · next huser =>
          split at h
          · next hnone =>
            exact ⟨by omega, ⟨x, hx, huser⟩, stateConstants_eq_none_iff.mp hnone⟩
          · dsimp only [bind, Except.bind] at h
            split at h
            · next hbs =>
              obtain ⟨blk, rfl⟩ := CasePlan.exists_fallsOff_of_blocks hbs
              cases h
            · split at h <;> cases h
  · rintro ⟨hn, ⟨x, hx, huser⟩, hfew⟩
    have hnone : stateConstants opts.seed f.blocks.length opts.stateOrDefault.size = none :=
      stateConstants_eq_none_iff.mpr hfew
    unfold FlattenOptions.stateOrDefault at hx hnone
    unfold flatten
    simp only [hx, huser, hnone, if_neg (Nat.not_lt_of_le hn)]

/-- **Constants are drawn for a function exactly if there are as many as it has blocks.**  The draws
that end, after however many, give different balanced constants of the state's size. -/
theorem constants_drawn_iff_le_capacity (seed : UInt64) (n : ℕ) (size : Int) :
    ((∃ draws cs, drawConstants size draws n [] (.ofSeed seed) = some cs) ↔
      n ≤ stateCapacity size) ∧
    (∀ draws cs, drawConstants size draws n [] (.ofSeed seed) = some cs →
      stateConstants seed n size = some cs ∧ cs.length = n ∧ cs.Nodup ∧
        ∀ c ∈ cs, truncate c size = c ∧ 3 * stateWidth size ≤ 8 * popCount c ∧
          8 * popCount c ≤ 5 * stateWidth size) ∧
    ∀ (f : Func) (opts : FlattenOptions), f.flatten opts = .error (.tooFewConstants f.name) ↔
      2 ≤ f.blocks.length ∧ (∃ x, opts.stateOrDefault.var? = some x ∧ f.userOf? x = none) ∧
        stateCapacity opts.stateOrDefault.size < f.blocks.length := by
  refine ⟨⟨?_, fun hle => ?_⟩, fun draws cs hcs => ?_, fun f opts => f.flatten_eq_tooFewConstants_iff⟩
  · rintro ⟨draws, cs, hcs⟩
    by_contra hlt
    rw [drawConstants_eq_none (Nat.lt_of_not_le hlt)] at hcs
    cases hcs
  · cases hcs : stateConstants seed n size with
    | none => exact absurd (stateConstants_eq_none_iff.mp hcs) (Nat.not_lt_of_le hle)
    | some cs => exact ⟨_, cs, hcs⟩
  · obtain ⟨hlen, hnodup, hall⟩ := drawConstants_spec hcs
    exact ⟨stateConstants_of_drawConstants hcs, hlen, hnodup, fun c hc =>
      ⟨(hall c hc).2.1, isBalanced_iff.mp (hall c hc).2.2⟩⟩

/-- So many blocks in a row, each of which jumps to the next; the last one returns. -/
def corridor (n : ℕ) : Func :=
  { name := "corridor"
    body := some ((List.range n).map fun i =>
      if i + 1 < n then
        { serial := i, code := some [.goto (i + 1)], next := noBlock,
          preds := if i = 0 then [] else [i - 1], succs := [i + 1] }
      else
        { serial := i, code := some [.ret (.register 0 8)], next := noBlock,
          preds := if i = 0 then [] else [i - 1] }) }

/-- **A byte has too few constants for 183 blocks**, and no draws bring that many. -/
theorem corridor_wants_constants : (corridor 183).verify = .ok () ∧
    (corridor 183).flatten { state := .register 9 1 } = .error (.tooFewConstants "corridor") ∧
    ∀ draws g, drawConstants 1 draws 183 [] g = none := by
  refine ⟨?_, ?_, drawConstants_eq_none (by decide)⟩
  · decide +kernel
  · exact Func.flatten_eq_tooFewConstants_iff.mpr
      ⟨by decide +kernel, ⟨_, rfl, by decide +kernel⟩, by decide +kernel⟩

end Deflatten

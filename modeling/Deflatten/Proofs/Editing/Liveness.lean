import Deflatten.Microcode.Liveness
import Deflatten.Proofs.Editing.Shape
import Mathlib.Algebra.Order.BigOperators.Group.List
import Mathlib.Algebra.Order.Ring.Nat

/-!
# Proofs/Editing/Liveness — the live sets are closed

The sets only grow, and only by variables that some block inherits, so the rounds that
`Func.maxRounds` allows are enough: `Func.liveSets` is a set of sets that a round leaves as they are
(`growRound_liveSets`).  That is to say that what is live into a successor is live out of the block
(`mem_liveOut`), and what a block inherits or passes on is live into it (`mem_liveIn`).  Where all
successors are blocks nothing is asked for in vain (`liveness_eq_ok_iff`).
-/

namespace Deflatten

/-! ## Sets as lists -/

section Lists

variable {α : Type} [DecidableEq α]

theorem isPrefix_adjoinAll (ys xs : List α) : xs <+: adjoinAll xs ys := by
  induction ys generalizing xs with
  | nil => exact List.prefix_rfl
  | cons y ys ih =>
    refine List.IsPrefix.trans ?_ (ih (adjoin xs y))
    unfold adjoin
    split
    · exact List.prefix_rfl
    · exact List.prefix_append xs [y]

theorem nodup_adjoinAll {xs : List α} (h : xs.Nodup) (ys : List α) : (adjoinAll xs ys).Nodup := by
  induction ys generalizing xs with
  | nil => exact h
  | cons y ys ih =>
    refine ih ?_
    unfold adjoin
    split
    · exact h
    · next hy =>
      refine List.nodup_append.mpr ⟨h, by simp, fun a ha b hb => ?_⟩
      rintro rfl
      exact hy (by simpa [List.mem_singleton.mp hb] using ha)

end Lists

namespace Func

/-! ## Growth -/

/-- The number of variables in the sets of a block. -/
def LiveSets.size (l : LiveSets) : Nat := l.onEntry.length + l.onExit.length

/-- The number of variables in all sets. -/
def totalSize (sets : List LiveSets) : Nat := (sets.map LiveSets.size).sum

variable {f : Func} {b : Block} {sets : List LiveSets} {own l : LiveSets} {i : Nat} {is : List Nat}
  {v : Var}

theorem totalSize_set (hi : sets[i]? = some own) (l : LiveSets) :
    totalSize (sets.set i l) + own.size = totalSize sets + l.size := by
  induction sets generalizing i with
  | nil => simp at hi
  | cons a sets ih =>
    cases i with
    | zero =>
      obtain rfl : a = own := by simpa using hi
      simp only [totalSize, List.set_cons_zero, List.map_cons, List.sum_cons]
      omega
    | succ i =>
      have := ih (by simpa using hi)
      simp only [totalSize, List.set_cons_succ, List.map_cons, List.sum_cons] at this ⊢
      omega

theorem size_le_growBlock (b : Block) (sets : List LiveSets) (own : LiveSets) :
    own.size ≤ (growBlock b sets own).size :=
  Nat.add_le_add (isPrefix_adjoinAll _ _).length_le (isPrefix_adjoinAll _ _).length_le

/-- Sets that have not grown are the same. -/
theorem growBlock_eq_of_size (h : (growBlock b sets own).size = own.size) :
    growBlock b sets own = own := by
  have hentry : own.onEntry <+: (growBlock b sets own).onEntry := isPrefix_adjoinAll _ _
  have hexit : own.onExit <+: (growBlock b sets own).onExit := isPrefix_adjoinAll _ _
  have h₁ := hentry.length_le
  have h₂ := hexit.length_le
  unfold LiveSets.size at h
  calc growBlock b sets own
      = ⟨(growBlock b sets own).onEntry, (growBlock b sets own).onExit⟩ := rfl
    _ = ⟨own.onEntry, own.onExit⟩ := by
      rw [← hentry.eq_of_length (by omega), ← hexit.eq_of_length (by omega)]

theorem totalSize_le_growAt (f : Func) (is : List Nat) (sets : List LiveSets) :
    totalSize sets ≤ totalSize (f.growAt is sets) := by
  induction is generalizing sets with
  | nil => exact Nat.le_refl _
  | cons i is ih =>
    rw [growAt]
    split
    · next b own hb hown =>
      have hset := totalSize_set hown (growBlock b sets own)
      have hsize := size_le_growBlock b sets own
      exact Nat.le_trans (by omega) (ih _)
    · exact ih sets

/-- **A round that adds nothing leaves each block as it is.** -/
theorem growAt_stable (h : totalSize (f.growAt is sets) = totalSize sets) :
    f.growAt is sets = sets ∧ ∀ {i b own}, i ∈ is → f.blocks[i]? = some b → sets[i]? = some own →
      growBlock b sets own = own := by
  induction is with
  | nil => exact ⟨rfl, fun hi => by cases hi⟩
  | cons i is ih =>
    rw [growAt] at h ⊢
    split at h
    · next b own hb hown =>
      have hset := totalSize_set hown (growBlock b sets own)
      have hsize := size_le_growBlock b sets own
      have hle := f.totalSize_le_growAt is (sets.set i (growBlock b sets own))
      have hsame : growBlock b sets own = own := growBlock_eq_of_size (by omega)
      have hsets : sets.set i own = sets := by
        refine List.ext_getElem? fun j => ?_
        rw [List.getElem?_set]
        split
        · next hij => rw [← hij, if_pos (List.getElem?_eq_some_iff.mp hown).1, hown]
        · rfl
      rw [hsame, hsets] at h ⊢
      obtain ⟨heq, hall⟩ := ih h
      refine ⟨heq, fun hj hb' hown' => ?_⟩
      rcases List.mem_cons.mp hj with rfl | hj
      · obtain rfl := Option.mem_unique hb hb'
        obtain rfl := Option.mem_unique hown hown'
        exact hsame
      · exact hall hj hb' hown'
    · next hno =>
      obtain ⟨heq, hall⟩ := ih h
      refine ⟨heq, fun hj hb' hown' => ?_⟩
      rcases List.mem_cons.mp hj with rfl | hj
      · exact absurd hown' (hno _ _ hb')
      · exact hall hj hb' hown'

/-! ## The bound -/

/-- The variables that some block inherits. -/
def inherited (f : Func) : List Var := distinct (f.blocks.flatMap Block.free)

/-- **The sets hold no variable twice, and only such as some block inherits.** -/
structure Bounded (f : Func) (sets : List LiveSets) : Prop where
  length_eq : sets.length = f.blocks.length
  nodup : ∀ {l}, l ∈ sets → l.onEntry.Nodup ∧ l.onExit.Nodup
  /-- Only variables that are inherited. -/
  subset : ∀ {l v}, l ∈ sets → v ∈ l.onEntry ∨ v ∈ l.onExit → v ∈ f.inherited

theorem Bounded.growBlock (h : f.Bounded sets) (hb : b ∈ f.blocks) (hown : own ∈ sets) :
    ((growBlock b sets own).onEntry.Nodup ∧ (growBlock b sets own).onExit.Nodup) ∧
      ∀ v, v ∈ (growBlock b sets own).onEntry ∨ v ∈ (growBlock b sets own).onExit →
        v ∈ f.inherited := by
  obtain ⟨hn₁, hn₂⟩ := h.nodup hown
  refine ⟨⟨nodup_adjoinAll hn₁ _, nodup_adjoinAll hn₂ _⟩, ?_⟩
  have hexit : ∀ v ∈ (Func.growBlock b sets own).onExit, v ∈ f.inherited := by
    intro v hv
    rcases mem_adjoinAll.mp hv with hv | hv
    · exact h.subset hown (.inr hv)
    · obtain ⟨s, -, hv⟩ := List.mem_flatMap.mp hv
      split at hv
      · cases hl : sets[s.toNat]? with
        | none => simp [hl] at hv
        | some l =>
          rw [hl, Option.elim_some] at hv
          exact h.subset (List.mem_of_getElem? hl) (.inl hv)
      · cases hv
  rintro v (hv | hv)
  · rcases mem_adjoinAll.mp hv with hv | hv
    · exact h.subset hown (.inl hv)
    · rcases List.mem_append.mp hv with hv | hv
      · exact mem_distinct.mpr (List.mem_flatMap.mpr ⟨b, hb, hv⟩)
      · exact hexit v (List.mem_filter.mp hv).1
  · exact hexit v hv

/-- **What growing one block keeps, a round keeps.** -/
theorem growAt_induction {P : List LiveSets → Prop}
    (hstep : ∀ {sets i b own}, P sets → f.blocks[i]? = some b → sets[i]? = some own →
      P (sets.set i (growBlock b sets own)))
    (h : P sets) (is : List Nat) : P (f.growAt is sets) := by
  induction is generalizing sets with
  | nil => exact h
  | cons i is ih =>
    rw [growAt]
    split
    · next b own hb hown => exact ih (hstep h hb hown)
    · exact ih h

theorem Bounded.growAt (h : f.Bounded sets) (is : List Nat) : f.Bounded (f.growAt is sets) := by
  refine growAt_induction (fun {sets i b own} h hb hown => ?_) h is
  obtain ⟨hn, hs⟩ := h.growBlock (List.mem_of_getElem? hb) (List.mem_of_getElem? hown)
  refine ⟨by simpa using h.length_eq, fun hl => ?_, fun hl hv => ?_⟩
  · rcases List.mem_or_eq_of_mem_set hl with hl | rfl
    · exact h.nodup hl
    · exact hn
  · rcases List.mem_or_eq_of_mem_set hl with hl | rfl
    · exact h.subset hl hv
    · exact hs _ hv

theorem Bounded.totalSize_le (h : f.Bounded sets) :
    totalSize sets ≤ 2 * f.blocks.length * f.inherited.length := by
  have hone : ∀ n ∈ sets.map LiveSets.size, n ≤ 2 * f.inherited.length := by
    intro n hn
    obtain ⟨l, hl, rfl⟩ := List.mem_map.mp hn
    obtain ⟨hn₁, hn₂⟩ := h.nodup hl
    have h₁ := hn₁.length_le_of_subset fun v hv => h.subset hl (.inl hv)
    have h₂ := hn₂.length_le_of_subset fun v hv => h.subset hl (.inr hv)
    unfold LiveSets.size
    omega
  have hsum := List.sum_le_card_nsmul _ _ hone
  rw [List.length_map, h.length_eq] at hsum
  calc totalSize sets ≤ f.blocks.length * (2 * f.inherited.length) := hsum
    _ = 2 * f.blocks.length * f.inherited.length := by rw [Nat.mul_left_comm, Nat.mul_assoc]

/-- **Rounds enough make the sets stable.** -/
theorem growRound_growUntilStable {rounds : Nat} (h : f.Bounded sets)
    (hr : 2 * f.blocks.length * f.inherited.length < totalSize sets + rounds) :
    f.growRound (f.growUntilStable rounds sets) = f.growUntilStable rounds sets ∧
      f.Bounded (f.growUntilStable rounds sets) := by
  induction rounds generalizing sets with
  | zero =>
    have := h.totalSize_le
    omega
  | succ rounds ih =>
    rw [growUntilStable]
    split
    · next hs => exact ⟨hs, h⟩
    · next hs =>
      refine ih (h.growAt _) ?_
      have hle := f.totalSize_le_growAt (List.range f.blocks.length).reverse sets
      have hne : totalSize (f.growRound sets) ≠ totalSize sets := fun he =>
        hs (growAt_stable he).1
      unfold growRound at hne ⊢
      omega

/-- **The live sets are stable.** -/
theorem growRound_liveSets (f : Func) :
    f.growRound f.liveSets = f.liveSets ∧ f.Bounded f.liveSets := by
  refine growRound_growUntilStable ⟨by simp, fun hl => ?_, fun hl hv => ?_⟩ ?_
  · obtain ⟨_, _, rfl⟩ := List.mem_map.mp hl
    exact ⟨List.nodup_nil, List.nodup_nil⟩
  · obtain ⟨_, _, rfl⟩ := List.mem_map.mp hl
    simp at hv
  · exact Nat.lt_of_lt_of_le (Nat.lt_succ_self _) (Nat.le_add_left ..)

/-- **The live sets are found if and only if every successor is a block.** -/
theorem liveness_eq_ok_iff :
    f.liveness = .ok f.liveSets ↔ ∀ b ∈ f.blocks, ∀ t ∈ b.succs, f.hasSerial t = true := by
  have hmap : f.liveness = .ok f.liveSets ↔
      ∃ bs, (f.blocks.flatMap (·.succs)).mapM f.getBlock = .ok bs := by
    unfold liveness checkSuccs
    cases (f.blocks.flatMap (·.succs)).mapM f.getBlock <;> simp [Except.map]
  rw [hmap]
  constructor
  · rintro ⟨bs, hbs⟩ b hb t ht
    have hmem : f.block? t ∈ bs.map some := mapM_getBlock_eq_ok_iff.mp hbs ▸
      List.mem_map_of_mem (List.mem_flatMap.mpr ⟨b, hb, ht⟩)
    obtain ⟨c, -, hc⟩ := List.mem_map.mp hmem
    exact hasSerial_iff.mpr (lt_of_block? hc.symm)
  · intro h
    refine exists_mapM_getBlock fun t ht => ?_
    obtain ⟨b, hb, ht⟩ := List.mem_flatMap.mp ht
    obtain ⟨h₀, hlt⟩ := hasSerial_iff.mp (h b hb t ht)
    exact exists_block? h₀ hlt

theorem Verified.liveness_eq (hf : f.Verified) : f.liveness = .ok f.liveSets := by
  refine liveness_eq_ok_iff.mpr fun b hb t ht => ?_
  obtain ⟨s, hb⟩ := exists_block?_of_mem hb
  exact hasSerial_iff.mpr ((hf.fits hb).inside t (hf.succs_eq hb ▸ ht))

/-! ## Live variables -/

/-- What is live into the block at a serial. -/
def liveIn (f : Func) (s : Int) : List Var := (f.liveSets[s.toNat]?).elim [] (·.onEntry)

/-- What is live out of the block at a serial. -/
def liveOut (f : Func) (s : Int) : List Var := (f.liveSets[s.toNat]?).elim [] (·.onExit)

theorem exists_liveSets {s : Int} (hb : f.block? s = some b) :
    ∃ own, f.liveSets[s.toNat]? = some own ∧ growBlock b f.liveSets own = own := by
  obtain ⟨hstable, hbounded⟩ := f.growRound_liveSets
  have hbs := block?_toNat hb
  have hlt := (List.getElem?_eq_some_iff.mp hbs).1
  obtain ⟨own, hown⟩ : ∃ own, f.liveSets[s.toNat]? = some own :=
    ⟨_, List.getElem?_eq_getElem (hbounded.length_eq ▸ hlt)⟩
  refine ⟨own, hown, (growAt_stable (congrArg totalSize hstable)).2 ?_ hbs hown⟩
  simpa using hlt

theorem mem_liveOut_of_mem_succs {s t : Int} (hb : f.block? s = some b) (ht : t ∈ b.succs)
    (h₀ : 0 ≤ t) (hv : v ∈ f.liveIn t) : v ∈ f.liveOut s := by
  obtain ⟨own, hown, hgrow⟩ := exists_liveSets hb
  rw [liveOut, hown, Option.elim_some, ← hgrow]
  refine mem_adjoinAll.mpr (.inr (List.mem_flatMap.mpr ⟨t, ht, ?_⟩))
  rw [if_pos h₀]
  exact hv

/-- **What is live into a successor is live out of the block.** -/
theorem mem_liveOut (hf : f.Verified) {s t : Int} (hb : f.block? s = some b) (ht : t ∈ b.exits)
    (hv : v ∈ f.liveIn t) : v ∈ f.liveOut s :=
  mem_liveOut_of_mem_succs hb (hf.succs_eq hb ▸ ht) ((hf.fits hb).inside t ht).1 hv

/-- **What a block inherits, or has live out of it and does not write, is live into it.** -/
theorem mem_liveIn {s : Int} (hb : f.block? s = some b)
    (hv : v ∈ b.free ∨ (v ∈ f.liveOut s ∧ v ∉ b.defs)) : v ∈ f.liveIn s := by
  obtain ⟨own, hown, hgrow⟩ := exists_liveSets hb
  rw [liveIn, hown, Option.elim_some, ← hgrow]
  refine mem_adjoinAll.mpr (.inr (List.mem_append.mpr (hv.imp id fun ⟨hout, hd⟩ => ?_)))
  rw [liveOut, hown, Option.elim_some, ← hgrow] at hout
  exact List.mem_filter.mpr ⟨hout, by simpa using hd⟩

end Func

end Deflatten

import Deflatten.Flattening.Samples
import Deflatten.Proofs.Editing.Liveness
import Mathlib.Logic.Function.Iterate

/-!
# Proofs/Editing/LivePaths — what is live is read on some path

A variable is live into a block if and only if a path along the successors leads to a block that
inherits it and no block before that one writes it (`mem_liveIn_iff`).  The growing sets hold nothing
else at any time (`Justified`), and once a round adds nothing they hold all of it, since what a path
asks for is handed back block by block.  So the sets are the least solution of their equations
(`liveness_exact`).
-/

namespace Deflatten

open Samples (sum)

namespace Func

variable {f : Func} {b : Block} {sets : List LiveSets} {own : LiveSets} {i k : Nat} {s : Int}
  {v : Var} {path : Nat → Int}

/-! ## Paths to a read -/

/-- **A path to a read**: it goes `k` times to a successor, to a block that inherits `v`, and no
block before that one writes `v`. -/
structure ReadPath (f : Func) (v : Var) (s : Int) (k : Nat) (path : Nat → Int) : Prop where
  /-- It starts at the block. -/
  start : path 0 = s
  /-- Each block on the way leads to the next and leaves `v` alone. -/
  passes : ∀ j < k, ∃ b, f.block? (path j) = some b ∧ v ∉ b.defs ∧ path (j + 1) ∈ b.succs
  /-- The last block inherits `v`. -/
  reads : ∃ b, f.block? (path k) = some b ∧ v ∈ b.free

/-- The serials from which some path leads to a read. -/
inductive ReadsLater (f : Func) (v : Var) : Int → Prop
  /-- The block inherits the variable. -/
  | here {s : Int} {b : Block} (hb : f.block? s = some b) (hv : v ∈ b.free) : ReadsLater f v s
  /-- The block does not write it, and leads to a block from which it is read. -/
  | through {s t : Int} {b : Block} (hb : f.block? s = some b) (hd : v ∉ b.defs) (ht : t ∈ b.succs)
      (h : ReadsLater f v t) : ReadsLater f v s

theorem ReadsLater.exists_block? (h : f.ReadsLater v s) : ∃ b, f.block? s = some b := by
  cases h with
  | here hb _ => exact ⟨_, hb⟩
  | through hb _ _ _ => exact ⟨_, hb⟩

theorem ReadsLater.nonneg (h : f.ReadsLater v s) : 0 ≤ s := by
  obtain ⟨b, hb⟩ := h.exists_block?
  exact (lt_of_block? hb).1

/-- A path with a block in front of it. -/
def consPath (s : Int) (path : Nat → Int) : Nat → Int
  | 0 => s
  | j + 1 => path j

theorem ReadsLater.exists_readPath (h : f.ReadsLater v s) : ∃ k path, f.ReadPath v s k path := by
  induction h with
  | here hb hv => exact ⟨0, fun _ => _, rfl, by simp, _, hb, hv⟩
  | @through s t b hb hd ht _ ih =>
    obtain ⟨k, path, hstart, hpasses, hreads⟩ := ih
    refine ⟨k + 1, consPath s path, rfl, fun j hj => ?_, hreads⟩
    cases j with
    | zero => exact ⟨b, hb, hd, by rwa [consPath, hstart]⟩
    | succ j => exact hpasses j (by omega)

theorem ReadPath.readsLater (h : f.ReadPath v s k path) : f.ReadsLater v s := by
  induction k generalizing s path with
  | zero =>
    obtain ⟨rfl, -, b, hb, hv⟩ := h
    exact .here hb hv
  | succ k ih =>
    obtain ⟨rfl, hpasses, hreads⟩ := h
    obtain ⟨b, hb, hd, ht⟩ := hpasses 0 (by omega)
    have htail : f.ReadPath v (path 1) k fun j => path (j + 1) :=
      ⟨rfl, fun j hj => hpasses (j + 1) (by omega), hreads⟩
    exact .through hb hd ht (ih htail)

/-! ## Nothing else is live -/

/-- **Every variable in the sets is read on some path.** -/
structure Justified (f : Func) (sets : List LiveSets) : Prop where
  /-- What is in an entry set is read from the block on. -/
  entry : ∀ {i : Nat} {l v}, sets[i]? = some l → v ∈ LiveSets.onEntry l → f.ReadsLater v i
  /-- What is in an exit set is read from a successor on. -/
  exit : ∀ {i : Nat} {l v}, sets[i]? = some l → v ∈ LiveSets.onExit l →
    ∃ b, f.blocks[i]? = some b ∧ ∃ t ∈ b.succs, f.ReadsLater v t

theorem Justified.exit_growBlock (h : f.Justified sets) (hb : f.blocks[i]? = some b)
    (hown : sets[i]? = some own) (hv : v ∈ (growBlock b sets own).onExit) :
    ∃ t ∈ b.succs, f.ReadsLater v t := by
  rcases mem_adjoinAll.mp hv with hv | hv
  · obtain ⟨b', hb', hread⟩ := h.exit hown hv
    obtain rfl := Option.mem_unique hb hb'
    exact hread
  · obtain ⟨t, ht, hv⟩ := List.mem_flatMap.mp hv
    split at hv
    · next h₀ =>
      cases hl : sets[t.toNat]? with
      | none => simp [hl] at hv
      | some l =>
        rw [hl, Option.elim_some] at hv
        exact ⟨t, ht, Int.toNat_of_nonneg h₀ ▸ h.entry hl hv⟩
    · cases hv

theorem Justified.entry_growBlock (h : f.Justified sets) (hb : f.blocks[i]? = some b)
    (hown : sets[i]? = some own) (hv : v ∈ (growBlock b sets own).onEntry) :
    f.ReadsLater v i := by
  have hbi : f.block? i = some b := (f.block?_natCast i).trans hb
  rcases mem_adjoinAll.mp hv with hv | hv
  · exact h.entry hown hv
  · rcases List.mem_append.mp hv with hv | hv
    · exact .here hbi hv
    · obtain ⟨hv, hd⟩ := List.mem_filter.mp hv
      obtain ⟨t, ht, hread⟩ := h.exit_growBlock hb hown hv
      exact .through hbi (by simpa using hd) ht hread

theorem Justified.set_growBlock (h : f.Justified sets) (hb : f.blocks[i]? = some b)
    (hown : sets[i]? = some own) : f.Justified (sets.set i (growBlock b sets own)) := by
  -- a set of the new list is the grown one, at `i`, or an old one
  have hset {j : Nat} {l : LiveSets} (hl : (sets.set i (growBlock b sets own))[j]? = some l) :
      (i = j ∧ l = growBlock b sets own) ∨ sets[j]? = some l := by
    grind
  constructor
  · intro j l v hl hv
    rcases hset hl with ⟨rfl, rfl⟩ | hl
    · exact h.entry_growBlock hb hown hv
    · exact h.entry hl hv
  · intro j l v hl hv
    rcases hset hl with ⟨rfl, rfl⟩ | hl
    · exact ⟨b, hb, h.exit_growBlock hb hown hv⟩
    · exact h.exit hl hv

theorem Justified.growRound (h : f.Justified sets) : f.Justified (f.growRound sets) :=
  growAt_induction Justified.set_growBlock h _

/-- The sets before the first round. -/
def noneLive (f : Func) : List LiveSets :=
  f.blocks.map fun _ => {}

theorem justified_noneLive (f : Func) : f.Justified f.noneLive := by
  have hempty {i : Nat} {l : LiveSets} (hl : f.noneLive[i]? = some l) : l = {} := by
    obtain ⟨b, -, hl⟩ := List.mem_map.mp (List.mem_of_getElem? hl)
    exact hl.symm
  constructor
  · intro i l v hl hv
    simp [hempty hl] at hv
  · intro i l v hl hv
    simp [hempty hl] at hv

theorem exists_growUntilStable_eq (f : Func) (rounds : Nat) (sets : List LiveSets) :
    ∃ n, f.growUntilStable rounds sets = f.growRound^[n] sets := by
  induction rounds generalizing sets with
  | zero => exact ⟨0, rfl⟩
  | succ rounds ih =>
    rw [growUntilStable]
    split
    · exact ⟨0, rfl⟩
    · obtain ⟨n, hn⟩ := ih (f.growRound sets)
      exact ⟨n + 1, hn⟩

theorem exists_liveSets_eq (f : Func) : ∃ n, f.liveSets = f.growRound^[n] f.noneLive :=
  f.exists_growUntilStable_eq _ _

theorem justified_liveSets (f : Func) : f.Justified f.liveSets := by
  obtain ⟨n, hn⟩ := f.exists_liveSets_eq
  rw [hn]
  clear hn
  induction n with
  | zero => exact f.justified_noneLive
  | succ n ih => exact Function.iterate_succ_apply' f.growRound n _ ▸ ih.growRound

/-! ## All of it is live -/

/-- **A read on some path is all there is to being live.** -/
theorem mem_liveIn_iff (hb : f.block? s = some b) : v ∈ f.liveIn s ↔ f.ReadsLater v s := by
  constructor
  · obtain ⟨own, hown, -⟩ := exists_liveSets hb
    rw [liveIn, hown, Option.elim_some]
    intro hv
    have hread := f.justified_liveSets.entry hown hv
    rwa [Int.toNat_of_nonneg (lt_of_block? hb).1] at hread
  · intro h
    clear hb
    -- along the path, from its read back to the block
    induction h with
    | here hb hv => exact mem_liveIn hb (.inl hv)
    | through hb hd ht h ih =>
      exact mem_liveIn hb (.inr ⟨mem_liveOut_of_mem_succs hb ht h.nonneg ih, hd⟩)

theorem exists_succ_of_mem_liveOut (hb : f.block? s = some b) (hv : v ∈ f.liveOut s) :
    ∃ t ∈ b.succs, f.ReadsLater v t := by
  obtain ⟨own, hown, -⟩ := exists_liveSets hb
  rw [liveOut, hown, Option.elim_some] at hv
  obtain ⟨b', hb', hread⟩ := f.justified_liveSets.exit hown hv
  obtain rfl := Option.mem_unique (block?_toNat hb) hb'
  exact hread

theorem mem_liveOut_iff (hsuccs : ∀ b ∈ f.blocks, ∀ t ∈ b.succs, f.hasSerial t = true)
    (hb : f.block? s = some b) : v ∈ f.liveOut s ↔ ∃ t ∈ b.succs, v ∈ f.liveIn t := by
  constructor
  · intro hv
    obtain ⟨t, ht, hread⟩ := exists_succ_of_mem_liveOut hb hv
    obtain ⟨c, hc⟩ := hread.exists_block?
    exact ⟨t, ht, (mem_liveIn_iff hc).mpr hread⟩
  · rintro ⟨t, ht, hv⟩
    have hin := hsuccs b (List.mem_of_getElem? (block?_toNat hb)) t ht
    exact mem_liveOut_of_mem_succs hb ht (hasSerial_iff.mp hin).1 hv

/-! ## The least solution -/

/-- **The equations of the live sets**, for sets given as predicates. -/
structure Solves (f : Func) (onEntry onExit : Int → Var → Prop) : Prop where
  /-- Live on entry: inherited, or live on exit and not written. -/
  entry_iff : ∀ {s b v}, f.block? s = some b →
    (onEntry s v ↔ v ∈ Block.free b ∨ onExit s v ∧ v ∉ Block.defs b)
  /-- Live on exit: live on entry of a successor. -/
  exit_iff : ∀ {s b v}, f.block? s = some b → (onExit s v ↔ ∃ t ∈ Block.succs b, onEntry t v)

theorem Solves.of_readsLater {onEntry onExit : Int → Var → Prop} (h : f.Solves onEntry onExit)
    (hread : f.ReadsLater v s) : onEntry s v := by
  induction hread with
  | here hb hv => exact (h.entry_iff hb).mpr (.inl hv)
  | through hb hd ht _ ih =>
    exact (h.entry_iff hb).mpr (.inr ⟨(h.exit_iff hb).mpr ⟨_, ht, ih⟩, hd⟩)

theorem solves_liveness (hsuccs : ∀ b ∈ f.blocks, ∀ t ∈ b.succs, f.hasSerial t = true) :
    f.Solves (fun s v => v ∈ f.liveIn s) (fun s v => v ∈ f.liveOut s) := by
  refine ⟨fun {s b v} hb => ⟨fun hv => ?_, mem_liveIn hb⟩, mem_liveOut_iff hsuccs⟩
  cases (mem_liveIn_iff hb).mp hv with
  | here hb' hv =>
    obtain rfl := Option.mem_unique hb hb'
    exact .inl hv
  | through hb' hd ht hread =>
    obtain rfl := Option.mem_unique hb hb'
    obtain ⟨c, hc⟩ := hread.exists_block?
    exact .inr ⟨(mem_liveOut_iff hsuccs hb).mpr ⟨_, ht, (mem_liveIn_iff hc).mpr hread⟩, hd⟩

/-- **The live sets are exact.**  With all successors inside the function they are found: the rounds
come to an end, where one more adds nothing, and leave one pair of sets for each block.  A variable is
live into a block if and only if some path leads to a read of it, and live out of a block if and only if
it is live into a successor.  The sets solve the equations, and every solution contains them. -/
theorem liveness_exact (hsuccs : ∀ b ∈ f.blocks, ∀ t ∈ b.succs, f.hasSerial t = true) :
    f.liveness = .ok f.liveSets ∧
    (∃ rounds, f.growRound^[rounds + 1] f.noneLive = f.growRound^[rounds] f.noneLive ∧
      f.liveSets = f.growRound^[rounds] f.noneLive) ∧
    f.liveSets.length = f.blocks.length ∧
    (∀ s b, f.block? s = some b → ∀ v,
      (v ∈ f.liveIn s ↔ ∃ k path, f.ReadPath v s k path) ∧
      (v ∈ f.liveOut s ↔ ∃ t ∈ b.succs, v ∈ f.liveIn t)) ∧
    f.Solves (fun s v => v ∈ f.liveIn s) (fun s v => v ∈ f.liveOut s) ∧
    ∀ onEntry onExit, f.Solves onEntry onExit → ∀ s b, f.block? s = some b → ∀ v,
      (v ∈ f.liveIn s → onEntry s v) ∧ (v ∈ f.liveOut s → onExit s v) := by
  obtain ⟨hstable, hbounded⟩ := f.growRound_liveSets
  refine ⟨liveness_eq_ok_iff.mpr hsuccs, ?_, hbounded.length_eq,
    fun s b hb v => ⟨?_, mem_liveOut_iff hsuccs hb⟩, solves_liveness hsuccs,
    fun onEntry onExit h s b hb v => ⟨fun hv => ?_, fun hv => ?_⟩⟩
  · obtain ⟨rounds, hrounds⟩ := f.exists_liveSets_eq
    refine ⟨rounds, ?_, hrounds⟩
    rw [Function.iterate_succ_apply', ← hrounds, hstable]
  · rw [mem_liveIn_iff hb]
    constructor
    · exact ReadsLater.exists_readPath
    · rintro ⟨k, path, hpath⟩
      exact hpath.readsLater
  · exact h.of_readsLater ((mem_liveIn_iff hb).mp hv)
  · obtain ⟨t, ht, hread⟩ := exists_succ_of_mem_liveOut hb hv
    exact (h.exit_iff hb).mpr ⟨t, ht, h.of_readsLater hread⟩

/-- In the loop of the sum the bound, register 0, is live into the body, which does not read it: the
way back to the head does.  The total, register 1, is not live into the function, since its first
block sets it. -/
theorem liveness_exact_sum :
    (∀ b ∈ sum.blocks, ∀ t ∈ b.succs, sum.hasSerial t = true) ∧
    .reg 0 ∈ sum.liveIn 2 ∧ (∃ k path, sum.ReadPath (.reg 0) 2 k path) ∧
    .reg 0 ∈ sum.liveOut 2 ∧ ¬∃ k path, sum.ReadPath (.reg 1) 0 k path := by
  have hsuccs : ∀ b ∈ sum.blocks, ∀ t ∈ b.succs, sum.hasSerial t = true := by
    decide +kernel
  obtain ⟨-, -, -, hlive, -, -⟩ := liveness_exact hsuccs
  have hin : .reg 0 ∈ sum.liveIn 2 := by decide +kernel
  have hhead : .reg 0 ∈ sum.liveIn 1 := by decide +kernel
  have hfirst : .reg 1 ∉ sum.liveIn 0 := by decide +kernel
  exact ⟨hsuccs, hin, (hlive 2 _ rfl _).1.mp hin, (hlive 2 _ rfl _).2.mpr ⟨1, by decide, hhead⟩,
    fun h => hfirst ((hlive 0 _ rfl _).1.mpr h)⟩

end Func

end Deflatten

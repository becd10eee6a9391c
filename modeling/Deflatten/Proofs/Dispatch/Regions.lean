import Deflatten.Dispatch.Collect
import Deflatten.Proofs.Dispatch.Bypass
import Deflatten.Proofs.Dispatch.HubChoice
import Deflatten.Proofs.Dispatch.Resolution

/-!
# Proofs/Dispatch/Regions — the steps by which regions are found

The search for regions looks at successors and predecessors only, which are blocks of a verified
function, so none of its steps fails: the choice of a hub, growth by one block and the judgement of
what has grown.  A region is rooted if it is entered at a block that ends in a conditional jump and
does not lead out of it (`Region.Rooted`).
-/

namespace Deflatten

/-- **A region with a proper entry**: a block of the function that branches and is no way out. -/
structure Region.Rooted (d : Region) (f : Func) : Prop where
  /-- The entry stands where it was found. -/
  entry : ∃ i, d.entry? = some i ∧ i.place = d.entrySerial
  /-- It ends in a conditional jump. -/
  branch : ∃ b, f.block? d.entrySerial = some b ∧ b.IsBranch
  not_exit : d.isExit d.entrySerial = false
  /-- What is internal is a block. -/
  blocks : ∀ x, d.isInternal x = true → ∃ b, f.block? x = some b

theorem Block.isBranch_of_comparison? {b : Block} {c : Comparison} (h : b.comparison? = some c) :
    b.IsBranch := by
  simp only [comparison?, Option.bind_eq_bind, Option.bind_eq_some_iff] at h
  obtain ⟨t, ht, h⟩ := h
  by_cases hc : t.op.isConditional = true
  · have hends : t.op.endsBlock = true := by
      simp [Opcode.endsBlock, Opcode.isJump, hc]
    exact ⟨t, by simp [terminator?, ht, hends], hc⟩
  · simp [Opcode.isFlatteningJump, hc] at h

namespace Func

variable {f : Func} {s : Int} {b : Block}

/-! ## The hub -/

/-- The guessed hub is a block, if there is one. -/
theorem guessHub_cases (hf : f.Shaped) (minPreds : Int) :
    f.guessHub minPreds = noBlock ∨ ∃ b, f.block? (f.guessHub minPreds) = some b := by
  rcases bestHub_eq f.blocks noBlock minPreds with ⟨h, -⟩ | ⟨before, b, after, hbs, h, -⟩
  · exact .inl h
  · obtain ⟨s, hs⟩ := exists_block?_of_mem (f := f) (b := b) (by simp [hbs])
    refine .inr ⟨b, ?_⟩
    rw [guessHub, h, hf.placed hs, hs]

/-- The last block before a hub is a block, if there is one. -/
theorem lastBeforeHub_spec (hf : f.Verified) {hub : Int}
    (hhub : hub = noBlock ∨ ∃ b, f.block? hub = some b) :
    ∃ last, f.lastBeforeHub hub = .ok last ∧ (last = noBlock ∨ ∃ b, f.block? last = some b) := by
  unfold lastBeforeHub
  by_cases hn : hub = noBlock
  · exact ⟨noBlock, by simp [hn], .inl rfl⟩
  · obtain ⟨d, hd⟩ := hhub.resolve_left hn
    have hpreds : ∀ p ∈ d.preds, ∃ b, f.block? p = some b := by
      intro p hp
      obtain ⟨b, hb, -⟩ := (hf.mem_preds hd p).mp hp
      exact ⟨b, hb⟩
    simp only [hn, if_false, getBlock_of_block? hd]
    cases hps : d.preds with
    | nil => exact ⟨noBlock, rfl, .inl rfl⟩
    | cons first rest =>
      obtain ⟨b, hb⟩ := hpreds first (by simp [hps])
      simp only [getBlock_of_block? hb]
      split
      · exact ⟨first, rfl, .inr ⟨b, hb⟩⟩
      · rw [← hps]
        obtain ⟨x, hx, hleast, -⟩ := leastPlainPred_eq hub hpreds hub
        refine ⟨if x = hub then noBlock else x, by rw [hx]; rfl, ?_⟩
        split
        · exact .inl rfl
        · next hne => exact .inr (hpreds x (hleast.resolve_left hne).1)

theorem lastBeforeHub_cases (hf : f.Verified) {minPreds last : Int}
    (h : f.lastBeforeHub (f.guessHub minPreds) = .ok last) :
    last = noBlock ∨ ∃ b, f.block? last = some b := by
  obtain ⟨last', hok, hlast⟩ := lastBeforeHub_spec hf (guessHub_cases hf.toShaped minPreds)
  exact Except.ok.inj (hok.symm.trans h) ▸ hlast

/-- Looking for a candidate does not fail. -/
theorem isCandidateEntry_spec (hf : f.Verified) (hb : f.block? s = some b) :
    ∃ candidate, f.isCandidateEntry b = .ok candidate := by
  have hpreds : ∀ p ∈ b.preds, ∃ b, f.block? p = some b := by
    intro p hp
    obtain ⟨b, hb, -⟩ := (hf.mem_preds hb p).mp hp
    exact ⟨b, hb⟩
  have hbefore : ∀ (o : Operand) (ps : List Int), (∀ p ∈ ps, ∃ b, f.block? p = some b) →
      ∃ r, f.comparedBefore b.serial o ps = .ok r := by
    intro o ps hps
    induction ps with
    | nil => exact ⟨false, rfl⟩
    | cons p ps ih =>
      obtain ⟨t, ht⟩ := hps p (by simp)
      simp only [comparedBefore, getBlock_of_block? ht]
      split
      · exact ⟨true, rfl⟩
      · exact ih fun q hq => hps q (by simp [hq])
  unfold isCandidateEntry
  cases b.comparison? with
  | none => exact ⟨false, rfl⟩
  | some c =>
    obtain ⟨r, hr⟩ := hbefore c.compared b.preds hpreds
    exact ⟨!r, by simp [hr, Except.map]⟩

end Func

namespace Region

variable {f : Func} {s : Int} {b : Block} {d : Region} {father : BlockInfo} {ss : List Int}
  {stack : List (BlockInfo × List Int)} {fuel : Nat}

/-! ## Growth -/

/-- The region with more internal blocks and exits. -/
def extend (d : Region) (ints outs : List BlockInfo) : Region :=
  { d with internal := d.internal ++ ints, exits := d.exits ++ outs.map fun i => ⟨i, []⟩ }

theorem extend_extend (d : Region) (ints outs ints' outs' : List BlockInfo) :
    (d.extend ints outs).extend ints' outs' = d.extend (ints ++ ints') (outs ++ outs') := by
  simp [extend]

/-- A serial that has not been classified. -/
def Unseen (d : Region) (s : Int) : Prop := d.isInternal s = false ∧ d.isExit s = false

theorem Unseen.extend (h : d.Unseen s) {ints outs : List BlockInfo}
    (hi : ∀ x ∈ ints, x.serial ≠ s) (ho : ∀ x ∈ outs, x.place ≠ s) :
    (d.extend ints outs).Unseen s := by
  obtain ⟨h₁, h₂⟩ := h
  simp only [isInternal, isExit, List.any_eq_false, beq_iff_eq] at h₁ h₂
  constructor
  · simp only [Region.extend, isInternal, List.any_eq_false, beq_iff_eq, List.mem_append]
    rintro x (hx | hx)
    · exact h₁ x hx
    · exact hi x hx
  · simp only [Region.extend, isExit, List.any_eq_false, beq_iff_eq, List.mem_append, List.mem_map]
    rintro x (hx | ⟨y, hy, rfl⟩)
    · exact h₂ x hx
    · exact ho y hy

/-- A block that does not belong is a way out. -/
theorem grow_exit (hs : d.Unseen s) (hb : f.block? s = some b)
    (hbel : belongs father (father.child b s) = false) :
    grow f (fuel + 1) ((father, s :: ss) :: stack) d =
      grow f fuel ((father, ss) :: stack) (d.extend [] [father.child b s]) := by
  rw [grow, hs.1, hs.2]
  simp only [Bool.or_self, Bool.false_eq_true, if_false, Func.getBlock_of_block? hb, hbel]
  simp [addExit, extend]

/-- One that belongs is looked into first. -/
theorem grow_internal (hs : d.Unseen s) (hb : f.block? s = some b)
    (hbel : belongs father (father.child b s) = true) :
    grow f (fuel + 1) ((father, s :: ss) :: stack) d =
      grow f fuel ((father.child b s, b.succs) :: (father, ss) :: stack)
        (d.extend [father.child b s] []) := by
  rw [grow, hs.1, hs.2]
  simp only [Bool.or_self, Bool.false_eq_true, if_false, Func.getBlock_of_block? hb, hbel, if_true]
  simp [addInternal, extend]

theorem grow_nil (f : Func) (fuel : Nat) (d : Region) : grow f fuel [] d = (d, none) := by
  cases fuel <;> rfl

theorem map_info_pairAll (resolved : List (UInt64 × Option Int)) (xs : List Exit) :
    (pairAll resolved xs).map Exit.info = xs.map Exit.info := by
  induction xs with
  | nil => rfl
  | cons x xs ih =>
    rw [pairAll, List.map_cons, List.map_cons, ih]
    congr 1
    split <;> rfl

theorem pairExits_eq_ok_iff {d' : Region} : d.pairExits f = .ok d' ↔
    ∃ resolved, d.resolveAll f = .ok resolved ∧ { d with exits := pairAll resolved d.exits } = d' :=
  map_eq_ok_iff

/-- Where what is internal is a block, exits are paired without an error. -/
theorem exists_pairExits (hin : ∀ x, d.isInternal x = true → ∃ b, f.block? x = some b) :
    ∃ d', d.pairExits f = .ok d' := by
  have hall : ∀ v ∈ d.values, ∃ r, ((d.resolve? f v).map fun s => (v, s)) = .ok r := fun v _ => by
    obtain ⟨way, hway⟩ := exists_resolvePath? hin v
    exact ⟨_, map_eq_ok_iff.mpr ⟨_, map_eq_ok_iff.mpr ⟨way, hway, rfl⟩, rfl⟩⟩
  obtain ⟨resolved, hresolved⟩ := exists_mapM_eq_ok hall
  exact ⟨_, pairExits_eq_ok_iff.mpr ⟨resolved, hresolved, rfl⟩⟩

/-- Judgement keeps the blocks and the state of a region. -/
theorem judge_region (cfg : Config) (f : Func) (blk : Int) (d : Region) :
    (judge cfg f blk d).region.internal = d.internal ∧
      (judge cfg f blk d).region.state? = d.state? ∧
      (judge cfg f blk d).region.exits.map Exit.info = d.exits.map Exit.info := by
  unfold judge
  dsimp only
  split
  · exact ⟨rfl, rfl, rfl⟩
  split
  · exact ⟨rfl, rfl, rfl⟩
  split
  · exact ⟨rfl, rfl, rfl⟩
  · next h =>
    obtain ⟨resolved, -, rfl⟩ := pairExits_eq_ok_iff.mp h
    exact ⟨rfl, rfl, map_info_pairAll ..⟩

theorem exists_verdict_judge (hin : ∀ x, d.isInternal x = true → ∃ b, f.block? x = some b)
    (cfg : Config) (blk : Int) : ∃ r, (judge cfg f blk d).verdict = .ok r := by
  unfold judge
  dsimp only
  split
  · exact ⟨_, rfl⟩
  split
  · exact ⟨_, rfl⟩
  · obtain ⟨d', hd'⟩ := exists_pairExits
      (d := { d with entropy := Deflatten.entropy d.values d.cmpSize }) hin
    rw [hd']
    exact ⟨_, rfl⟩

/-! ## Exploration -/

theorem entryInfo_spec (hub : Int) {last : Int} (hlast : last = noBlock ∨ ∃ b, f.block? last = some b)
    (b : Block) : ∃ i, entryInfo f hub last s b = .ok i ∧ i.place = s ∧ i.block = b := by
  unfold entryInfo
  split
  · next h =>
    obtain ⟨t, ht⟩ := hlast.resolve_left h.2
    rw [Func.getBlock_of_block? ht]
    exact ⟨_, rfl, rfl, rfl⟩
  · exact ⟨_, rfl, rfl, rfl⟩

/-- Exploration from a block that may start a region judges what grows from it. -/
theorem explore_eq_judge {cfg : Config} {hub last : Int} {viaHub : Bool} {c : Comparison}
    {x : BlockInfo} (hadm : admits cfg f hub b = .ok (some viaHub)) (hc : b.comparison? = some c)
    (hentry : entryInfo f hub last s b = .ok x)
    (hgrow : grow f (growthBound f) [(x, b.succs)] (seed hub last viaHub x c) = (d, none)) :
    explore cfg f hub last s b = judge cfg f b.serial d := by
  simp only [explore, hadm, hc, hentry, hgrow]

end Region

namespace Func

variable {f : Func}

/-- The blocks are tried with their serials. -/
theorem mem_zipIdx_blocks {x : Block × Nat} :
    x ∈ f.blocks.zipIdx ↔ f.block? x.2 = some x.1 := by
  rw [block?_natCast]
  exact List.mem_zipIdx_iff_getElem?

end Func

end Deflatten

import Mathlib.Data.List.Sort
import Deflatten.Proofs.Dispatch.Discovery

/-!
# Proofs/Dispatch/Collection — which regions are collected

A block offers a region if exploration from it believes one that is not too small.  Of the regions
that are offered, collection takes those that overlap none taken before (`Func.collect_gathers`).
`Func.Gathers` states that rule of a list of regions; it has one solution (`Gathers.unique`), and
the loop over the blocks keeps to it (`collectFrom_gleans`).  So every region that is collected is
rooted (`Func.collect_spec`).
-/

namespace Deflatten

open Samples (block branching function lit reg)

namespace Region

variable {cfg : Config} {f : Func} {d : Region} {s : Int} {b : Block}

/-- Regions with a block in common. -/
def Overlaps (d d' : Region) : Prop := ∃ t, d.isInternal t = true ∧ d'.isInternal t = true

/-- **A region that is large enough.** -/
structure Ample (d : Region) (cfg : Config) : Prop where
  internal : cfg.minInternalBlocks ≤ d.internal.length
  exits : cfg.minExitBlocks ≤ d.exits.length
  values : cfg.minComparisonValues ≤ d.distinctValues

theorem ample_iff_isSmall : d.Ample cfg ↔ d.isSmall cfg = false := by
  simp only [isSmall, Bool.or_eq_false_iff, decide_eq_false_iff_not, Int.not_lt, and_assoc]
  exact ⟨fun h => ⟨h.1, h.2, h.3⟩, fun h => ⟨h.1, h.2.1, h.2.2⟩⟩

theorem mem_internalSerials : s ∈ d.internalSerials ↔ d.isInternal s = true := by
  rw [internalSerials, sortedSerials, List.mem_mergeSort, mem_distinct, isInternal_iff,
    List.mem_map]

/-- What is believed grew from a block that may start a region. -/
theorem admits_of_believed {hub last : Int} (h : (explore cfg f hub last s b).verdict = .ok true) :
    ∃ viaHub, admits cfg f hub b = .ok (some viaHub) := by
  unfold explore at h
  split at h
  · cases h
  · cases h
  · cases h
  · next viaHub _ hadm _ => exact ⟨viaHub, hadm⟩

end Region

namespace Func

variable {cfg : Config} {f : Func} {d d' : Region} {ds es : List Region} {s : Int}
  {taken ss : List Int}

/-! ## Offers -/

/-- **A block offers a region**: exploration from it believes the region, which is not too small. -/
structure Offers (cfg : Config) (f : Func) (s : Int) (d : Region) : Prop where
  /-- The region is believed. -/
  believed : ∃ last b, f.lastBeforeHub (f.guessHub cfg.minPredecessors) = .ok last ∧
    f.block? s = some b ∧
    (Region.explore cfg f (f.guessHub cfg.minPredecessors) last s b).verdict = .ok true ∧
    (Region.explore cfg f (f.guessHub cfg.minPredecessors) last s b).region = d
  ample : d.Ample cfg

/-- What a block offers is what was explored from it. -/
theorem offers_iff {last : Int} {b : Block}
    (hlast : f.lastBeforeHub (f.guessHub cfg.minPredecessors) = .ok last)
    (hb : f.block? s = some b) : f.Offers cfg s d ↔
      (Region.explore cfg f (f.guessHub cfg.minPredecessors) last s b).verdict = .ok true ∧
      (Region.explore cfg f (f.guessHub cfg.minPredecessors) last s b).region = d ∧
      d.Ample cfg := by
  constructor
  · rintro ⟨⟨last', b', hlast', hb', hver, hregion⟩, hample⟩
    obtain rfl := Except.ok.inj (hlast.symm.trans hlast')
    obtain rfl := Option.mem_unique hb hb'
    exact ⟨hver, hregion, hample⟩
  · exact fun ⟨hver, hregion, hample⟩ => ⟨⟨last, b, hlast, hb, hver, hregion⟩, hample⟩

/-- A block offers one region at most. -/
theorem Offers.unique (h : f.Offers cfg s d) (h' : f.Offers cfg s d') : d = d' := by
  obtain ⟨last, b, hlast, hb, -, hregion⟩ := h.believed
  obtain ⟨-, hregion', -⟩ := (offers_iff hlast hb).mp h'
  exact hregion.symm.trans hregion'

/-- The region is entered at the block that offers it. -/
theorem Offers.head (hf : f.Verified) (h : f.Offers cfg s d) :
    ∃ i, d.internal.head? = some i ∧ i.serial = s := by
  obtain ⟨last, b, hlast, hb, hver, rfl⟩ := h.believed
  obtain ⟨viaHub, hadm⟩ := Region.admits_of_believed hver
  obtain ⟨entry, _, d, hblock, hord, heq⟩ :=
    Region.exists_explore hf (lastBeforeHub_cases hf hlast) hb hadm
  refine ⟨entry, ?_, by rw [BlockInfo.serial, hblock, hf.placed hb]⟩
  rw [heq, (Region.judge_region cfg f b.serial d).1]
  exact hord.first.2.1

theorem Offers.entrySerial (hf : f.Verified) (h : f.Offers cfg s d) : d.entrySerial = s := by
  obtain ⟨i, hi, hs⟩ := h.head hf
  rw [Region.entrySerial, Region.entry?, hi]
  exact hs

theorem Offers.isInternal (hf : f.Verified) (h : f.Offers cfg s d) : d.isInternal s = true := by
  obtain ⟨i, hi, hs⟩ := h.head hf
  exact Region.isInternal_iff.mpr ⟨i, List.mem_of_head? hi, hs⟩

/-! ## The rule -/

/-- **The rule by which regions are collected.** -/
structure Gathers (cfg : Config) (f : Func) (ds : List Region) : Prop where
  /-- Entries ascend. -/
  ascending : ds.Pairwise fun d d' => d.entrySerial < d'.entrySerial
  /-- No block is internal to two regions. -/
  disjoint : ds.Pairwise fun d d' => ¬ d.Overlaps d'
  /-- Each region is offered by its entry. -/
  offered : ∀ d ∈ ds, f.Offers cfg d.entrySerial d
  /-- A region that is offered is there, unless a region with a smaller entry has the block that
  offers it or overlaps it. -/
  complete : ∀ s d, f.Offers cfg s d → d ∈ ds ∨
    ∃ d' ∈ ds, d'.entrySerial < s ∧ (d'.isInternal s = true ∨ d'.Overlaps d)

/-- A region by the rule overlaps none with a larger entry. -/
theorem Gathers.not_overlaps (h : f.Gathers cfg ds) (hd : d ∈ ds) (hd' : d' ∈ ds)
    (hlt : d.entrySerial < d'.entrySerial) : ¬ d.Overlaps d' := by
  have hpair := h.ascending.and h.disjoint
  exact List.Pairwise.forall_of_forall_of_flip
    (R := fun a b => a.entrySerial < b.entrySerial → ¬ a.Overlaps b)
    (fun _ _ hlt => absurd hlt (lt_irrefl _)) (hpair.imp fun h _ => h.2)
    (hpair.imp fun h hlt => absurd h.1 (lt_asymm hlt)) hd hd' hlt

/-- What one solution of the rule takes the other takes too, if they agree before it. -/
theorem Gathers.mem_of_agree (hf : f.Verified) (h : f.Gathers cfg ds) (h' : f.Gathers cfg es)
    (hd : d ∈ ds) (hagree : ∀ d' ∈ es, d'.entrySerial < d.entrySerial → d' ∈ ds) : d ∈ es := by
  have hoff := h.offered d hd
  rcases h'.complete _ d hoff with hmem | ⟨d', hd', hlt, hshare⟩
  · exact hmem
  · have hover : d'.Overlaps d :=
      hshare.elim (fun hint => ⟨_, hint, hoff.isInternal hf⟩) id
    exact absurd hover (h.not_overlaps (hagree d' hd' hlt) hd hlt)

/-- **The rule has one solution.** -/
theorem Gathers.unique (hf : f.Verified) (h : f.Gathers cfg ds) (h' : f.Gathers cfg es) :
    ds = es := by
  -- by the entries: what is taken before a block decides what it adds
  have hmem : ∀ n : Nat, ∀ d : Region, d.entrySerial < n → (d ∈ ds ↔ d ∈ es) := by
    intro n
    induction n with
    | zero =>
      intro d hlt
      have hneg : ∀ {gs : List Region}, f.Gathers cfg gs → d ∉ gs := by
        intro gs hgs hd
        obtain ⟨-, b, -, hb, -⟩ := (hgs.offered d hd).believed
        exact absurd (lt_of_block? hb).1 (by omega)
      exact iff_of_false (hneg h) (hneg h')
    | succ n ih =>
      intro d hlt
      exact ⟨fun hd => h.mem_of_agree hf h' hd fun d' hd' hlt' => (ih d' (by omega)).mpr hd',
        fun hd => h'.mem_of_agree hf h hd fun d' hd' hlt' => (ih d' (by omega)).mp hd'⟩
  have hasym : Std.Antisymm fun d d' : Region => d.entrySerial < d'.entrySerial :=
    ⟨fun _ _ hlt hgt => absurd hgt (lt_asymm hlt)⟩
  have hirrefl : Std.Irrefl fun d d' : Region => d.entrySerial < d'.entrySerial :=
    ⟨fun _ => lt_irrefl _⟩
  exact h.ascending.eq_of_mem_iff h'.ascending fun d =>
    hmem (d.entrySerial.toNat + 1) d (by omega)

/-! ## The loop -/

/-- **The rule halfway through**: the regions taken from the remaining blocks `ss`, the serials in
`taken` being internal to regions before. -/
structure Gleans (cfg : Config) (f : Func) (taken ss : List Int) (ds : List Region) : Prop where
  ascending : ds.Pairwise fun d d' => d.entrySerial < d'.entrySerial
  disjoint : ds.Pairwise fun d d' => ¬ d.Overlaps d'
  /-- Each region is offered by its entry, one of the remaining blocks. -/
  offered : ∀ d ∈ ds, d.entrySerial ∈ ss ∧ f.Offers cfg d.entrySerial d
  /-- No block is internal to a region before. -/
  fresh : ∀ d ∈ ds, ∀ t, d.isInternal t = true → t ∉ taken
  /-- A region that is offered is there, unless it overlaps one before it. -/
  complete : ∀ s ∈ ss, ∀ d, f.Offers cfg s d → d ∈ ds ∨ (∃ t ∈ taken, d.isInternal t = true) ∨
    ∃ d' ∈ ds, d'.entrySerial < s ∧ d'.Overlaps d

theorem Gleans.nil : f.Gleans cfg taken [] [] :=
  ⟨.nil, .nil, by simp, by simp, by simp⟩

/-- A block is passed over that offers nothing new. -/
theorem Gleans.skip (h : f.Gleans cfg taken ss ds)
    (hs : ∀ d, f.Offers cfg s d → ∃ t ∈ taken, d.isInternal t = true) :
    f.Gleans cfg taken (s :: ss) ds := by
  refine ⟨h.ascending, h.disjoint, fun d hd => ?_, h.fresh, fun x hx d hoff => ?_⟩
  · exact ⟨List.mem_cons_of_mem _ (h.offered d hd).1, (h.offered d hd).2⟩
  · rcases List.mem_cons.mp hx with rfl | hx
    · exact .inr (.inl (hs d hoff))
    · exact h.complete x hx d hoff

/-- What a block offers is taken if it is new. -/
theorem Gleans.add (hf : f.Verified) (h : f.Gleans cfg (taken ++ d.internalSerials) ss ds)
    (hlt : ∀ x ∈ ss, s < x) (hoff : f.Offers cfg s d)
    (hfresh : ∀ t, d.isInternal t = true → t ∉ taken) : f.Gleans cfg taken (s :: ss) (d :: ds) := by
  have hentry := hoff.entrySerial hf
  have hbelow : ∀ d' ∈ ds, d.entrySerial < d'.entrySerial := fun d' hd' =>
    hentry ▸ hlt _ (h.offered d' hd').1
  have hnew : ∀ d' ∈ ds, ∀ t, d'.isInternal t = true → t ∉ taken ∧ d.isInternal t = false := by
    intro d' hd' t ht
    simpa [Region.mem_internalSerials] using h.fresh d' hd' t ht
  refine ⟨List.pairwise_cons.mpr ⟨hbelow, h.ascending⟩, List.pairwise_cons.mpr ⟨?_, h.disjoint⟩,
    fun d' hd' => ?_, fun d' hd' => ?_, fun x hx d' hoff' => ?_⟩
  · rintro d' hd' ⟨t, ht, ht'⟩
    exact absurd ht (by simp [(hnew d' hd' t ht').2])
  · rcases List.mem_cons.mp hd' with rfl | hd'
    · exact ⟨by simp [hentry], hentry.symm ▸ hoff⟩
    · exact ⟨List.mem_cons_of_mem _ (h.offered d' hd').1, (h.offered d' hd').2⟩
  · rcases List.mem_cons.mp hd' with rfl | hd'
    · exact hfresh
    · exact fun t ht => (hnew d' hd' t ht).1
  · rcases List.mem_cons.mp hx with rfl | hx
    · exact .inl (by simp [hoff'.unique hoff])
    · rcases h.complete x hx d' hoff' with hmem | ⟨t, ht, hint⟩ | ⟨e, he, hle, hover⟩
      · exact .inl (List.mem_cons_of_mem _ hmem)
      · rcases List.mem_append.mp ht with ht | ht
        · exact .inr (.inl ⟨t, ht, hint⟩)
        · exact .inr (.inr ⟨d, List.mem_cons_self, hentry ▸ hlt x hx, t,
            Region.mem_internalSerials.mp ht, hint⟩)
      · exact .inr (.inr ⟨e, List.mem_cons_of_mem _ he, hle, hover⟩)

/-- **The loop over the blocks does not fail, and keeps to the rule.** -/
theorem collectFrom_gleans (hf : f.Verified) (cfg : Config) {last : Int}
    (hlast : f.lastBeforeHub (f.guessHub cfg.minPredecessors) = .ok last) (bs : List (Block × Nat))
    (hbs : ∀ x ∈ bs, f.block? x.2 = some x.1) (hasc : bs.Pairwise fun x y => x.2 < y.2) :
    ∀ taken,
      (f.collectFrom cfg (f.guessHub cfg.minPredecessors) last taken bs).error? = none ∧
        f.Gleans cfg taken (bs.map fun x => (x.2 : Int))
          (f.collectFrom cfg (f.guessHub cfg.minPredecessors) last taken bs).regions := by
  induction bs with
  | nil => exact fun _ => ⟨rfl, .nil⟩
  | cons x bs ih =>
    obtain ⟨b, place⟩ := x
    intro taken
    obtain ⟨hlt, hasc⟩ := List.pairwise_cons.mp hasc
    have hb : f.block? place = some b := hbs (b, place) (by simp)
    have ih := ih (fun y hy => hbs y (by simp [hy])) hasc
    obtain ⟨r, hr, -⟩ := Region.explore_spec hf cfg (f.guessHub cfg.minPredecessors)
      (lastBeforeHub_cases hf hlast) hb
    have hoffer := fun d => (offers_iff (d := d) hlast hb).mp
    rw [List.map_cons]
    unfold collectFrom
    split
    · next htaken =>
      refine (ih taken).imp_right fun h => h.skip fun d hoff => ⟨b.serial, htaken, ?_⟩
      rw [hf.placed hb]
      exact hoff.isInternal hf
    · simp only [hr]
      cases r with
      | false =>
        exact (ih taken).imp_right fun h => h.skip fun d hoff =>
          absurd (hr.symm.trans (hoffer d hoff).1) (by simp)
      | true =>
        simp only
        split
        · next hsmall =>
          refine (ih taken).imp_right fun h => h.skip fun d hoff => ?_
          obtain ⟨-, rfl, hample⟩ := hoffer d hoff
          simp [Region.ample_iff_isSmall.mp hample] at hsmall
        · next hsmall =>
          split
          · next hover =>
            refine (ih taken).imp_right fun h => h.skip fun d hoff => ?_
            obtain ⟨-, rfl, -⟩ := hoffer d hoff
            obtain ⟨t, ht, htaken⟩ := List.any_eq_true.mp hover
            exact ⟨t, by simpa using htaken, Region.mem_internalSerials.mp ht⟩
          · next hover =>
            refine (ih _).imp_right fun h =>
              h.add hf ?_ ((offers_iff hlast hb).mpr ⟨hr, rfl, ?_⟩) fun t ht htaken => ?_
            · rintro y hy
              obtain ⟨z, hz, rfl⟩ := List.mem_map.mp hy
              exact Int.ofNat_lt.mpr (hlt z hz)
            · exact Region.ample_iff_isSmall.mpr (by simpa using hsmall)
            · exact hover (List.any_eq_true.mpr
                ⟨t, Region.mem_internalSerials.mpr ht, by simpa using htaken⟩)

/-- Collection does not fail, and keeps to the rule. -/
theorem gathers_collect (hf : f.Verified) (cfg : Config) :
    (f.collect cfg).error? = none ∧ f.Gathers cfg (f.collect cfg).regions := by
  obtain ⟨last, hl, -⟩ := lastBeforeHub_spec hf (guessHub_cases hf.toShaped cfg.minPredecessors)
  have hasc : f.blocks.zipIdx.Pairwise fun x y => x.2 < y.2 := by
    rw [← List.pairwise_map (f := Prod.snd), List.zipIdx_map_snd]
    exact List.pairwise_lt_range'
  obtain ⟨herr, hgleans⟩ := collectFrom_gleans hf cfg hl _ (fun _ => mem_zipIdx_blocks.mp) hasc []
  simp only [collect, hl, Collection.telling]
  refine ⟨herr, hgleans.ascending, hgleans.disjoint, fun d hd => (hgleans.offered d hd).2,
    fun s d hoff => ?_⟩
  have hs : s ∈ f.blocks.zipIdx.map fun x => (x.2 : Int) := by
    obtain ⟨-, b, -, hb, -⟩ := hoff.believed
    obtain ⟨hnonneg, -⟩ := lt_of_block? hb
    obtain ⟨i, rfl⟩ := Int.eq_ofNat_of_zero_le hnonneg
    exact List.mem_map.mpr ⟨(b, i), mem_zipIdx_blocks.mpr hb, rfl⟩
  rcases hgleans.complete s hs d hoff with hmem | ⟨t, ht, -⟩ | ⟨d', hd', hlt, hover⟩
  · exact .inl hmem
  · simp at ht
  · exact .inr ⟨d', hd', hlt, .inr hover⟩

/-- **Collecting the regions of a verified function does not fail, and all of them are rooted.** -/
theorem collect_spec (hf : f.Verified) (cfg : Config) :
    (f.collect cfg).error? = none ∧ ∀ d ∈ (f.collect cfg).regions, d.Rooted f := by
  obtain ⟨herr, hgathers⟩ := gathers_collect hf cfg
  refine ⟨herr, fun d hd => ?_⟩
  obtain ⟨last, b, hlast, hb, hver, hregion⟩ := (hgathers.offered d hd).believed
  obtain ⟨r, hr, hroot⟩ := Region.explore_spec hf cfg _ (lastBeforeHub_cases hf hlast) hb
  rw [← hregion]
  exact hroot (Except.ok.inj (hr.symm.trans hver))

/-- **Collection is by the rule, and the rule leaves it no choice.** -/
theorem collect_gathers (hf : f.verify = .ok ()) (cfg : Config) :
    (f.collect cfg).error? = none ∧ ∀ ds, f.Gathers cfg ds ↔ ds = (f.collect cfg).regions := by
  have hver := verify_eq_ok_iff.mp hf
  obtain ⟨herr, hgathers⟩ := gathers_collect hver cfg
  exact ⟨herr, fun ds => ⟨fun h => h.unique hver hgathers, fun h => h ▸ hgathers⟩⟩

/-- Two switches, the second behind a way out of the first. -/
def relayed : Func := function "relayed" [
  block 0 [.mov (lit 0x3c3c3c3c) (reg 1), .goto 1],
  branching 1 .jz (reg 1) (lit 0x3c3c3c3c) 3 2,
  branching 2 .jz (reg 1) (lit 0x5a5a5a5a) 4 5,
  block 3 [.mov (lit 0x5a5a5a5a) (reg 1), .goto 1],
  block 4 [.mov (lit 0x33333333) (reg 2), .goto 6],
  block 5 [.ret (lit 5)],
  branching 6 .jz (reg 2) (lit 0x33333333) 8 7,
  branching 7 .jz (reg 2) (lit 0x0f0f0f0f) 9 10,
  block 8 [.mov (lit 0x0f0f0f0f) (reg 2), .goto 6],
  block 9 [.ret (lit 9)],
  block 10 [.ret (lit 10)]]

/-- What exploration from a block of it comes to: the verdict, the internal serials, the number of
exits and that of constants. -/
def relayedProbe (s : Int) : Option (Option Bool × List Int × Nat × Nat) :=
  (relayed.block? s).map fun b =>
    let x := Region.explore {} relayed (relayed.guessHub 4) noBlock s b
    (x.verdict.toOption, x.region.internal.map BlockInfo.serial, x.region.exits.length,
      x.region.distinctValues)

theorem eq_of_offers_relayed (h : relayed.Offers {} s d) : s = 1 ∨ s = 6 := by
  obtain ⟨last, b, hlast, hb, hver, -⟩ := h.believed
  obtain rfl : noBlock = last := Except.ok.inj hlast
  have hall : ∀ i : Fin 11, (relayedProbe i).map Prod.fst = some (some true) →
      (i : Int) = 1 ∨ (i : Int) = 6 := by decide +kernel
  obtain ⟨hnonneg, hlt⟩ := lt_of_block? hb
  obtain ⟨i, rfl⟩ := Int.eq_ofNat_of_zero_le hnonneg
  refine hall ⟨i, Int.ofNat_lt.mp hlt⟩ ?_
  rw [relayedProbe, hb]
  exact congrArg (some ∘ Except.toOption) hver

theorem exists_offers_relayed (hs : s = 1 ∨ s = 6) :
    ∃ d, relayed.Offers {} s d ∧ ∀ t, d.isInternal t = true → t = s ∨ t = s + 1 := by
  have hprobe : relayedProbe s = some (some true, [s, s + 1], 3, 2) := by
    rcases hs with rfl | rfl <;> decide +kernel
  obtain ⟨b, hb, hx⟩ := Option.map_eq_some_iff.mp hprobe
  simp only [Prod.mk.injEq] at hx
  obtain ⟨hver, hint, hexits, hvalues⟩ := hx
  refine ⟨_, ⟨⟨noBlock, b, rfl, hb, ?_, rfl⟩, ?_, ?_, ?_⟩, fun t ht => ?_⟩
  · have hok : ∀ v : Except EngineError Bool, v.toOption = some true → v = .ok true := by
      rintro (e | r) h
      · cases h
      · exact congrArg Except.ok (Option.some.inj h)
    exact hok _ hver
  · have := congrArg List.length hint
    rw [List.length_map] at this
    rw [this, List.length_cons, List.length_singleton]
    decide
  · rw [hexits]
    decide
  · rw [hvalues]
    decide
  · obtain ⟨i, hi, rfl⟩ := Region.isInternal_iff.mp ht
    simpa [hint] using List.mem_map_of_mem (f := BlockInfo.serial) hi

theorem collect_gathers_relayed : relayed.verify = .ok () ∧ (relayed.collect {}).error? = none ∧
    (relayed.collect {}).regions.map Region.entrySerial = [1, 6] := by
  have hver : relayed.Verified := verify_eq_ok_iff.mp rfl
  obtain ⟨d, hd, hint⟩ := exists_offers_relayed (.inl rfl)
  obtain ⟨d', hd', hint'⟩ := exists_offers_relayed (.inr rfl)
  have hs := hd.entrySerial hver
  have hs' := hd'.entrySerial hver
  have hgathers : relayed.Gathers {} [d, d'] := by
    refine ⟨by simp [hs, hs'], ?_, by simp [hs, hs', hd, hd'], fun s e he => ?_⟩
    · simp only [List.pairwise_pair]
      rintro ⟨t, ht, ht'⟩
      have := hint t ht
      have := hint' t ht'
      omega
    · rcases eq_of_offers_relayed he with rfl | rfl
      · exact .inl (by simp [he.unique hd])
      · exact .inl (by simp [he.unique hd'])
  obtain ⟨herr, hrule⟩ := collect_gathers (f := relayed) rfl {}
  refine ⟨rfl, herr, ?_⟩
  rw [← (hrule _).mp hgathers]
  simp [hs, hs']

end Func

end Deflatten

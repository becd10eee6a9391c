import Deflatten.Flattening.Samples
import Deflatten.Dispatch.Collect
import Deflatten.Proofs.Editing.Shape
import Mathlib.Order.Bounds.Basic

/-!
# Proofs/Dispatch/HubChoice — the guessed hub and the block before it

The guess goes through the blocks once and keeps the first that has more predecessors than any
before it; that is the lowest serial among the hub-shaped blocks with the most predecessors
(`Wired.isLeast_guessHub`).  The block before a hub is the least predecessor that comes earlier and
ends plainly (`Wired.scanBeforeHub_eq`): predecessors ascend, so the first of them can be taken
without looking at the others (`Wired.lastBeforeHub_eq_scan`).
-/

namespace Deflatten

open Samples (block branching function lit reg)

namespace Func

/-- **Blocks stand where they say, and predecessors are blocks, in ascending order.** -/
structure Wired (f : Func) : Prop where
  placed : ∀ {s b}, f.block? s = some b → b.serial = s
  /-- Each predecessor is a block. -/
  exists_pred : ∀ {s b p}, f.block? s = some b → p ∈ b.preds → ∃ t, f.block? p = some t
  ascending : ∀ {s b}, f.block? s = some b → b.preds.Pairwise (· < ·)

variable {f g : Func} {b d : Block} {bs : List Block} {s hub best most minPreds : Int} {ps : List Int}

theorem wired_of_rebuildEdges (h : rebuildEdges g = .ok () f) : f.Wired := by
  obtain ⟨hland, rfl⟩ := rebuildEdges_eq_ok_iff_landed.mp h
  refine ⟨fun hb => ?_, fun hb hp => ?_, fun hb => ?_⟩
  · obtain ⟨b, hb, -, hser, -⟩ := exists_of_block?_rewired hb
    rw [hser, hland.placed hb]
  · obtain ⟨t, ht, -⟩ := (mem_preds_rewired hb).mp hp
    exact ⟨t, ht⟩
  · obtain ⟨b, -, -, -, -, hpreds⟩ := exists_of_block?_rewired hb
    rw [hpreds]
    exact pairwise_holders ..

/-- Later blocks have greater serials. -/
theorem Wired.pairwise_serial (hf : f.Wired) : f.blocks.Pairwise fun b c => b.serial < c.serial := by
  refine List.pairwise_iff_getElem.mpr fun i j hi hj hlt => ?_
  rw [hf.placed ((f.block?_natCast i).trans (List.getElem?_eq_getElem hi)),
    hf.placed ((f.block?_natCast j).trans (List.getElem?_eq_getElem hj))]
  exact Int.ofNat_lt.mpr hlt

/-! ## The hub -/

/-- **The serials of the busiest hubs**: hub-shaped, with more than `minPreds` predecessors, and with
as many as any that is hub-shaped. -/
def busiestHubs (f : Func) (minPreds : Int) : Set Int :=
  {s | ∃ b ∈ f.blocks, b.serial = s ∧ b.isHubShaped = true ∧ minPreds < b.preds.length ∧
    ∀ c ∈ f.blocks, c.isHubShaped = true → c.preds.length ≤ b.preds.length}

/-- **What a scan for the best hub comes to**: the best so far if no block beats it, else the block
that beats those in front of it and is not beaten by those behind it. -/
theorem bestHub_eq (bs : List Block) (best most : Int) :
    (bestHub best most bs = best ∧
        ∀ c ∈ bs, c.isHubShaped = true → (c.preds.length : Int) ≤ most) ∨
      ∃ before b after, bs = before ++ b :: after ∧ bestHub best most bs = b.serial ∧
        b.isHubShaped = true ∧ most < b.preds.length ∧
        (∀ c ∈ before, c.isHubShaped = true → c.preds.length < b.preds.length) ∧
        ∀ c ∈ after, c.isHubShaped = true → c.preds.length ≤ b.preds.length := by
  induction bs generalizing best most with
  | nil => exact .inl ⟨rfl, by simp⟩
  | cons x bs ih =>
    rw [bestHub]
    split
    · next hx =>
      right
      rcases ih x.serial x.preds.length with ⟨heq, hle⟩ | ⟨before, b, after, rfl, heq, hb, hlt, h₁, h₂⟩
      · exact ⟨[], x, bs, rfl, heq, hx.2, hx.1, by simp, fun c hc hs => by exact_mod_cast hle c hc hs⟩
      · exact ⟨x :: before, b, after, rfl, heq, hb, hx.1.trans hlt,
          List.forall_mem_cons.mpr ⟨fun _ => by exact_mod_cast hlt, h₁⟩, h₂⟩
    · next hx =>
      have hx : x.isHubShaped = true → (x.preds.length : Int) ≤ most := fun hs =>
        Int.not_lt.mp fun hlt => hx ⟨hlt, hs⟩
      rcases ih best most with ⟨heq, hle⟩ | ⟨before, b, after, rfl, heq, hb, hlt, h₁, h₂⟩
      · exact .inl ⟨heq, List.forall_mem_cons.mpr ⟨hx, hle⟩⟩
      · refine .inr ⟨x :: before, b, after, rfl, heq, hb, hlt,
          List.forall_mem_cons.mpr ⟨fun hs => ?_, h₁⟩, h₂⟩
        exact_mod_cast (hx hs).trans_lt hlt

/-- **The guessed hub is the first of the busiest**; there is none if no hub-shaped block has more
than `minPreds` predecessors. -/
theorem Wired.isLeast_guessHub (hf : f.Wired) (minPreds : Int) :
    IsLeast (f.busiestHubs minPreds) (f.guessHub minPreds) ∨
      (∀ b ∈ f.blocks, b.isHubShaped = true → (b.preds.length : Int) ≤ minPreds) ∧
        f.guessHub minPreds = noBlock := by
  rcases bestHub_eq f.blocks noBlock minPreds with
    ⟨heq, hle⟩ | ⟨before, b, after, hbs, heq, hb, hlt, hbefore, hafter⟩
  · exact .inr ⟨hle, heq⟩
  refine .inl ⟨⟨b, by simp [hbs], heq.symm, hb, hlt, fun c hc hs => ?_⟩, ?_⟩
  · rw [hbs, List.mem_append, List.mem_cons] at hc
    rcases hc with hc | rfl | hc
    · exact (hbefore c hc hs).le
    · exact le_rfl
    · exact hafter c hc hs
  · rintro _ ⟨c, hc, rfl, hs, -, hmost⟩
    have hserial := hf.pairwise_serial
    rw [hbs] at hc hserial
    rw [guessHub, heq]
    rcases List.mem_append.mp hc with hc | hc
    · -- a hub in front of it has fewer predecessors
      exact absurd (hmost b (by simp [hbs]) hb) (hbefore c hc hs).not_ge
    · rcases List.mem_cons.mp hc with rfl | hc
      · exact le_rfl
      · exact ((List.pairwise_cons.mp (List.pairwise_append.mp hserial).2.1).1 c hc).le

/-! ## The block before it -/

/-- A serial of a block that has a last instruction, and it is no conditional jump. -/
def EndsPlainly (f : Func) (p : Int) : Prop :=
  ∃ b t, f.block? p = some b ∧ b.insns.getLast? = some t ∧ t.op.isConditional = false

/-- **The predecessors of a block that come before it and end plainly.** -/
def plainPreds (f : Func) (hub : Int) : Set Int :=
  {p | ∃ d, f.block? hub = some d ∧ p ∈ d.preds ∧ p < hub ∧ f.EndsPlainly p}

theorem endsPlainly_iff (hb : f.block? s = some b) : f.EndsPlainly s ↔ b.endsPlainly = true := by
  simp [EndsPlainly, Block.endsPlainly, Block.tail?, hb, Option.any_eq_true]

/-- **What the scan of the predecessors comes to**: the least of the start and those that end
plainly. -/
theorem leastPlainPred_eq (hub : Int) (hps : ∀ p ∈ ps, ∃ b, f.block? p = some b) (last : Int) :
    ∃ x, f.leastPlainPred hub last ps = .ok x ∧
      IsLeast (insert last {p | p ∈ ps ∧ f.EndsPlainly p}) x := by
  induction ps generalizing last with
  | nil => exact ⟨last, rfl, by simp⟩
  | cons p ps ih =>
    obtain ⟨⟨b, hb⟩, hps⟩ := List.forall_mem_cons.mp hps
    obtain ⟨x, hx, hmem, hle⟩ := ih hps (if p < last ∧ b.endsPlainly then p else last)
    have hstart : x ≤ if p < last ∧ b.endsPlainly then p else last := hle (Set.mem_insert ..)
    refine ⟨x, by rw [leastPlainPred, getBlock_of_block? hb]; exact hx, ?_, ?_⟩
    · rcases hmem with heq | ⟨hmem, hplain⟩
      · split at heq
        · next hp => exact .inr ⟨by simp [heq], heq ▸ (endsPlainly_iff hb).mpr hp.2⟩
        · exact .inl heq
      · exact .inr ⟨by simp [hmem], hplain⟩
    · rintro y (rfl | ⟨hy, hplain⟩)
      · split at hstart <;> omega
      · rcases List.mem_cons.mp hy with rfl | hy
        · have hplain := (endsPlainly_iff hb).mp hplain
          split at hstart
          · exact hstart
          · next hp => exact hstart.trans (Int.not_lt.mp fun hlt => hp ⟨hlt, hplain⟩)
        · exact hle (.inr ⟨hy, hplain⟩)

/-- The answer of the scan of all predecessors, the hub itself standing for none. -/
def scanBeforeHub (f : Func) (hub : Int) (d : Block) : Except EngineError Int :=
  (f.leastPlainPred hub hub d.preds).map fun last => if last = hub then noBlock else last

theorem Wired.scanBeforeHub_eq (hf : f.Wired) (hd : f.block? hub = some d) :
    ∃ last, f.scanBeforeHub hub d = .ok last ∧
      (IsLeast (f.plainPreds hub) last ∨ f.plainPreds hub = ∅ ∧ last = noBlock) := by
  obtain ⟨x, hx, hmem, hle⟩ := leastPlainPred_eq hub (fun p => hf.exists_pred hd) hub
  have hplain : ∀ {p}, p ∈ f.plainPreds hub → p ∈ d.preds ∧ p < hub ∧ f.EndsPlainly p := by
    rintro p ⟨d', hd', hp⟩
    obtain rfl := Option.mem_unique hd hd'
    exact hp
  refine ⟨if x = hub then noBlock else x, by rw [scanBeforeHub, hx]; rfl, ?_⟩
  split
  · next heq =>
    refine .inr ⟨Set.eq_empty_iff_forall_notMem.mpr fun p hp => ?_, rfl⟩
    obtain ⟨hp, hlt, hends⟩ := hplain hp
    exact (heq ▸ hle (.inr ⟨hp, hends⟩)).not_gt hlt
  · next hne =>
    obtain ⟨hp, hends⟩ := hmem.resolve_left hne
    refine .inl ⟨⟨d, hd, hp, lt_of_le_of_ne (hle (.inl rfl)) hne, hends⟩, fun p hp => ?_⟩
    obtain ⟨hp, -, hends⟩ := hplain hp
    exact hle (.inr ⟨hp, hends⟩)

/-- **Taking the first predecessor agrees with scanning all of them.** -/
theorem Wired.lastBeforeHub_eq_scan (hf : f.Wired) (hd : f.block? hub = some d) :
    f.lastBeforeHub hub = f.scanBeforeHub hub d := by
  have hn : hub ≠ noBlock := fun h => by simp [h, noBlock, block?] at hd
  simp only [lastBeforeHub, scanBeforeHub, hn, if_false, getBlock_of_block? hd]
  cases hps : d.preds with
  | nil => simp [leastPlainPred, Except.map]
  | cons first rest =>
    obtain ⟨b, hb⟩ := hf.exists_pred hd (p := first) (by simp [hps])
    simp only [getBlock_of_block? hb]
    split
    · next hfirst =>
      obtain ⟨x, hx, hleast⟩ := leastPlainPred_eq hub (fun p => hf.exists_pred hd) hub
      have hasc := hf.ascending hd
      rw [hps] at hx hleast hasc
      have hle : IsLeast (insert hub {p | p ∈ first :: rest ∧ f.EndsPlainly p}) first := by
        refine ⟨.inr ⟨by simp, (endsPlainly_iff hb).mpr hfirst.2⟩, ?_⟩
        rintro p (rfl | ⟨hp, -⟩)
        · exact hfirst.1.le
        · rcases List.mem_cons.mp hp with rfl | hp
          · exact le_rfl
          · exact ((List.pairwise_cons.mp hasc).1 p hp).le
      rw [hx, hleast.unique hle]
      simp [Except.map, hfirst.1.ne]
    · rfl

/-- **Hubs are guessed by their serials and predecessors alone.**  In a function whose edges were
built, the guess is the lowest serial among the hub-shaped blocks with the most predecessors, if
these are more than `minPreds`.  The block before any hub is the least predecessor that comes earlier,
has an instruction and does not end in a conditional jump, whether the first predecessor is taken or
all are scanned; only a serial of no block is an error. -/
theorem hub_choice {u : Unit} (h : rebuildEdges g = .ok u f) (minPreds : Int) :
    (IsLeast (f.busiestHubs minPreds) (f.guessHub minPreds) ∨
      (∀ b ∈ f.blocks, b.isHubShaped = true → (b.preds.length : Int) ≤ minPreds) ∧
        f.guessHub minPreds = noBlock) ∧
    ∀ hub : Int,
      (hub = noBlock ∨ f.hasSerial hub = true → ∃ last, f.lastBeforeHub hub = .ok last ∧
        (IsLeast (f.plainPreds hub) last ∨ f.plainPreds hub = ∅ ∧ last = noBlock)) ∧
      (∀ d, f.block? hub = some d → f.lastBeforeHub hub = f.scanBeforeHub hub d) ∧
      (hub ≠ noBlock → f.hasSerial hub = false →
        f.lastBeforeHub hub = .error (.flow (.noSerial f.name hub f.blocks.length))) := by
  have hf := wired_of_rebuildEdges h
  refine ⟨hf.isLeast_guessHub minPreds, fun hub => ⟨?_, fun d hd => hf.lastBeforeHub_eq_scan hd, ?_⟩⟩
  · rintro (rfl | hhub)
    · refine ⟨noBlock, rfl, .inr ⟨Set.eq_empty_iff_forall_notMem.mpr ?_, rfl⟩⟩
      rintro p ⟨d, hd, -⟩
      cases hd
    · obtain ⟨h₀, hlt⟩ := hasSerial_iff.mp hhub
      obtain ⟨d, hd⟩ := exists_block? h₀ hlt
      rw [hf.lastBeforeHub_eq_scan hd]
      exact hf.scanBeforeHub_eq hd
  · intro hn hhub
    cases hd : f.block? hub with
    | none => simp [lastBeforeHub, hn, getBlock, hd]
    | some d => simp [hasSerial_iff.mpr (lt_of_block? hd)] at hhub

/-- Two hubs with four predecessors each, both their own predecessors; the first predecessor of the
first ends in a conditional jump. -/
def twinHubs : Func := function "twins" [
  branching 0 .jz (reg 1) (lit 7) 3 1,
  block 1 [.goto 3],
  block 2 [.goto 3],
  branching 3 .jz (reg 8) (lit 0x55) 3 4,
  branching 4 .jz (reg 8) (lit 0xaa) 6 5,
  block 5 [.goto 6],
  branching 6 .jz (reg 8) (lit 0x5a) 6 7,
  block 7 [.goto 6]]

theorem hub_choice_twinHubs : rebuildEdges twinHubs = .ok () twinHubs ∧
    twinHubs.guessHub 3 = 3 ∧ IsLeast (twinHubs.busiestHubs 3) 3 ∧
    twinHubs.guessHub 4 = noBlock ∧
    twinHubs.lastBeforeHub 3 = .ok 1 ∧ IsLeast (twinHubs.plainPreds 3) 1 := by
  have hedges : rebuildEdges twinHubs = .ok () twinHubs := by rfl
  obtain ⟨hguess, hlast⟩ := hub_choice hedges 3
  have hhub : twinHubs.guessHub 3 = 3 := by decide +kernel
  have hone : twinHubs.lastBeforeHub 3 = .ok 1 := by rfl
  obtain ⟨last, heq, hbefore⟩ := (hlast 3).1 (.inr (by decide))
  obtain rfl := Except.ok.inj (hone.symm.trans heq)
  rw [hhub] at hguess
  exact ⟨hedges, hhub, hguess.resolve_right fun h => by simp [noBlock] at h, by decide +kernel, hone,
    hbefore.resolve_right fun h => by simp [noBlock] at h⟩

end Func

end Deflatten

import Deflatten.Graph.Calls
import Deflatten.Proofs.Execution.Rounds
import Mathlib.Algebra.Order.Ring.Nat

/-!
# Proofs/Graph/Outlines — edges, runs and outlines tell the same

An outline counts the instructions of a function through.  It tells for each block which numbers it
has, where control goes from it and which of its instructions call.  The blocks tile the numbers
(`Block.tiles_outlines`), their edges go to the exits (`Block.mem_edges_iff`), and the calls of all
blocks in a row are the calls of the whole code (`Block.calls_outlines`).

The interpreter and the outline read exits off the instructions, each in its own way, and the edges
are written down beside them.  In a function that passes the check the three agree
(`Func.edges_describe`).
-/

namespace Deflatten

/-! ## What an outline is to show -/

/-- **Blocks take up the numbers from `lo` to `hi`**, one after the other. -/
def OutlineBlock.Tiles : (lo : Nat) → List OutlineBlock → (hi : Nat) → Prop
  | lo, [], hi => lo = hi
  | lo, o :: os, hi => o.start = lo ∧ o.start ≤ o.stop ∧ Tiles o.stop os hi

/-- **A block is shown as its edges say.** -/
structure Block.ShownBy (b : Block) (o : OutlineBlock) : Prop where
  /-- Under its serial. -/
  id_eq : o.id = b.serial
  /-- With a number for each instruction. -/
  stop_eq : o.stop = o.start + b.insns.length
  /-- The edges go to the successors. -/
  mem_edges : ∀ s, s ∈ o.edges.map Prod.fst ↔ s ∈ b.succs
  /-- Control ends where there are none. -/
  terminal : o.isTerminal = true ↔ b.succs = []
  /-- The calls are its own. -/
  calls : ∀ c ∈ o.calls, o.start ≤ c.1 ∧ c.1 < o.stop

/-- **A function is shown as its edges and its code say.** -/
structure Func.ShownBy (f : Func) (os : List OutlineBlock) : Prop where
  /-- Block by block. -/
  blocks : List.Forall₂ Block.ShownBy f.blocks os
  /-- The numbers are those of the instructions. -/
  tiles : OutlineBlock.Tiles 0 os f.numInsns
  /-- No number has two calls. -/
  ascending : (os.flatMap OutlineBlock.calls).Pairwise fun c c' => c.1 < c'.1
  /-- The calls are those of the code, by its numbers. -/
  mem_calls : ∀ k text, (k, text) ∈ os.flatMap OutlineBlock.calls ↔
    ∃ i, (f.blocks.flatMap Block.insns)[k]? = some i ∧ i.op = .call ∧
      text = i.callee?.getD ("indirect " ++ i.l.text)

namespace Block

variable {b : Block} {bs : List Block} {is : List Insn} {n k start : Nat} {s : Int} {text : String}

/-! ## Edges -/

/-- **The edges of a block that fits go to its exits.** -/
theorem mem_edges_iff (hb : b.Fits n) : s ∈ b.edges.map Prod.fst ↔ s ∈ b.exits := by
  unfold edges
  cases ht : b.terminator? with
  | none =>
    rw [exits_none ht]
    split <;> simp
  | some t =>
    rcases t.op.cases_of_endsBlock (endsBlock_of_terminator? ht) with hr | hg | hc
    · simp [exits_ret ht hr, hr]
    · simp [exits_goto ht hg, hg]
    · obtain ⟨hr, hg⟩ := t.op.ne_of_isConditional hc
      rw [mem_exits_conditional ht hc]
      simp [hr, hg, hb.falls t ht hc]

theorem isEmpty_edges_iff (hb : b.Fits n) : b.edges.isEmpty = true ↔ b.exits = [] := by
  calc b.edges.isEmpty = true ↔ b.edges.map Prod.fst = [] := by simp
    _ ↔ b.exits = [] := by simp only [List.eq_nil_iff_forall_not_mem, mem_edges_iff hb]

/-! ## Calls -/

/-- The calls in code whose instructions are counted from a number. -/
def callsFrom (start : Nat) (is : List Insn) : List (Nat × String) :=
  (is.zipIdx start).filterMap fun i => (callText? i.1).map fun c => (i.2, c)

theorem calls_outline (start : Nat) (b : Block) :
    (b.outline start).calls = callsFrom start b.insns := by
  have hshift : b.insns.zipIdx start = b.insns.zipIdx.map (Prod.map id (· + start)) :=
    (List.map_snd_add_zipIdx_eq_zipIdx (k := 0)).symm
  rw [callsFrom, hshift, List.filterMap_map]
  simp [outline, Nat.add_comm]

theorem mem_callsFrom : (k, text) ∈ callsFrom start is ↔
    start ≤ k ∧ ∃ i, is[k - start]? = some i ∧ callText? i = some text := by
  simp [callsFrom, List.mk_mem_zipIdx_iff_le_and_getElem?_sub, and_assoc]

theorem pairwise_callsFrom (start : Nat) (is : List Insn) :
    (callsFrom start is).Pairwise fun c c' => c.1 < c'.1 := by
  have hnumbers : (is.zipIdx start).Pairwise fun i i' => i.2 < i'.2 := by
    rw [← List.pairwise_map (f := Prod.snd), List.zipIdx_map_snd]
    exact List.pairwise_lt_range'
  refine hnumbers.filterMap _ fun i i' hlt c hc c' hc' => ?_
  obtain ⟨_, -, rfl⟩ := Option.map_eq_some_iff.mp hc
  obtain ⟨_, -, rfl⟩ := Option.map_eq_some_iff.mp hc'
  exact hlt

/-- **The calls of all blocks are the calls of the whole code.** -/
theorem calls_outlines (start : Nat) (bs : List Block) :
    (outlines start bs).flatMap OutlineBlock.calls = callsFrom start (bs.flatMap Block.insns) := by
  induction bs generalizing start with
  | nil => rfl
  | cons b bs ih =>
    rw [outlines, List.flatMap_cons, calls_outline, ih, List.flatMap_cons, callsFrom, callsFrom,
      callsFrom, List.zipIdx_append, List.filterMap_append]

/-! ## Numbers -/

theorem tiles_outlines (start : Nat) (bs : List Block) :
    OutlineBlock.Tiles start (outlines start bs) (start + (bs.map fun b => b.insns.length).sum) := by
  induction bs generalizing start with
  | nil => simp [outlines, OutlineBlock.Tiles]
  | cons b bs ih =>
    refine ⟨rfl, Nat.le_add_right .., ?_⟩
    simpa [outline, Nat.add_assoc] using ih (start + b.insns.length)

theorem shownBy_outline (hb : b.Fits n) (hs : b.succs = b.exits) (start : Nat) :
    b.ShownBy (b.outline start) where
  id_eq := rfl
  stop_eq := rfl
  mem_edges s := by rw [hs]; exact mem_edges_iff hb
  terminal := by rw [hs]; exact isEmpty_edges_iff hb
  calls := by
    rintro ⟨k, text⟩ hc
    rw [calls_outline, mem_callsFrom] at hc
    obtain ⟨hk, i, hi, -⟩ := hc
    have := (List.getElem?_eq_some_iff.mp hi).1
    simp only [outline]
    omega

theorem forall₂_outlines (h : ∀ b ∈ bs, ∀ start, b.ShownBy (b.outline start)) (start : Nat) :
    List.Forall₂ ShownBy bs (outlines start bs) := by
  induction bs generalizing start with
  | nil => exact .nil
  | cons b bs ih =>
    exact .cons (h b (by simp) start) (ih (fun b' hb' => h b' (by simp [hb'])) _)

end Block

namespace Func

variable {f : Func}

theorem Verified.shownBy_outline (hf : f.Verified) : f.ShownBy f.outline where
  blocks := by
    refine Block.forall₂_outlines (fun b hb start => ?_) 0
    obtain ⟨s, hs⟩ := exists_block?_of_mem hb
    exact Block.shownBy_outline (hf.fits hs) (hf.succs_eq hs) start
  tiles := by simpa [numInsns, outline] using Block.tiles_outlines 0 f.blocks
  ascending := by
    rw [outline, Block.calls_outlines]
    exact Block.pairwise_callsFrom ..
  mem_calls k text := by
    rw [outline, Block.calls_outlines, Block.mem_callsFrom]
    simp [Block.callText?, eq_comm]

/-! ## Edges, runs and outlines -/

/-- **The edges of a function that passes the check describe its runs and its outline.**  Every round
goes along a successor.  A run is lost only behind a block that was never to be left, and then at the
last moment its rounds come to. -/
theorem edges_describe (hne : f.blocks ≠ []) (hf : f.verify = .ok ()) :
    (∀ inputs limit c c', f.Attains inputs limit c → f.Round c c' →
      ∃ b, f.block? c.cur = some b ∧ c'.cur ∈ b.succs) ∧
    (∀ inputs limit, ∃ e, f.run inputs limit = .ok e ∧
      (e.Spun ∧ (∃ c, f.Attains inputs limit c ∧ Relation.TransGen f.Round c c) ∨
        ∃ c b, f.Attains inputs limit c ∧ f.EndsAt limit c b e ∧
          ∀ err, e.error? = some (.flow err) → FlowError.Family.notFound ∉ err.families ∧
            err = .fallsOff f.name c.cur ∧ b.terminator? = none ∧ b.next = noBlock)) ∧
    f.ShownBy f.outline := by
  have hv := verify_eq_ok_iff.mp hf
  refine ⟨fun _ _ _ _ _ h => h.mem_succs hv, fun inputs limit => ?_, hv.shownBy_outline⟩
  obtain ⟨b, hb⟩ : ∃ b, f.block? 0 = some b :=
    exists_block? le_rfl (by have := List.length_pos_iff.mpr hne; omega)
  refine ⟨_, run_of_block? hb, (exists_endsAt limit hb).imp_right ?_⟩
  rintro ⟨c, b', hc, hends⟩
  refine ⟨c, b', hc, hends, fun err herr => ?_⟩
  obtain ⟨rfl, hlast⟩ := hends.fallsOff hv.toShaped herr
  exact ⟨by simp [FlowError.families], rfl, hlast⟩

/-- Has a jump with one target, fall-throughs that are never taken, and a block that is never left. -/
def detour : Func :=
  let r (n : Int) : Operand := .register n 8
  { name := "detour"
    body := some [
      { serial := 0, code := some [.call (.global 64 "tick" 8) (r 1) (r 2), .branch .jnz (r 2) (r 1) 1]
        next := 1, succs := [1] },
      { serial := 1, code := some [.goto 3], next := 2, preds := [0], succs := [3] },
      { serial := 2, code := some [.ret (r 2)], next := 0 },
      { serial := 3, code := some [.call (r 2) (r 1) (r 1)], next := noBlock, preds := [1] }] }

theorem edges_describe_detour : detour.blocks ≠ [] ∧ detour.verify = .ok () ∧
    (∀ c c', detour.Attains {} 9 c → detour.Round c c' →
      ∃ b, detour.block? c.cur = some b ∧ c'.cur ∈ b.succs) ∧
    (∃ c b, detour.Attains {} 9 c ∧ c.cur = 3 ∧ detour.block? c.cur = some b ∧
      b.terminator? = none ∧ b.next = noBlock) ∧
    detour.ShownBy detour.outline ∧
    detour.outline.map OutlineBlock.calls = [[(0, "tick")], [], [], [(4, "indirect r2.8")]] := by
  have hne : detour.blocks ≠ [] := by decide
  have hf : detour.verify = .ok () := rfl
  have hrun : (detour.run {} 9).map Ending.error? = .ok (some (.flow (.fallsOff "detour" 3))) := by
    cbv
  obtain ⟨halong, hruns, hshown⟩ := edges_describe hne hf
  obtain ⟨e, he, hend⟩ := hruns {} 9
  have herr : e.error? = some (.flow (.fallsOff "detour" 3)) := by
    rw [he] at hrun
    exact Except.ok.inj hrun
  refine ⟨hne, hf, halong {} 9, ?_, hshown, by decide +kernel⟩
  obtain ⟨⟨fn, blk, hspun⟩, -⟩ | ⟨c, b, hc, hends, hflow⟩ := hend
  · cases hspun.symm.trans herr
  · obtain ⟨-, hcur, hterm, hnext⟩ := hflow _ herr
    exact ⟨c, b, hc, (FlowError.fallsOff.inj hcur).2.symm, hends.here, hterm, hnext⟩

end Func

end Deflatten

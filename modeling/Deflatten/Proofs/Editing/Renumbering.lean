import Deflatten.Proofs.Editing.Compaction
import Deflatten.Proofs.Editing.Relocation

/-!
# Proofs/Editing/Renumbering — compaction is a renumbering of what can be reached

`Func.Connected` is reachability as a relation, and `Func.visited` decides it
(`mem_visited_iff`).  The new serials that `Func.compact` returns count the reachable blocks in
order; the block at a new serial is the old one with its target and its fall-through renumbered, and
every run ends as it did (`renumbers_compact`).
-/

namespace Deflatten

namespace Func

variable {f g : Func} {s t : Int} {b b' : Block}

/-! ## Reachability -/

/-- **Control may come to `s`** from the entry, along the successors that are written down. -/
inductive Connected (f : Func) : Int → Prop
  /-- The entry, if there is one. -/
  | entry (hne : f.blocks ≠ []) : Connected f 0
  /-- A successor of a block control may come to. -/
  | step {s t : Int} {b : Block} (hs : Connected f s) (hb : f.block? s = some b)
      (ht : t ∈ b.succs) : Connected f t

theorem mem_succsAt : t ∈ f.succsAt s ↔ ∃ b, f.block? s = some b ∧ t ∈ b.succs := by
  unfold succsAt
  cases f.block? s <;> simp

/-- **The visited serials are those control may come to.** -/
theorem mem_visited_iff : s ∈ f.visited ↔ f.Connected s := by
  constructor
  · intro hs
    unfold visited at hs
    split at hs
    · cases hs
    · next hempty =>
      have h₀ : f.Connected 0 := .entry (by simpa using hempty)
      refine forall_visit (fun s t hs ht => ?_) (by simpa using h₀) (by simpa using h₀) s hs
      obtain ⟨b, hb, ht⟩ := mem_succsAt.mp ht
      exact .step hs hb ht
  · intro hs
    induction hs with
    | entry hne => exact (visited_closed hne).1
    | step hs hb ht ih =>
      have hne : f.blocks ≠ [] := List.ne_nil_of_mem (mem_of_block? hb)
      exact (visited_closed hne).2 _ ih _ (mem_succsAt.mpr ⟨_, hb, ht⟩)

end Func

/-! ## Renumbered blocks -/

/-- An instruction with its target renumbered, if it jumps. -/
def Insn.Renumbered (remap : Func.Renumbering) (i i' : Insn) : Prop :=
  if i.op.isJump then ∃ n, remap.get? i.d.block = some n ∧ i' = i.withTarget n else i' = i

/-- **A block with its jump and its fall-through renumbered.** -/
structure Block.Renumbered (remap : Func.Renumbering) (b b' : Block) : Prop where
  /-- The same instructions, but for the targets of jumps. -/
  insns : List.Forall₂ (Insn.Renumbered remap) b.insns b'.insns
  /-- Where control can fall through, it falls through to the renumbered block. -/
  falls : b.falls = true → b.next ≠ noBlock → remap.get? b.next = some b'.next
  /-- Where it leads nowhere, or a jump or a return stands before it, it leads nowhere. -/
  leaves : b.falls = false ∨ b.next = noBlock → b'.next = noBlock

/-- **The blocks of `g` are the reachable blocks of `f`**, under the new serials of `remap`. -/
structure Func.Renumbers (remap : Renumbering) (f g : Func) : Prop where
  /-- `g` is in order. -/
  verified : g.verify = .ok ()
  /-- The blocks that can be reached have new serials, and only these. -/
  domain : ∀ s, (∃ n, remap.get? s = some n) ↔ f.Connected s
  /-- The order is kept. -/
  increasing : ∀ {s t n k}, remap.get? s = some n → remap.get? t = some k → s < t → n < k
  /-- The new serials are those of `g`. -/
  range : ∀ n, (∃ s, remap.get? s = some n) ↔ 0 ≤ n ∧ n < g.blocks.length
  /-- The entry stays the entry. -/
  entry : f.blocks ≠ [] → remap.get? 0 = some 0
  /-- Each block is the old one renumbered. -/
  block : ∀ {s n b}, remap.get? s = some n → f.block? s = some b →
    ∃ b', g.block? n = some b' ∧ b'.serial = n ∧ b.Renumbered remap b'
  /-- Every block can be reached. -/
  connected : ∀ {n b'}, g.block? n = some b' → g.Connected n
  /-- Every run observes the same and ends for the same reason. -/
  run : ∀ inputs limit, (f.run inputs limit = .error (.noBlocks f.name) ∧
      g.run inputs limit = .error (.noBlocks f.name)) ∨
    ∃ e e', f.run inputs limit = .ok e ∧ g.run inputs limit = .ok e' ∧
      e.Moved (fun s n => remap.get? s = some n) e'

namespace Func

variable {f g : Func} {s t : Int} {b b' : Block}

/-! ## New serials -/

theorem get?_remap_eq_renumber (hf : f.Verified) (hs : s ∈ f.visited) :
    f.remap.get? s = some (f.renumber s) := by
  obtain ⟨i, b, hi, hser, -, hn⟩ := exists_kept hf hs
  rw [hn]
  exact (get?_remap hf.toShaped).mpr ⟨i, b, hi, hser, rfl⟩

theorem mem_visited_of_get?_remap (hf : f.Shaped) {n : Int} (h : f.remap.get? s = some n) :
    s ∈ f.visited := by
  obtain ⟨i, b, hi, rfl, -⟩ := (get?_remap hf).mp h
  exact (block?_of_mem_kept hf (List.mem_of_getElem? hi)).2

/-- **New serials ascend with the old ones**, since the kept blocks do. -/
theorem remap_increasing (hf : f.Shaped) {n k : Int} (hs : f.remap.get? s = some n)
    (ht : f.remap.get? t = some k) (hst : s < t) : n < k := by
  obtain ⟨i, b, hi, rfl, rfl⟩ := (get?_remap hf).mp hs
  obtain ⟨j, c, hj, rfl, rfl⟩ := (get?_remap hf).mp ht
  have hasc : (f.kept.map Block.serial).Pairwise (· < ·) :=
    (pairwise_serials hf).sublist (List.filter_sublist.map _)
  rw [List.pairwise_map, List.pairwise_iff_getElem] at hasc
  obtain ⟨hi', rfl⟩ := List.getElem?_eq_some_iff.mp hi
  obtain ⟨hj', rfl⟩ := List.getElem?_eq_some_iff.mp hj
  rcases Nat.lt_trichotomy i j with hlt | rfl | hgt
  · omega
  · omega
  · have := hasc j i hj' hi' hgt
    omega

theorem exists_get?_remap_iff (hf : f.Shaped) {n : Int} :
    (∃ s, f.remap.get? s = some n) ↔ 0 ≤ n ∧ n < f.kept.length := by
  constructor
  · rintro ⟨s, hs⟩
    obtain ⟨i, b, hi, -, rfl⟩ := (get?_remap hf).mp hs
    have := (List.getElem?_eq_some_iff.mp hi).1
    omega
  · rintro ⟨h₀, hlt⟩
    obtain ⟨i, rfl⟩ := Int.eq_ofNat_of_zero_le h₀
    have hi : i < f.kept.length := by omega
    exact ⟨_, (get?_remap hf).mpr ⟨i, _, List.getElem?_eq_getElem hi, rfl, rfl⟩⟩

/-! ## Blocks -/

/-- Where a block in order jumps to is one of its exits. -/
theorem target_mem_exits (hplain : Plain b.body) {i : Insn} (hi : i ∈ b.insns)
    (hj : i.op.isJump = true) : i.d.block ∈ b.exits := by
  have hends : i.op.endsBlock = true := by simp [Opcode.endsBlock, hj]
  rw [b.insns_eq, List.mem_append, Option.mem_toList] at hi
  rcases hi with hi | ht
  · exact absurd (hplain i hi) (by simp [hends])
  · rcases i.op.cases_of_endsBlock hends with hr | hg | hc
    · simp [hr, Opcode.isJump, Opcode.isConditional] at hj
    · simp [Block.exits_goto ht hg]
    · exact (Block.mem_exits_conditional ht hc).mpr (.inl rfl)

/-- Where it falls through to is another. -/
theorem next_mem_exits (hfalls : b.falls = true) (hn : b.next ≠ noBlock) : b.next ∈ b.exits := by
  cases ht : b.terminator? with
  | none => simp [Block.exits_none ht, hn]
  | some t =>
    have hc : t.op.isConditional = true := by simpa [Block.falls, ht] using hfalls
    exact (Block.mem_exits_conditional ht hc).mpr (.inr rfl)

/-- **A kept block is renumbered.** -/
theorem Compacts.renumbered (h : f.Compacts g) (hf : f.Verified) {i : Nat}
    (hb : f.kept[i]? = some b) (hb' : g.block? i = some b') : b.Renumbered f.remap b' := by
  have hr := h.retargets hb hb'
  have hmem := List.mem_of_getElem? hb
  have hplain := (hf.fits (block?_of_mem_kept hf.toShaped hmem).1).plain
  have hexit : ∀ s ∈ b.exits, f.remap.get? s = some (f.renumber s) := fun s hs =>
    get?_remap_eq_renumber hf (mem_visited_of_kept hf hmem hs)
  refine ⟨?_, fun hfalls hn => ?_, fun hn => ?_⟩
  · rw [hr.insns_eq_map hplain, List.forall₂_map_right_iff, List.forall₂_same]
    intro i hi
    unfold Insn.Renumbered
    split
    · next hj => exact ⟨_, hexit _ (target_mem_exits hplain hi hj), Insn.retarget_of_isJump hj⟩
    · next hj => exact if_neg hj
  · rw [hr.next_eq hfalls]
    exact hexit _ (next_mem_exits hfalls hn)
  · cases hfalls : b.falls with
    | false => exact h.leaves hb hb' hfalls
    | true =>
      have hn : b.next = noBlock := hn.resolve_left (by simp [hfalls])
      rw [hr.next_eq hfalls, hn, f.renumber_noBlock]

/-! ## Reachability and runs -/

/-- **What could be reached can be reached under its new serial.** -/
theorem Compacts.connected_renumber (h : f.Compacts g) (hf : f.Verified) (hs : f.Connected s) :
    g.Connected (f.renumber s) := by
  induction hs with
  | entry hne =>
    rw [Compacts.renumber_zero hf hne]
    obtain ⟨i, b, hi, -⟩ := exists_kept hf (visited_closed hne).1
    have hlt := (List.getElem?_eq_some_iff.mp hi).1
    exact .entry (List.ne_nil_of_length_pos (by rw [h.length_eq]; omega))
  | @step s t b hs hb ht ih =>
    obtain ⟨b', hb', hmem, hr⟩ := h.exists_block hf (mem_visited_iff.mpr hs) hb
    refine .step ih hb' ?_
    rw [h.wellFormed.succs_eq hb', hr.mem_exits f.renumber_noBlock (renumber_ne_noBlock hf hmem)]
    exact ⟨t, hf.succs_eq hb ▸ ht, rfl⟩

theorem Compacts.relocates (h : f.Compacts g) (hf : f.Verified) :
    Relocates f.renumber (· ∈ f.visited) f g where
  name_eq := h.name_eq
  noBlock_eq := f.renumber_noBlock
  closed := mem_visited_of_edge hf
  exists_block := fun {s} hs => by
    obtain ⟨b, hb⟩ := exists_of_mem_visited hf hs
    obtain ⟨b', hb', -, hr⟩ := h.exists_block hf hs hb
    exact ⟨b, b', hb, hb', hr⟩

theorem Compacts.run (h : f.Compacts g) (hf : f.Verified) (inputs : Env) (limit : Int) :
     (f.run inputs limit = .error (.noBlocks f.name) ∧
      g.run inputs limit = .error (.noBlocks f.name)) ∨
    ∃ e e', f.run inputs limit = .ok e ∧ g.run inputs limit = .ok e' ∧
      e.Moved (fun s n => f.remap.get? s = some n) e' := by
  cases hb : f.block? 0 with
  | none =>
    have hb' : g.block? 0 = none := by
      cases hg : g.block? 0 with
      | none => rfl
      | some b' =>
        obtain ⟨r, b, hr, -⟩ := h.exists_of_block? hf hg
        obtain ⟨b₀, hb₀⟩ := exists_block? (f := f) (Int.le_refl 0) (by
          have := lt_of_block? hr
          omega)
        cases hb.symm.trans hb₀
    exact .inl ⟨by rw [Func.run, hb], by rw [Func.run, hb', h.name_eq]⟩
  | some b =>
    have hne : f.blocks ≠ [] := List.ne_nil_of_mem (mem_of_block? hb)
    obtain ⟨h₀, -⟩ := visited_closed hne
    obtain ⟨b', hb', -⟩ := h.exists_block hf h₀ hb
    have hzero := Compacts.renumber_zero hf hne
    refine .inr ⟨_, _, run_of_block? hb, run_of_block? (hzero ▸ hb'), ?_⟩
    have hmoved : Ending.Moved (fun s n => f.remap.get? s = some n) _ _ :=
      (h.relocates hf).moved_runFrom hf.toShaped (get?_remap_eq_renumber hf) limit limit.toNat
        { vars := inputs } h₀ hb hb'
    rwa [hzero] at hmoved

/-- **Compaction renumbers the blocks that can be reached, and every run ends as it did.** -/
theorem renumbers_compact (hf : f.verify = .ok ()) :
    ∃ remap g, compact f = .ok remap g ∧ f.Renumbers remap g := by
  have hf := verify_eq_ok_iff.mp hf
  obtain ⟨g, hg, h⟩ := compact_spec hf
  refine ⟨f.remap, g, hg, verify_eq_ok_iff.mpr h.wellFormed.toVerified, fun s => ?_,
    remap_increasing hf.toShaped, fun n => ?_, fun hne => ?_, ?_, ?_, h.run hf⟩
  · rw [← mem_visited_iff]
    exact ⟨fun ⟨_, hn⟩ => mem_visited_of_get?_remap hf.toShaped hn,
      fun hs => ⟨_, get?_remap_eq_renumber hf hs⟩⟩
  · rw [exists_get?_remap_iff hf.toShaped, h.length_eq]
  · rw [get?_remap_eq_renumber hf (visited_closed hne).1, Compacts.renumber_zero hf hne]
  · intro s n b hs hb
    obtain ⟨i, b₁, hi, hser, rfl⟩ := (get?_remap hf.toShaped).mp hs
    obtain ⟨hb₁, -⟩ := block?_of_mem_kept hf.toShaped (List.mem_of_getElem? hi)
    obtain rfl := Option.mem_unique (hser ▸ hb₁) hb
    have hlt := (List.getElem?_eq_some_iff.mp hi).1
    obtain ⟨b', hb'⟩ := exists_block? (Int.natCast_nonneg i) (by rw [h.length_eq]; omega)
    exact ⟨b', hb', h.wellFormed.placed hb', h.renumbered hf hi hb'⟩
  · intro n b' hb'
    obtain ⟨r, b, -, hr, rfl, -⟩ := h.exists_of_block? hf hb'
    exact h.connected_renumber hf (mem_visited_iff.mp hr)

/-- Two blocks that control does not come to, between and before the others. -/
def islands : Func :=
  { name := "islands"
    body := some [
      { serial := 0, code := some [.goto 3], next := noBlock, preds := [], succs := [3] },
      { serial := 1, code := some [], next := 2, preds := [], succs := [2] },
      { serial := 2, code := some [.goto 3], next := noBlock, preds := [1], succs := [3] },
      { serial := 3, code := some [], next := 4, preds := [0, 2, 4], succs := [4] },
      { serial := 4, code := some [.goto 3], next := noBlock, preds := [3], succs := [3] }] }

theorem renumbers_compact_islands : islands.verify = .ok () ∧
    ∃ remap g, compact islands = .ok remap g ∧ islands.Renumbers remap g :=
  ⟨rfl, renumbers_compact rfl⟩

end Func

end Deflatten

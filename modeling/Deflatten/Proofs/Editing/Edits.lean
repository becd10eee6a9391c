import Deflatten.Proofs.Editing.Retarget

/-!
# Proofs/Editing/Edits — what each change does to a shaped function

`Func.Alters f g s` says that `g` is `f` but for the block at `s`, `Func.Extends f g` that it is `f`
and one block more.  Every change succeeds on a shaped function when its edge and its blocks exist,
and leaves a function in order.
-/

namespace Deflatten

namespace Func

/-- **`g` is in order, and is `f` but for the block at `s`.** -/
structure Alters (f g : Func) (s : Int) : Prop where
  wellFormed : g.WellFormed
  length_eq : g.blocks.length = f.blocks.length
  /-- The other blocks do what they did. -/
  content_eq : ∀ {x}, x ≠ s → g.content? x = f.content? x

/-- **`g` is in order, and is `f` and one block more.** -/
structure Extends (f g : Func) : Prop where
  wellFormed : g.WellFormed
  length_eq : g.blocks.length = f.blocks.length + 1
  /-- The blocks that were there do what they did. -/
  content_eq : ∀ {x : Int}, x ≠ f.blocks.length → g.content? x = f.content? x

variable {f g : Func} {b b' : Block} {s src old new target : Int}

/-! ## Shaped functions -/

theorem cases_modifyBlock (hb : f.block? s = some b) {x : Int} {t : Block}
    (ht : (f.modifyBlock s fun _ => b').block? x = some t) :
    (x = s ∧ t = b') ∨ (x ≠ s ∧ f.block? x = some t) := by
  rw [block?_modifyBlock] at ht
  split at ht
  · next hx =>
    rw [hx, hb, Option.map_some, Option.some.injEq] at ht
    exact .inl ⟨hx, ht.symm⟩
  · next hx => exact .inr ⟨hx, ht⟩

theorem Shaped.modifyBlock (h : f.Shaped) (hb : f.block? s = some b) (hser : b'.serial = b.serial)
    (hfit : b'.Fits f.blocks.length) : (f.modifyBlock s fun _ => b').Shaped := by
  refine ⟨fun ht => ?_, fun ht => ?_⟩
  · rcases cases_modifyBlock hb ht with ⟨rfl, rfl⟩ | ⟨-, ht⟩
    · rw [hser, h.placed hb]
    · exact h.placed ht
  · rw [length_blocks_modifyBlock]
    rcases cases_modifyBlock hb ht with ⟨rfl, rfl⟩ | ⟨-, ht⟩
    · exact hfit
    · exact h.fits ht

theorem Shaped.append (h : f.Shaped) (hser : b.serial = f.blocks.length)
    (hfit : b.Fits (f.blocks.length + 1)) : (f.withBlocks (f.blocks ++ [b])).Shaped := by
  have hlen : (f.withBlocks (f.blocks ++ [b])).blocks.length = f.blocks.length + 1 := by simp
  refine ⟨fun {x t} ht => ?_, fun {x t} ht => ?_⟩
  · rw [block?_append] at ht
    split at ht
    · next hx =>
      obtain rfl := Option.some.inj ht
      rw [hser, hx]
    · exact h.placed ht
  · rw [hlen]
    rw [block?_append] at ht
    split at ht
    · obtain rfl := Option.some.inj ht
      exact hfit
    · exact (h.fits ht).mono (Nat.le_succ _)

/-- Changing one block of a shaped function, and rebuilding. -/
theorem Shaped.alters (h : f.Shaped) (hb : f.block? s = some b) (hser : b'.serial = b.serial)
    (hfit : b'.Fits f.blocks.length) :
    ∃ g t, Func.rebuildEdges (f.modifyBlock s fun _ => b') = .ok () g ∧ f.Alters g s ∧
      g.block? s = some t ∧ t.content = b'.content := by
  have hs := h.modifyBlock hb hser hfit
  have hat : (f.modifyBlock s fun _ => b').content? s = some b'.content := by
    simp [content?, block?_modifyBlock, hb]
  obtain ⟨t, ht, hc⟩ := content?_eq_some_iff.mp ((content?_rewired _ s).trans hat)
  refine ⟨_, t, hs.rebuildEdges, ⟨hs.wellFormed, ?_, fun {x} hx => ?_⟩, ht, hc⟩
  · rw [length_blocks_rewired, length_blocks_modifyBlock]
  · rw [content?_rewired, content?_modifyBlock_of_ne hx]

/-- Adding a block to a shaped function, and rebuilding. -/
theorem Shaped.extends (h : f.Shaped) (hser : b.serial = f.blocks.length)
    (hfit : b.Fits (f.blocks.length + 1)) :
    ∃ g t, Func.rebuildEdges (f.withBlocks (f.blocks ++ [b])) = .ok () g ∧ f.Extends g ∧
      g.block? f.blocks.length = some t ∧ t.content = b.content := by
  have hs := h.append hser hfit
  have hat : (f.withBlocks (f.blocks ++ [b])).content? f.blocks.length = some b.content := by
    simp [content?, block?_append]
  obtain ⟨t, ht, hc⟩ := content?_eq_some_iff.mp ((content?_rewired _ _).trans hat)
  refine ⟨_, t, hs.rebuildEdges, ⟨hs.wellFormed, ?_, fun {x} hx => ?_⟩, ht, hc⟩
  · simp
  · rw [content?_rewired, content?, block?_append, if_neg hx, content?]

/-! ## Moving an edge -/

/-- Serials with `old` sent to `new`. -/
def moved (old new s : Int) : Int := if s = old then new else s

@[simp] theorem moved_self (old new : Int) : moved old new old = new := if_pos rfl

theorem moved_of_ne (h : s ≠ old) : moved old new s = s := if_neg h

end Func

/-- **A block with an edge to `old` has it moved to `new`, and nothing else changes.** -/
theorem Block.redirect?_of_mem {b : Block} {old : Int} (new : Int)
    (hold : old ∈ b.exits) : ∃ b', b.redirect? old new = some b' ∧ b'.serial = b.serial ∧
      b.Retargets (Func.moved old new) b' := by
  unfold redirect?
  cases ht : b.terminator? with
  | none =>
    have hnext : b.next = old := by
      rw [exits_none ht] at hold
      split at hold
      · simp at hold
      · simpa [eq_comm] using hold
    refine ⟨{ b with next := new }, by simp [hnext], rfl, retargets_of_none ht rfl ?_⟩
    simp [hnext]
  | some t =>
    rcases t.op.cases_of_endsBlock (endsBlock_of_terminator? ht) with hr | hg | hc
    · rw [exits_ret ht hr] at hold
      simp at hold
    · have htgt : t.d.block = old := by simpa [exits_goto ht hg, eq_comm] using hold
      have hjump : t.op.isJump = true := by rw [hg]; rfl
      refine ⟨b.mapTail fun i => i.withTarget new, by simp [hg, htgt], by simp,
        retargets_of_insns ht ?_ fun hc => ?_⟩
      · rw [insns_mapTail ht, Insn.retarget_of_isJump hjump, htgt, Func.moved_self]
      · exact absurd hg (t.op.ne_of_isConditional hc).2
    · obtain ⟨hr, hg⟩ := t.op.ne_of_isConditional hc
      have hjump := Opcode.isJump_of_isConditional hc
      have hor : t.d.block = old ∨ b.next = old :=
        ((mem_exits_conditional ht hc).mp hold).imp Eq.symm Eq.symm
      simp only [hg, hc, hor, if_true, if_false]
      refine ⟨_, rfl, ?_, retargets_of_insns ht ?_ fun _ => ?_⟩
      · split <;> simp
      · by_cases htgt : t.d.block = old
        · simp only [htgt, if_true]
          have := insns_mapTail ht fun i => i.withTarget new
          rw [Insn.retarget_of_isJump hjump, htgt, Func.moved_self]
          exact this
        · simp only [htgt, if_false]
          rw [Insn.retarget_of_isJump hjump, Func.moved_of_ne htgt, Insn.withTarget_self]
          exact insns_eq_append ht
      · unfold Func.moved
        split <;> simp

namespace Func

variable {f g : Func} {b b' : Block} {s src old new target : Int}

theorem moved_mem {n : Nat} (hb : b.Fits n) (hnew : 0 ≤ new ∧ new < n) :
    ∀ s ∈ b.exits, 0 ≤ moved old new s ∧ moved old new s < n := by
  intro s hs
  unfold moved
  split
  · exact hnew
  · exact hb.inside s hs

theorem moved_noBlock {n : Nat} (hb : b.Fits n) (hold : old ∈ b.exits) :
    moved old new noBlock = noBlock :=
  moved_of_ne fun h => hb.noBlock_not_mem (h ▸ hold)

theorem moved_ne_noBlock {n : Nat} (hb : b.Fits n) (hnew : 0 ≤ new) :
    ∀ s ∈ b.exits, moved old new s ≠ noBlock := by
  intro s hs
  unfold moved
  split
  · exact ne_noBlock hnew
  · exact ne_noBlock (hb.inside s hs).1

/-- A block with an edge moved is visited as before, but for that edge. -/
theorem visit_moved {n : Nat} (hb : b.Fits n) (hold : old ∈ b.exits) (hnew : 0 ≤ new)
    (hr : b.Retargets (moved old new) b') (m : Machine) :
    b'.visit m = (b.visit m).mapTarget (moved old new) :=
  hr.visit_eq (moved_noBlock hb hold) (moved_ne_noBlock hb hnew) m

/-- The exits of a block with an edge moved. -/
theorem mem_exits_moved {n : Nat} (hb : b.Fits n) (hold : old ∈ b.exits) (hnew : 0 ≤ new)
    (hr : b.Retargets (moved old new) b') (hs : s ∈ b'.exits) :
    (s ∈ b.exits ∧ s ≠ old) ∨ s = new := by
  obtain ⟨x, hx, rfl⟩ :=
    (hr.mem_exits (moved_noBlock hb hold) (moved_ne_noBlock hb hnew)).mp hs
  unfold moved
  split
  · exact .inr rfl
  · next hne => exact .inl ⟨hx, hne⟩

theorem get_apply (f : Func) : (get : Edit Func) f = .ok f f := rfl

theorem set_apply (g f : Func) : (set g : Edit PUnit) f = .ok ⟨⟩ g := rfl

/-- **Moving an edge that is there.** -/
theorem redirect_spec (h : f.Shaped) (hb : f.block? src = some b) (hold : old ∈ b.exits)
    (hnew : ∃ t, f.block? new = some t) :
    ∃ g b', redirect src old new f = .ok () g ∧ f.Alters g src ∧ g.block? src = some b' ∧
      b.Retargets (moved old new) b' := by
  obtain ⟨t, hnew⟩ := hnew
  obtain ⟨b₁, hr, hser, hret⟩ := Block.redirect?_of_mem new hold
  have hfit : b₁.Fits f.blocks.length :=
    hret.fits (h.fits hb) (moved_noBlock (h.fits hb) hold)
      (moved_mem (h.fits hb) (lt_of_block? hnew))
  obtain ⟨g, b', hg, halt, hb', hc⟩ := h.alters hb hser hfit
  refine ⟨g, b', ?_, halt, hb', ?_⟩
  · simp only [redirect, getBlock, hb, hnew, hr, bind, EStateM.bind, get_apply, set_apply,
      Edit.ofExcept, pure, EStateM.pure]
    exact hg
  · exact ⟨(Block.body_congr hc).trans hret.body_eq,
      (Block.terminator?_congr hc).trans hret.terminator_eq,
      fun hf => (congrArg Prod.snd hc : b'.next = b₁.next).trans (hret.next_eq hf)⟩

/-! ## Ending a block in a jump -/

theorem fits_of_goto {n : Nat} {is : List Insn} {target : Int} (hi : b.insns = is ++ [.goto target])
    (hp : Plain is) (ht : 0 ≤ target ∧ target < n) : b.Fits n := by
  have hterm := Block.terminator?_of_append hi rfl
  refine ⟨Block.body_of_append hi rfl ▸ hp, ?_, ?_, ?_⟩
  · intro t h _
    obtain rfl := Option.mem_unique hterm h
    rfl
  · intro t h hc
    obtain rfl := Option.mem_unique hterm h
    cases hc
  · intro s hs
    rw [Block.exits_goto hterm rfl] at hs
    obtain rfl : s = target := List.mem_singleton.mp hs
    exact ht

/-- **Ending a block that only falls through.** -/
theorem appendGoto_spec (h : f.Shaped) (hb : f.block? src = some b) (hnone : b.terminator? = none)
    (hnew : ∃ t, f.block? target = some t) :
    ∃ g b', appendGoto src target f = .ok () g ∧ f.Alters g src ∧ g.block? src = some b' ∧
      b'.content = (b.insns ++ [.goto target], noBlock) := by
  obtain ⟨t, hnew⟩ := hnew
  have hp : Plain b.insns := Block.body_eq_insns hnone ▸ (h.fits hb).plain
  obtain ⟨g, b', hg, halt, hb', hc⟩ :=
    h.alters hb (show { b.withInsns (b.insns ++ [.goto target]) with
      next := noBlock : Block }.serial = b.serial from rfl) (fits_of_goto rfl hp (lt_of_block? hnew))
  refine ⟨g, b', ?_, halt, hb', hc⟩
  simp only [appendGoto, getBlock, hb, hnew, hnone, bind, EStateM.bind, get_apply, set_apply,
    Edit.ofExcept, pure, EStateM.pure]
  rw [← hg]
  exact congrArg rebuildEdges (modifyBlock_congr hb rfl)

/-! ## New blocks -/

/-- **Copying a block.** -/
theorem duplicate_spec (h : f.Shaped) (hb : f.block? src = some b) :
    ∃ g b', duplicate src f = .ok (f.blocks.length : Int) g ∧ f.Extends g ∧
      g.block? f.blocks.length = some b' ∧ b'.content = b.content := by
  obtain ⟨g, b', hg, hext, hb', hc⟩ :=
    h.extends (b := { b.copy with serial := f.blocks.length }) rfl
      (((h.fits hb).mono (Nat.le_succ _)).congr rfl)
  refine ⟨g, b', ?_, hext, hb', hc⟩
  simp only [duplicate, getBlock, hb, bind, EStateM.bind, get_apply, set_apply, Edit.ofExcept,
    pure, EStateM.pure, hg]

/-- **Adding a block that ends in a jump.** -/
theorem appendBlock_spec (h : f.Shaped) {is : List Insn} (hp : Plain is)
    (hnew : ∃ t, f.block? target = some t) :
    ∃ g b', appendBlock (is ++ [.goto target]) f = .ok (f.blocks.length : Int) g ∧ f.Extends g ∧
      g.block? f.blocks.length = some b' ∧ b'.content = (is ++ [.goto target], noBlock) := by
  obtain ⟨t, hnew⟩ := hnew
  have hi : (Block.ofInsns f.blocks.length (is ++ [.goto target])).insns = is ++ [.goto target] := by
    simp [Block.ofInsns, Block.insns]
  have htgt := lt_of_block? hnew
  obtain ⟨g, b', hg, hext, hb', hc⟩ :=
    h.extends (b := Block.ofInsns f.blocks.length (is ++ [.goto target])) rfl
      (fits_of_goto hi hp (by omega))
  refine ⟨g, b', ?_, hext, hb', ?_⟩
  · simp only [appendBlock, hg]
  · rw [hc, Block.content, hi]
    rfl

end Func

end Deflatten

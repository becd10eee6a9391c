import Deflatten.Proofs.Editing.Edits
import Deflatten.Proofs.Editing.Outcomes

/-!
# Proofs/Editing/Threading — moving edges past blocks that only jump on

Blocks that hold a jump and nothing else change nothing but where control stands, so an execution
comes from a serial to its final target by itself (`reaches_finalTarget`).  A block whose edges are
moved there is ahead of the one it replaces by some visits, and `Func.threadJumps` leaves a function
that returns what it was given returns (`threadJumps_spec`).
-/

namespace Deflatten

namespace Func

variable {f g h : Func} {s t x y : Int} {b b' : Block} {m m' : Machine} {k n : Nat}

/-! ## Final targets -/

theorem reaches_threadEnd (hf : f.Shaped) (fuel : Nat) (seen : List Int) (s : Int) (m : Machine) :
    ∃ k n, f.Reaches m s k n m (f.threadEnd fuel seen s) := by
  induction fuel generalizing seen s with
  | zero => exact ⟨0, 0, .here⟩
  | succ fuel ih =>
    rw [threadEnd]
    split
    · exact ⟨0, 0, .here⟩
    split
    · next i hi =>
      split
      · next hg =>
        cases hb : f.block? s with
        | none => simp [hb] at hi
        | some b =>
          have hi : b.insns = [] ++ [i] := by simpa [hb] using hi
          have ht : b.terminator? = some i := Block.terminator?_of_append hi (by rw [hg]; rfl)
          have haim : i.d.block ∈ b.exits := by simp [Block.exits_goto ht hg]
          have hne := ne_noBlock ((hf.fits hb).inside _ haim).1
          have hvis : b.visit m = .goes m 1 i.d.block := Block.visit_of_goto hi hg hne m
          obtain ⟨k, n, hr⟩ := ih (s :: seen) i.d.block
          exact ⟨_, _, (Reaches.single hb hvis).trans hr⟩
      · exact ⟨0, 0, .here⟩
    · exact ⟨0, 0, .here⟩

/-- **Control comes to the final target by itself.** -/
theorem reaches_finalTarget (hf : f.Shaped) (s : Int) (m : Machine) :
    ∃ k n, f.Reaches m s k n m (f.finalTarget s) := reaches_threadEnd hf _ _ s m

theorem Reaches.eq_or_edge (hr : f.Reaches m s k n m' t) : t = s ∨ ∃ p, f.Edge p t := by
  cases hr with
  | here => exact .inl rfl
  | goes _ hb hv => exact .inr ⟨_, .of_visit hb hv⟩

theorem finalTarget_eq_or_edge (hf : f.Shaped) (s : Int) :
    f.finalTarget s = s ∨ ∃ p, f.Edge p (f.finalTarget s) := by
  obtain ⟨k, n, hr⟩ := reaches_finalTarget hf s {}
  exact hr.eq_or_edge

theorem finalTarget_bounds (hf : f.Shaped) (hs : 0 ≤ s ∧ s < f.blocks.length) :
    0 ≤ f.finalTarget s ∧ f.finalTarget s < f.blocks.length := by
  rcases finalTarget_eq_or_edge hf s with h | ⟨p, hp⟩
  · rwa [h]
  · obtain ⟨b, hb⟩ := hf.exists_of_edge hp
    exact lt_of_block? hb

@[simp] theorem finalTarget_noBlock (f : Func) : f.finalTarget noBlock = noBlock := by
  have hnone : f.block? noBlock = none := rfl
  simp [finalTarget, threadEnd, hnone]

/-! ## One block -/

/-- The terminator of a block aimed at a target, and left alone if it has that target. -/
theorem insns_aimed {t : Insn} (ht : b.terminator? = some t) (target : Int) (changes : Nat)
    (hc : changes = 0 ↔ target = t.d.block) :
    (if changes = 0 then b else b.mapTail fun i => i.withTarget target).insns =
      b.body ++ [t.withTarget target] := by
  split
  · next h =>
    rw [hc.mp h, Insn.withTarget_self]
    exact Block.insns_eq_append ht
  · exact Block.insns_mapTail ht _

/-- A serial is moved if its final target is a block. -/
theorem threadSerial_eq_ok_iff {r : Int × Nat} : f.threadSerial s = .ok r ↔
    (∃ c, f.block? (f.finalTarget s) = some c) ∧
      r = (f.finalTarget s, if f.finalTarget s = s then 0 else 1) := by
  unfold threadSerial
  rw [map_eq_ok_iff]
  constructor
  · rintro ⟨c, hc, rfl⟩
    exact ⟨⟨c, block?_of_getBlock hc⟩, rfl⟩
  · rintro ⟨⟨c, hc⟩, rfl⟩
    exact ⟨c, getBlock_of_block? hc, rfl⟩

theorem threadSerial_of_block? {c : Block} (h : f.block? (f.finalTarget s) = some c) :
    f.threadSerial s = .ok (f.finalTarget s, if f.finalTarget s = s then 0 else 1) :=
  threadSerial_eq_ok_iff.mpr ⟨⟨c, h⟩, rfl⟩

/-- A block whose final targets are blocks is threaded. -/
theorem exists_threadBlock (h : ∀ s ∈ b.exits, ∃ c, f.block? (f.finalTarget s) = some c) :
    ∃ b' n, f.threadBlock b = .ok (b', n) := by
  unfold threadBlock
  cases ht : b.terminator? with
  | none =>
    by_cases hn : b.next = noBlock
    · exact ⟨b, 0, by simp only [hn, if_true]⟩
    · obtain ⟨c, hc⟩ := h b.next (by simp [Block.exits_none ht, hn])
      simp only [hn, if_false, threadSerial_of_block? hc]
      exact ⟨_, _, rfl⟩
  | some t =>
    rcases t.op.cases_of_endsBlock (Block.endsBlock_of_terminator? ht) with hr | hg | hc
    · exact ⟨b, 0, by simp [hr, Opcode.isJump, Opcode.isConditional]⟩
    · obtain ⟨c, hc⟩ := h t.d.block (by simp [Block.exits_goto ht hg])
      have hjump : t.op.isJump = true := by rw [hg]; rfl
      have hcond : t.op.isConditional = false := by rw [hg]; rfl
      simp only [hjump, hcond, if_true, Bool.false_eq_true, if_false, threadSerial_of_block? hc]
      exact ⟨_, _, rfl⟩
    · obtain ⟨c, htgt⟩ := h t.d.block ((Block.mem_exits_conditional ht hc).mpr (.inl rfl))
      obtain ⟨c', hnext⟩ := h b.next ((Block.mem_exits_conditional ht hc).mpr (.inr rfl))
      simp only [Opcode.isJump_of_isConditional hc, hc, if_true, threadSerial_of_block? htgt,
        threadSerial_of_block? hnext]
      exact ⟨_, _, rfl⟩

/-- **A threaded block goes to the final targets**, and is the same if no edge has changed, as where
all exits are final targets already. -/
theorem threadBlock_spec (h : f.threadBlock b = .ok (b', n)) :
    b.Retargets f.finalTarget b' ∧ b'.serial = b.serial ∧ (n = 0 → b' = b) ∧
      ((∀ s ∈ b.exits, f.finalTarget s = s) → n = 0) := by
  have hzero : ∀ s, (if f.finalTarget s = s then 0 else 1) = 0 ↔ f.finalTarget s = s := by simp
  unfold threadBlock at h
  cases ht : b.terminator? with
  | none =>
    simp only [ht] at h
    split at h
    · next hn =>
      obtain ⟨rfl, rfl⟩ := Prod.mk.inj (Except.ok.inj h)
      refine ⟨Block.retargets_of_none ht rfl ?_, rfl, fun _ => rfl, fun _ => rfl⟩
      rw [hn, finalTarget_noBlock]
    · next hn =>
      obtain ⟨r, hr, h⟩ := bind_eq_ok_iff.mp h
      obtain ⟨-, rfl⟩ := threadSerial_eq_ok_iff.mp hr
      obtain ⟨rfl, rfl⟩ := Prod.mk.inj (Except.ok.inj h)
      refine ⟨Block.retargets_of_none ht rfl rfl, rfl, fun h => ?_, fun h => ?_⟩
      · rw [(hzero _).mp h]
      · exact (hzero _).mpr (h _ (by simp [Block.exits_none ht, hn]))
  | some t =>
    simp only [ht] at h
    rcases t.op.cases_of_endsBlock (Block.endsBlock_of_terminator? ht) with hr | hg | hc
    · have hjump : t.op.isJump = false := by rw [hr]; rfl
      simp only [hjump, Bool.false_eq_true, if_false] at h
      obtain ⟨rfl, rfl⟩ := Prod.mk.inj (Except.ok.inj h)
      refine ⟨Block.retargets_of_insns ht ?_ fun hc => ?_, rfl, fun _ => rfl, fun _ => rfl⟩
      · rw [Insn.retarget_of_ret hr]
        exact Block.insns_eq_append ht
      · exact absurd hr (t.op.ne_of_isConditional hc).1
    · have hjump : t.op.isJump = true := by rw [hg]; rfl
      have hcond : t.op.isConditional = false := by rw [hg]; rfl
      have hins := insns_aimed ht (f.finalTarget t.d.block) _ (hzero t.d.block)
      simp only [hjump, hcond, if_true, Bool.false_eq_true, if_false] at h
      obtain ⟨r, hr, h⟩ := bind_eq_ok_iff.mp h
      obtain ⟨-, rfl⟩ := threadSerial_eq_ok_iff.mp hr
      obtain ⟨rfl, rfl⟩ := Prod.mk.inj (Except.ok.inj h)
      refine ⟨Block.retargets_of_insns ht ?_ fun hc => ?_, ?_, fun h => if_pos h, fun h => ?_⟩
      · rw [Insn.retarget_of_isJump hjump]
        exact hins
      · rw [hcond] at hc
        cases hc
      · split <;> simp
      · exact (hzero _).mpr (h _ (by simp [Block.exits_goto ht hg]))
    · have hjump := Opcode.isJump_of_isConditional hc
      have hins := insns_aimed ht (f.finalTarget t.d.block) _ (hzero t.d.block)
      simp only [hjump, hc, if_true] at h
      obtain ⟨r, hr, h⟩ := bind_eq_ok_iff.mp h
      obtain ⟨-, rfl⟩ := threadSerial_eq_ok_iff.mp hr
      obtain ⟨r', hr', h⟩ := bind_eq_ok_iff.mp h
      obtain ⟨-, rfl⟩ := threadSerial_eq_ok_iff.mp hr'
      obtain ⟨rfl, rfl⟩ := Prod.mk.inj (Except.ok.inj h)
      refine ⟨Block.retargets_of_insns ht ?_ fun _ => rfl, ?_, fun h => ?_, fun h => ?_⟩
      · rw [Insn.retarget_of_isJump hjump]
        exact hins
      · split <;> simp
      · obtain ⟨h₁, h₂⟩ := Nat.add_eq_zero_iff.mp h
        simp [(hzero _).mp h₁, (hzero _).mp h₂]
      · have hexits := fun x => (Block.mem_exits_conditional (s := x) ht hc).mpr
        simp [h _ (hexits _ (.inl rfl)), h _ (hexits _ (.inr rfl))]

/-! ## All blocks -/

/-- **`g` goes where `f` goes**, perhaps past blocks that only jump on. -/
structure Threads (f g : Func) : Prop where
  /-- Blocks stand where they say. -/
  shaped : g.Shaped
  length_eq : g.blocks.length = f.blocks.length
  refines : f.Refines g
  /-- What has an edge to it had one. -/
  edge : ∀ {x y}, g.Edge x y → ∃ p, f.Edge p y

theorem Threads.refl (hf : f.Shaped) : f.Threads f := ⟨hf, rfl, .refl f, fun h => ⟨_, h⟩⟩

theorem Threads.trans (hfg : f.Threads g) (hgh : g.Threads h) : f.Threads h := by
  refine ⟨hgh.shaped, hgh.length_eq.trans hfg.length_eq, hfg.refines.trans hgh.refines, ?_⟩
  intro x y hxy
  obtain ⟨p, hp⟩ := hgh.edge hxy
  exact hfg.edge hp

theorem finalTarget_ne_noBlock (hf : f.Shaped) (hb : f.block? s = some b) :
    ∀ x ∈ b.exits, f.finalTarget x ≠ noBlock := fun x hx =>
  ne_noBlock (finalTarget_bounds hf ((hf.fits hb).inside x hx)).1

theorem refines_of_retargets (hf : f.Shaped) (hb : f.block? s = some b)
    (hr : b.Retargets f.finalTarget b') : f.Refines (f.modifyBlock s fun _ => b') := by
  rintro m n v cs ⟨k, n', hn', hh⟩
  -- the other execution stands where this one comes by itself
  refine EndsWithin.mono (HaltsIn.simulate (R := fun m x m' x' => m = m' ∧
    ∃ k n, f.Reaches m x k n m x') ?_ ⟨rfl, 0, 0, .here⟩ hh) hn'
  rintro m x _ x' k n cs ⟨rfl, j, c, hreach⟩ hh
  obtain ⟨k₁, n₁, rfl, rfl, hh₁⟩ := hh.rest hreach
  obtain ⟨bx, hbx⟩ := hh₁.exists_block
  obtain ⟨b₁, φ, hb₁, hvis, hφ⟩ : ∃ b₁ φ, (f.modifyBlock s fun _ => b').block? x' = some b₁ ∧
      b₁.visit m = (bx.visit m).mapTarget φ ∧ ∀ y m, ∃ k n, f.Reaches m y k n m (φ y) := by
    by_cases hx : x' = s
    · subst hx
      obtain rfl := Option.mem_unique hbx hb
      exact ⟨b', f.finalTarget, by simp [block?_modifyBlock, hb],
        hr.visit_eq f.finalTarget_noBlock (finalTarget_ne_noBlock hf hb) m,
        fun y m => reaches_finalTarget hf y m⟩
    · exact ⟨bx, id, by simp [block?_modifyBlock, hx, hbx], by cases bx.visit m <;> rfl,
        fun y m => ⟨0, 0, .here⟩⟩
  cases hv : bx.visit m with
  | stops m₁ c' o =>
    obtain ⟨rfl, rfl, rfl, rfl⟩ := hh₁.of_stops hbx hv
    rw [hv] at hvis
    exact .inl ((HaltsIn.stops hb₁ hvis).endsWithin.mono (Nat.le_add_left ..))
  | goes m₁ c' y =>
    obtain ⟨k₂, n₂, rfl, rfl, hh₂⟩ := hh₁.of_goes hbx hv
    rw [hv] at hvis
    exact .inr ⟨k₂, n₂, m₁, y, 1, c', m₁, φ y, by omega, hh₂, .single hb₁ hvis, by omega, rfl,
      hφ y m₁⟩

theorem threads_of_retargets (hf : f.Shaped) (hb : f.block? s = some b)
    (hr : b.Retargets f.finalTarget b') (hser : b'.serial = b.serial) :
    f.Threads (f.modifyBlock s fun _ => b') := by
  have hne := finalTarget_ne_noBlock hf hb
  refine ⟨hf.modifyBlock hb hser (hr.fits (hf.fits hb) f.finalTarget_noBlock fun x hx => ?_),
    length_blocks_modifyBlock .., refines_of_retargets hf hb hr, ?_⟩
  · exact finalTarget_bounds hf ((hf.fits hb).inside x hx)
  · rintro x y ⟨t, ht, hy⟩
    rcases cases_modifyBlock hb ht with ⟨rfl, rfl⟩ | ⟨-, ht⟩
    · obtain ⟨z, hz, rfl⟩ := (hr.mem_exits f.finalTarget_noBlock hne).mp hy
      rcases finalTarget_eq_or_edge hf z with h | h
      · exact ⟨x, b, hb, h.symm ▸ hz⟩
      · exact h
    · exact ⟨x, t, ht, hy⟩

/-- The blocks at some positions are threaded one after the other. -/
theorem threadBlocks_cons {i : Nat} {is : List Nat} (h : threadBlocks (i :: is) f = .ok (g, n)) :
    (f.block? i = none ∧ threadBlocks is f = .ok (g, n)) ∨
      ∃ b b' c r, f.block? i = some b ∧ f.threadBlock b = .ok (b', c) ∧
        threadBlocks is (f.modifyBlock i fun _ => b') = .ok (g, r) ∧ n = c + r := by
  rw [threadBlocks] at h
  split at h
  · next hb => exact .inl ⟨hb, h⟩
  · next b hb =>
    obtain ⟨⟨b', c⟩, hb', h⟩ := bind_eq_ok_iff.mp h
    obtain ⟨⟨g', r⟩, hg, h⟩ := bind_eq_ok_iff.mp h
    obtain ⟨rfl, rfl⟩ := Prod.mk.inj (Except.ok.inj h)
    exact .inr ⟨b, b', c, r, hb, hb', hg, rfl⟩

/-- What a threaded block keeps, all of them keep. -/
theorem threadBlocks_induct {P : Func → Prop}
    (hstep : ∀ {f i b b' c}, P f → f.block? i = some b → f.threadBlock b = .ok (b', c) →
      P (f.modifyBlock i fun _ => b'))
    {is : List Nat} (h : threadBlocks is f = .ok (g, n)) (hf : P f) : P g := by
  induction is generalizing f n with
  | nil =>
    obtain ⟨rfl, -⟩ := Prod.mk.inj (Except.ok.inj h)
    exact hf
  | cons i is ih =>
    rcases threadBlocks_cons h with ⟨-, h⟩ | ⟨b, b', c, r, hb, hb', h, -⟩
    · exact ih h hf
    · exact ih h (hstep hf hb hb')

theorem Shaped.exists_threadBlock (hf : f.Shaped) (hb : f.block? s = some b) :
    ∃ b' n, f.threadBlock b = .ok (b', n) := by
  refine Func.exists_threadBlock fun x hx => ?_
  obtain ⟨h₀, hlt⟩ := finalTarget_bounds hf ((hf.fits hb).inside x hx)
  exact exists_block? h₀ hlt

theorem threadBlocks_spec (is : List Nat) (hf : f.Shaped) :
    ∃ g n, threadBlocks is f = .ok (g, n) ∧ f.Threads g ∧ (n = 0 → g = f) := by
  induction is generalizing f with
  | nil => exact ⟨f, 0, rfl, .refl hf, fun _ => rfl⟩
  | cons i is ih =>
    rw [threadBlocks]
    split
    · exact ih hf
    · next b hb =>
      obtain ⟨b', c, hb'⟩ := hf.exists_threadBlock hb
      obtain ⟨hr, hser, hsame, -⟩ := threadBlock_spec hb'
      have hstep := threads_of_retargets hf hb hr hser
      obtain ⟨g, r, hg, hrest, hnone⟩ := ih hstep.shaped
      refine ⟨g, c + r, by simp only [hb', hg, bind, Except.bind, pure, Except.pure],
        hstep.trans hrest, fun hz => ?_⟩
      obtain ⟨h₁, h₂⟩ := Nat.add_eq_zero_iff.mp hz
      refine (hnone h₂).trans ?_
      rw [hsame h₁, modifyBlock_self hb]

/-- **Threading jumps succeeds.** -/
theorem threadJumps_spec (hf : f.Shaped) :
    ∃ n g, threadJumps f = .ok n g ∧ f.Threads g ∧ (g = f ∨ g.WellFormed) := by
  obtain ⟨g, n, hg, hth, hsame⟩ := threadBlocks_spec (List.range f.blocks.length) hf
  unfold threadJumps
  rw [hg]
  cases n with
  | zero => exact ⟨0, g, rfl, hth, .inl (hsame rfl)⟩
  | succ n =>
    simp only [hth.shaped.rebuildEdges]
    refine ⟨n + 1, g.rewired, rfl, hth.trans ⟨?_, ?_, ?_, ?_⟩, .inr hth.shaped.wellFormed⟩
    · exact hth.shaped.wellFormed.toShaped
    · exact length_blocks_rewired g
    · exact refines_of_content? g.content?_rewired
    · exact fun he => ⟨_, (edge_congr (g.content?_rewired _)).mp he⟩

theorem Threads.enteredOnce (h : f.Threads g) (h₀ : f.EnteredOnce) : g.EnteredOnce := by
  intro p hp
  obtain ⟨q, hq⟩ := h.edge hp
  exact h₀ q hq

end Func

end Deflatten

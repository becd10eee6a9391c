import Deflatten.Flattening.Samples
import Deflatten.Proofs.Editing.JumpChains

/-!
# Proofs/Editing/ThreadedRuns — threading keeps what runs do, and is complete in one go

`Func.threadJumps` leaves a function in which every block is aimed at the final targets of the
function it was given (`Aimed`).  Wherever the one goes on to `y`, the other goes on to the final
target of `y`, and there the first comes by itself; so executions end in both alike or in neither
(`Aimed.exists_haltsIn`, `Aimed.haltsIn_of`).  Final targets are their own final targets, so a
second call finds nothing to move (`Aimed.threadJumps`), and what is still aimed at a jump is on a
cycle of jumps.
-/

namespace Deflatten

open Samples (block branching function lit reg)

namespace Func

variable {f g : Func} {m m' : Machine} {s s' t y : Int} {b b' : Block} {j k n c left : Nat}
  {o : Halt}
  {cs : List CallEvent} {limit : Int}

/-! ## Functions aimed at final targets -/

/-- **Every block of `g` is the block of `f`, aimed at the final targets.** -/
structure Aimed (f g : Func) : Prop where
  name_eq : g.name = f.name
  length_eq : g.blocks.length = f.blocks.length
  /-- Each block goes to final targets. -/
  retargets : ∀ {s b b'}, f.block? s = some b → g.block? s = some b' →
    b.Retargets f.finalTarget b'

theorem aimed_threadBlocks (h : threadBlocks (List.range f.blocks.length) f = .ok (g, n)) :
    f.Aimed g := by
  have hkeeps := threadBlocks_induct
    (P := fun g => g.name = f.name ∧ g.blocks.length = f.blocks.length)
    (fun {f' i b b' c} hf' _ _ => ⟨by rw [modifyBlock]; split <;> exact hf'.1,
      (length_blocks_modifyBlock ..).trans hf'.2⟩) h ⟨rfl, rfl⟩
  refine ⟨hkeeps.1, hkeeps.2, fun {s b b'} hb hb' => ?_⟩
  obtain ⟨b₁, hb₁, hin, -⟩ := block?_threadBlocks h List.nodup_range hb
  obtain rfl := Option.mem_unique hb₁ hb'
  have := lt_of_block? hb
  exact hin (List.mem_range.mpr (by omega))

theorem Aimed.congr {h : Func} (hfg : f.Aimed g) (hname : h.name = g.name)
    (hc : ∀ s, h.content? s = g.content? s) (hlen : h.blocks.length = g.blocks.length) :
    f.Aimed h := by
  refine ⟨hname.trans hfg.name_eq, hlen.trans hfg.length_eq, fun {s b b'} hb hb' => ?_⟩
  obtain ⟨b₁, hb₁, hcontent⟩ := exists_of_content? (hc s).symm hb'
  exact (hfg.retargets hb hb₁).congr_right hcontent.symm

/-- **Threading succeeds and aims every block at its final targets.** -/
theorem exists_aimed_threadJumps (hf : f.Verified) :
    ∃ n g, threadJumps f = .ok n g ∧ f.Aimed g ∧ g.Verified := by
  obtain ⟨g, n, hg, hth, hsame⟩ := threadBlocks_spec (List.range f.blocks.length) hf.toShaped
  have haimed := aimed_threadBlocks hg
  unfold threadJumps
  rw [hg]
  cases n with
  | zero =>
    obtain rfl := hsame rfl
    exact ⟨0, g, rfl, haimed, hf⟩
  | succ n =>
    simp only [hth.shaped.rebuildEdges]
    exact ⟨n + 1, g.rewired, rfl, haimed.congr rfl g.content?_rewired (length_blocks_rewired g),
      hth.shaped.wellFormed.toVerified⟩

namespace Aimed

theorem exists_block (h : f.Aimed g) (hb : f.block? s = some b) : ∃ b', g.block? s = some b' := by
  have := lt_of_block? hb
  have := h.length_eq
  exact exists_block? (by omega) (by omega)

theorem exists_block_of (h : f.Aimed g) (hb' : g.block? s = some b') :
    ∃ b, f.block? s = some b := by
  have := lt_of_block? hb'
  have := h.length_eq
  exact exists_block? (by omega) (by omega)

theorem finalTarget_eq (h : f.Aimed g) : g.finalTarget = f.finalTarget :=
  (shortens_of_blocks h.length_eq fun hb hb' => .inr (h.retargets hb hb')).finalTarget_eq

/-- A visit leads to the final target of where it led. -/
theorem visit_eq (h : f.Aimed g) (hf : f.Shaped) (hb : f.block? s = some b)
    (hb' : g.block? s = some b') (m : Machine) :
    b'.visit m = (b.visit m).mapTarget f.finalTarget :=
  (h.retargets hb hb').visit_eq f.finalTarget_noBlock (finalTarget_ne_noBlock hf hb) m

end Aimed

/-! ## Endings -/

/-- **A run goes on from where an execution comes that ends.** -/
theorem HaltsIn.runFrom_of_reaches (hf : f.EndsLast) (hh : f.HaltsIn k m s n o cs)
    (hr : f.Reaches m s j c m' s') (hc : c ≤ left) (hb : f.block? s = some b)
    (hb' : f.block? s' = some b') :
    f.runFrom limit left m s b = f.runFrom limit (left - c) m' s' b' := by
  induction j generalizing k m s n c left b with
  | zero =>
    cases hr
    obtain rfl := Option.mem_unique hb hb'
    rfl
  | succ j ih =>
    obtain ⟨b₁, c₁, c₂, m₁, s₁, hb₁, hv, rfl, hr₁⟩ := hr.head
    obtain rfl := Option.mem_unique hb hb₁
    obtain ⟨k₁, n₁, -, -, hh₁⟩ := hh.of_goes hb hv
    obtain ⟨b₂, hb₂⟩ := hh₁.exists_block
    have hrest : c₂ ≤ left - c₁ := by omega
    rw [runFrom_of_goes hf hh.settles hb hv hb₂ (by omega), ih hh₁ hr₁ hrest hb₂, Nat.sub_sub]

namespace Aimed

/-- **What ends in `f` ends in `g`**, in no more steps, and runs end at the same block. -/
theorem exists_haltsIn (h : f.Aimed g) (hf : f.Shaped) (hg : g.Shaped)
    (hh : f.HaltsIn k m s n o cs) : ∃ k' n', n' ≤ n ∧ g.HaltsIn k' m s n' o cs ∧
      ∀ {limit : Int} {left left' : Nat} {b b' : Block}, n ≤ left → n' ≤ left' →
        f.block? s = some b → g.block? s = some b' →
        (g.runFrom limit left' m s b').error? = (f.runFrom limit left m s b).error? := by
  induction k using Nat.strongRecOn generalizing m s n with
  | ind k ih =>
    obtain ⟨b, hb⟩ := hh.exists_block
    obtain ⟨b', hb'⟩ := h.exists_block hb
    have hvis := h.visit_eq hf hb hb' m
    cases hv : b.visit m with
    | stops m₁ c o₁ =>
      obtain ⟨-, rfl, rfl, rfl⟩ := hh.of_stops hb hv
      rw [hv] at hvis
      refine ⟨1, n, Nat.le_refl n, .stops hb' hvis, fun {limit left left' c c'} hn hn' hc hc' => ?_⟩
      obtain rfl := Option.mem_unique hb hc
      obtain rfl := Option.mem_unique hb' hc'
      rw [error?_runFrom_of_stops hf.endsLast limit hb hv hn,
        error?_runFrom_of_stops hg.endsLast limit hb' hvis hn', h.name_eq]
    | goes m₁ c y =>
      obtain ⟨k₁, n₁, rfl, rfl, hh₁⟩ := hh.of_goes hb hv
      rw [hv] at hvis
      -- `f` comes to the final target by itself, where `g` is already
      obtain ⟨j, d, hr⟩ := reaches_finalTarget hf y m₁
      obtain ⟨k₂, n₂, rfl, rfl, hh₂⟩ := hh₁.rest hr
      obtain ⟨k', n', hn', hh', herror⟩ := ih k₂ (by omega) hh₂
      have hhg := hh'.goes hb' hvis
      refine ⟨k' + 1, c + n', by omega, hhg, fun {limit left left' e e'} hn hn' he he' => ?_⟩
      obtain rfl := Option.mem_unique hb he
      obtain rfl := Option.mem_unique hb' he'
      obtain ⟨b₂, hb₂⟩ := hh₂.exists_block
      obtain ⟨b₂', hb₂'⟩ := hh'.exists_block
      rw [hh.runFrom_of_reaches hf.endsLast ((Reaches.single hb hv).trans hr) (by omega) hb hb₂,
        hhg.runFrom_of_reaches hg.endsLast (.single hb' hvis) (by omega) hb' hb₂']
      exact herror (by omega) (by omega) hb₂ hb₂'

/-- **…and what ends in `g` ends in `f`.** -/
theorem haltsIn_of (h : f.Aimed g) (hf : f.Shaped) (hh : g.HaltsIn k m s n o cs) :
    ∃ k' n', f.HaltsIn k' m s n' o cs := by
  induction hh with
  | @stops m m₁ s n o b' hb' hv' =>
    obtain ⟨b, hb⟩ := h.exists_block_of hb'
    have hvis := h.visit_eq hf hb hb' m
    cases hv : b.visit m with
    | goes m₂ c y =>
      rw [hv, hv'] at hvis
      cases hvis
    | stops m₂ c o₂ =>
      rw [hv, hv'] at hvis
      obtain ⟨rfl, rfl, rfl⟩ := Visit.stops.inj hvis
      exact ⟨1, n, .stops hb hv⟩
  | @goes m m₁ s s₁ k c n o cs b' hb' hv' rest ih =>
    obtain ⟨k', n', hh⟩ := ih
    obtain ⟨b, hb⟩ := h.exists_block_of hb'
    have hvis := h.visit_eq hf hb hb' m
    cases hv : b.visit m with
    | stops m₂ c o₂ =>
      rw [hv, hv'] at hvis
      cases hvis
    | goes m₂ c y =>
      rw [hv, hv'] at hvis
      obtain ⟨rfl, rfl, rfl⟩ := Visit.goes.inj hvis
      obtain ⟨i, d, hr⟩ := reaches_finalTarget hf y m₁
      exact ⟨_, _, hh.of_reaches ((Reaches.single hb hv).trans hr)⟩

end Aimed

/-! ## Executions that do not end -/

theorem HaltsIn.not_endless (h : f.HaltsIn k m s n o cs) : ¬ f.Endless m s := by
  intro hend
  obtain ⟨n', m', s', hr⟩ := hend (k + 1)
  obtain ⟨k₁, -, hk, -⟩ := h.rest hr
  omega

theorem Shaped.endless_iff (hf : f.Shaped) (hb : f.block? s = some b) :
    f.Endless m s ↔ ∀ k n o cs, ¬ f.HaltsIn k m s n o cs := by
  refine ⟨fun hend k n o cs hh => hh.not_endless hend, fun hno k => ?_⟩
  rcases hf.exists_reaches_or_haltsIn hb m k with ⟨n, m', s', -, hr, -⟩ | ⟨k', n, o, cs, hh⟩
  · exact ⟨n, m', s', hr⟩
  · exact absurd hh (hno k' n o cs)

/-- **What goes on for ever goes on for ever**, and nothing else does. -/
theorem Aimed.endless_iff (h : f.Aimed g) (hf : f.Shaped) (hg : g.Shaped)
    (hb : f.block? s = some b) : g.Endless m s ↔ f.Endless m s := by
  obtain ⟨b', hb'⟩ := h.exists_block hb
  rw [hf.endless_iff hb, hg.endless_iff hb']
  refine ⟨fun hno k n o cs hh => ?_, fun hno k n o cs hh => ?_⟩
  · obtain ⟨k', n', -, hh', -⟩ := h.exists_haltsIn hf hg hh
    exact hno k' n' o cs hh'
  · obtain ⟨k', n', hh'⟩ := h.haltsIn_of hf hh
    exact hno k' n' o cs hh'

/-! ## Nothing left to thread -/

/-- A block that is its own final target. -/
def Fixed (f : Func) (s : Int) : Prop := f.finalTarget s = s ∧ ∃ c, f.block? s = some c

/-- A block whose exits are final targets is left alone. -/
theorem threadBlock_of_fixed (h : ∀ s ∈ b.exits, f.Fixed s) : f.threadBlock b = .ok (b, 0) := by
  obtain ⟨b', n, hb'⟩ := exists_threadBlock fun s hs => (h s hs).1.symm ▸ (h s hs).2
  obtain ⟨-, -, hsame, hzero⟩ := threadBlock_spec hb'
  obtain rfl := hzero fun s hs => (h s hs).1
  rw [hb', hsame rfl]

theorem threadBlocks_of_fixed (h : ∀ {s t}, f.Edge s t → f.Fixed t) (is : List Nat) :
    threadBlocks is f = .ok (f, 0) := by
  induction is with
  | nil => rfl
  | cons i is ih =>
    rw [threadBlocks]
    split
    · exact ih
    · next b hb =>
      simp only [threadBlock_of_fixed fun t ht => h ⟨b, hb, ht⟩, modifyBlock_self hb, ih, bind,
        Except.bind, pure, Except.pure]

namespace Aimed

/-- **Every edge leads to a final target.** -/
theorem finalTarget_of_edge (h : f.Aimed g) (hf : f.Shaped) (he : g.Edge s t) :
    g.finalTarget t = t := by
  obtain ⟨b', hb', ht⟩ := he
  obtain ⟨b, hb⟩ := h.exists_block_of hb'
  obtain ⟨y, -, rfl⟩ := ((h.retargets hb hb').mem_exits f.finalTarget_noBlock
    (finalTarget_ne_noBlock hf hb)).mp ht
  rw [h.finalTarget_eq, finalTarget_finalTarget]

theorem threadJumps (h : f.Aimed g) (hf : f.Shaped) (hg : g.Shaped) : threadJumps g = .ok 0 g := by
  have hfixed : ∀ {s t}, g.Edge s t → g.Fixed t := fun he =>
    ⟨h.finalTarget_of_edge hf he, hg.exists_of_edge he⟩
  simp only [Func.threadJumps, threadBlocks_of_fixed hfixed]

/-- **What is still aimed at a jump is on a cycle of jumps.** -/
theorem onCycle_of_edge (h : f.Aimed g) (hf : f.Shaped) (he : g.Edge s t) (hh : ∃ u, g.Hops t u) :
    g.OnCycle t :=
  (arrives_self_iff.mpr (h.finalTarget_of_edge hf he)).final.resolve_left (not_not.mpr hh)

/-- **Runs that end of themselves end as they did.** -/
theorem run (h : f.Aimed g) (hf : f.Shaped) (hg : g.Shaped) {inputs : Env} {e : Ending}
    (he : f.run inputs limit = .ok e) (ho : e.halt?.isSome = true) :
    ∃ e', g.run inputs limit = .ok e' ∧ e'.error? = e.error? ∧ e'.trace.ret = e.trace.ret ∧
      e'.trace.calls = e.trace.calls ∧ e'.trace.steps ≤ e.trace.steps := by
  obtain ⟨o, ho⟩ := Option.isSome_iff_exists.mp ho
  obtain ⟨hle, k, n, hn, hh⟩ := endsWithin_of_run hf.endsLast he ho
  obtain ⟨k', n', hn', hh', herror⟩ := h.exists_haltsIn hf hg hh
  obtain ⟨b, hb⟩ := hh.exists_block
  obtain ⟨b', hb'⟩ := hh'.exists_block
  have hrun' : g.run inputs limit = .ok _ := run_of_block? hb'
  obtain ⟨ho', hcalls, hsteps⟩ := runFrom_of_haltsIn hg.endsLast limit hh' hb'
    (show n' ≤ limit.toNat by omega)
  obtain rfl := Except.ok.inj ((run_of_block? hb).symm.trans he)
  exact ⟨_, hrun', herror (by omega) (by omega) hb hb',
    ret_eq_of_halt? he hrun' (ho'.trans ho.symm), hcalls, by omega⟩

/-- **Runs that no limit lets end are not let end.** -/
theorem run_of (h : f.Aimed g) (hf : f.Shaped) (hg : g.Shaped) {inputs : Env}
    (hno : ∀ limit e, f.run inputs limit = .ok e → e.halt? = none) {e' : Ending}
    (he' : g.run inputs limit = .ok e') : e'.halt? = none := by
  by_contra ho
  obtain ⟨o, ho⟩ := Option.ne_none_iff_exists'.mp ho
  obtain ⟨-, k', n', -, hh'⟩ := endsWithin_of_run hg.endsLast he' ho
  obtain ⟨k, n, hh⟩ := h.haltsIn_of hf hh'
  have hrun : ∃ e, f.run inputs n = .ok e ∧ e.halt? = some o ∧ e.trace.calls = _ ∧
      e.trace.steps ≤ n :=
    run_of_endsWithin hf.endsLast hh.endsWithin (by simp)
  obtain ⟨e, he, ho', -⟩ := hrun
  cases (hno n e he).symm.trans ho'

end Aimed

/-! ## Threading -/

/-- **`g` does what `f` does, past all chains of jumps.** -/
structure Threaded (f g : Func) : Prop where
  /-- It is in order. -/
  verified : g.verify = .ok ()
  /-- Runs that return, come to an undefined value or fall off end as they did, in no more steps. -/
  run : ∀ {inputs limit e}, f.run inputs limit = .ok e → e.halt?.isSome = true →
    ∃ e', g.run inputs limit = .ok e' ∧ e'.error? = e.error? ∧ e'.trace.ret = e.trace.ret ∧
      e'.trace.calls = e.trace.calls ∧ e'.trace.steps ≤ e.trace.steps
  /-- Executions that go on for ever go on for ever. -/
  endless : ∀ {inputs}, f.Endless { vars := inputs } 0 → g.Endless { vars := inputs } 0
  /-- Runs that no limit lets end are not let end. -/
  unended : ∀ {inputs}, (∀ limit e, f.run inputs limit = .ok e → e.halt? = none) →
    ∀ limit e', g.run inputs limit = .ok e' → e'.halt? = none
  /-- Threading once more changes nothing. -/
  again : threadJumps g = .ok 0 g
  /-- A successor that only jumps on is on a cycle of blocks that only jump on. -/
  complete : ∀ {s b t}, g.block? s = some b → t ∈ b.succs → (∃ u, g.Hops t u) →
    Relation.TransGen g.Hops t t

/-- **Threading jumps keeps what runs do and leaves no chain of jumps.** -/
theorem threaded_threadJumps (hf : f.verify = .ok ()) :
    ∃ n g, threadJumps f = .ok n g ∧ f.Threaded g := by
  have hf := verify_eq_ok_iff.mp hf
  obtain ⟨n, g, hg, haimed, hver⟩ := exists_aimed_threadJumps hf
  refine ⟨n, g, hg, verify_eq_ok_iff.mpr hver, haimed.run hf.toShaped hver.toShaped,
    fun {inputs} hend => ?_, fun hno _ _ => haimed.run_of hf.toShaped hver.toShaped hno,
    haimed.threadJumps hf.toShaped hver.toShaped, fun {s b t} hb ht =>
      haimed.onCycle_of_edge hf.toShaped ⟨b, hb, hver.succs_eq hb ▸ ht⟩⟩
  obtain ⟨_, _, _, hr⟩ := hend 1
  obtain ⟨b, _, _, _, _, hb, -⟩ := hr.head
  exact (haimed.endless_iff hf.toShaped hver.toShaped hb).mpr hend

/-- Chains of jumps that run into each other, to a return and to a cycle. -/
def trampolines : Func := function "trampolines" [
  branching 0 .jz (reg 0) (lit 1) 1 3,
  block 1 [.goto 2],
  block 2 [.goto 4],
  block 3 [.goto 5],
  block 4 [.ret (reg 0)],
  block 5 [.goto 6],
  block 6 [.goto 5]]

theorem threaded_trampolines : trampolines.verify = .ok () ∧
    ∃ n g, threadJumps trampolines = .ok n g ∧ trampolines.Threaded g :=
  ⟨rfl, threaded_threadJumps rfl⟩

end Func

end Deflatten

import Deflatten.Dispatch.Stages
import Deflatten.Proofs.Dispatch.Books
import Deflatten.Proofs.Editing.Mutations

/-!
# Proofs/Dispatch/Frame — what no step touches

A removal and the clean-ups move, copy, drop and renumber what is there; the only new instructions
are jumps.  So a property of instructions that jumps have and that new targets do not spoil
(`Insn.Portable`) holds of all instructions afterwards if it did before, and the stage stays as it
is (`Func.Carries`).  The lemmas follow the text of each step.
-/

namespace Deflatten

/-! ## Instructions -/

/-- **A property that jumps have and that new targets do not spoil.** -/
structure Insn.Portable (P : Insn → Prop) : Prop where
  /-- Jumps have it. -/
  goto : ∀ s, P (.goto s)
  /-- The target does not matter. -/
  withTarget : ∀ {i} s, P i → P (i.withTarget s)

/-- All instructions of a block have a property. -/
def Block.All (P : Insn → Prop) (b : Block) : Prop := ∀ i ∈ b.insns, P i

namespace Block

variable {P : Insn → Prop} {b b' : Block}

theorem All.of_insns (h : b.All P) (heq : b'.insns = b.insns) : b'.All P := fun i hi =>
  h i (heq ▸ hi)

theorem All.body (h : b.All P) : ∀ i ∈ b.body, P i := fun i hi =>
  h i (by rw [b.insns_eq]; exact List.mem_append_left _ hi)

theorem All.mapTail (h : b.All P) {g : Insn → Insn} (hg : ∀ i, P i → P (g i)) :
    (b.mapTail g).All P := by
  unfold Block.mapTail
  split
  · next t ht =>
    intro i hi
    rw [insns_withInsns, List.mem_append, List.mem_singleton] at hi
    rcases hi with hi | rfl
    · exact h i (List.dropLast_subset _ hi)
    · exact hg t (h t (List.mem_of_getLast? ht))
  · exact h

theorem All.withTarget (hP : Insn.Portable P) (h : b.All P) (s : Int) :
    (b.mapTail fun i => i.withTarget s).All P := h.mapTail fun _ => hP.withTarget s

theorem All.redirect? (hP : Insn.Portable P) (h : b.All P) {old new : Int}
    (hr : b.redirect? old new = some b') : b'.All P := by
  unfold Block.redirect? at hr
  cases ht : b.terminator? with
  | none =>
    simp only [ht, Option.ite_none_right_eq_some, Option.some.injEq] at hr
    exact h.of_insns (hr.2 ▸ rfl)
  | some t =>
    simp only [ht] at hr
    split at hr
    · simp only [Option.ite_none_right_eq_some, Option.some.injEq] at hr
      exact hr.2 ▸ h.withTarget hP new
    · split at hr
      · simp only [Option.ite_none_right_eq_some, Option.some.injEq] at hr
        obtain ⟨-, rfl⟩ := hr
        split
        · exact (h.withTarget hP new).of_insns rfl
        · exact h.of_insns rfl
      · cases hr

theorem All.retargets (hP : Insn.Portable P) {φ : Int → Int} (h : b.All P)
    (hr : b.Retargets φ b') : b'.All P := by
  intro i hi
  rw [b'.insns_eq, hr.body_eq, hr.terminator_eq, List.mem_append] at hi
  rcases hi with hi | hi
  · exact h.body i hi
  · cases ht : b.terminator? with
    | none => simp [ht] at hi
    | some t =>
      have hPt : P t := h t (by rw [insns_eq_append ht]; simp)
      obtain rfl : i = t.retarget φ := by simpa [ht] using hi
      unfold Insn.retarget
      split
      · exact hP.withTarget _ hPt
      · exact hPt

end Block

namespace Func

/-- All instructions of a function have a property. -/
def All (P : Insn → Prop) (f : Func) : Prop := ∀ b ∈ f.blocks, b.All P

/-- **What steps carry along**: the stage, and a property of all instructions. -/
structure Carries (m : Maturity) (P : Insn → Prop) (f : Func) : Prop where
  maturity_eq : f.maturity = m
  all : f.All P

variable {m : Maturity} {P : Insn → Prop} {f g : Func} {s : Int} {b : Block}

theorem All.block? (h : f.All P) (hb : f.block? s = some b) : b.All P := h b (mem_of_block? hb)

theorem Carries.block (h : f.Carries m P) (hb : f.getBlock s = .ok b) : b.All P :=
  h.all.block? (block?_of_getBlock hb)

theorem SameCode.all (h : f.SameCode g) (hf : f.All P) : g.All P := by
  intro b hb
  have hmem : b.bare ∈ f.blocks.map Block.bare := h.bare_eq ▸ List.mem_map_of_mem hb
  obtain ⟨b₀, hb₀, heq⟩ := List.mem_map.mp hmem
  exact (hf b₀ hb₀).of_insns (congrArg Block.insns heq.symm :)

theorem SameCode.carries (h : f.SameCode g) (hf : f.Carries m P) : g.Carries m P :=
  ⟨h.maturity_eq.trans hf.maturity_eq, h.all hf.all⟩

theorem Carries.modifyBlock (h : f.Carries m P) {u : Block → Block}
    (hu : ∀ b, f.block? s = some b → (u b).All P) : (f.modifyBlock s u).Carries m P := by
  refine ⟨?_, fun b hb => ?_⟩
  · unfold Func.modifyBlock
    split <;> exact h.maturity_eq
  · obtain ⟨x, hx⟩ := exists_block?_of_mem hb
    rw [block?_modifyBlock] at hx
    split at hx
    · next hxs =>
      obtain ⟨b₀, hb₀, rfl⟩ := Option.map_eq_some_iff.mp hx
      exact hu b₀ (hxs ▸ hb₀)
    · exact h.all.block? hx

theorem Carries.withBlocks (h : f.Carries m P) {bs : List Block} (hbs : ∀ b ∈ bs, b.All P) :
    (f.withBlocks bs).Carries m P := ⟨h.maturity_eq, hbs⟩

theorem Carries.append (h : f.Carries m P) (hb : b.All P) :
    (f.withBlocks (f.blocks ++ [b])).Carries m P :=
  h.withBlocks fun c hc => (List.mem_append.mp hc).elim (h.all c) fun hc =>
    List.mem_singleton.mp hc ▸ hb

theorem All.carried (h : f.All P) {path : List Int} {is : List Insn}
    (his : f.carried path = .ok is) : ∀ i ∈ is, P i := by
  rw [eq_bodies_of_carried his]
  exact forall_bodies fun _ _ _ hb => (h.block? hb).body

/-! ## Changes -/

/-- A block that is looked up carries the property too. -/
theorem stays_getBlock_bind {α : Type} {k : Block → Edit α} (hf : f.Carries m P)
    (hk : ∀ b, f.getBlock s = .ok b → b.All P → Stays (k b) (Carries m P)) :
    Stays (Edit.ofExcept (f.getBlock s) >>= k) (Carries m P) :=
  stays_ofExcept_bind fun b hb => hk b hb (hf.block hb)

theorem stays_rebuildEdges : Stays rebuildEdges (Carries m P) := fun f hf =>
  yields_iff.mpr fun _ g h => ((sameCode_rebuildEdges f).1 g h).carries hf

theorem stays_redirect (hP : Insn.Portable P) (src old new : Int) :
    Stays (redirect src old new) (Carries m P) := by
  refine stays_get_bind fun f hf => stays_getBlock_bind hf fun b hb hall =>
    stays_ofExcept_bind fun _ _ => ?_
  cases hr : b.redirect? old new with
  | none => exact stays_throw _
  | some b' =>
    exact (stays_set (hf.modifyBlock fun _ _ => hall.redirect? hP hr)).bind
      fun _ => stays_rebuildEdges

theorem stays_appendGoto (hP : Insn.Portable P) (serial target : Int) :
    Stays (appendGoto serial target) (Carries m P) := by
  refine stays_get_bind fun f hf => stays_getBlock_bind hf fun b hb hall =>
    stays_ofExcept_bind fun _ _ => ?_
  cases ht : b.terminator? with
  | some t => exact stays_throw _
  | none =>
    refine (stays_set (hf.modifyBlock fun b hb i hi => ?_)).bind fun _ => stays_rebuildEdges
    rcases List.mem_append.mp hi with hi | hi
    · exact hf.all.block? hb i hi
    · exact List.mem_singleton.mp hi ▸ hP.goto target

theorem stays_duplicate (serial : Int) : Stays (duplicate serial) (Carries m P) := by
  refine stays_get_bind fun f hf => stays_getBlock_bind hf fun b hb hall => ?_
  exact (stays_set (hf.append (b := { b.copy with serial := f.blocks.length })
    (hall.of_insns rfl))).bind fun _ => stays_rebuildEdges.bind fun _ => stays_pure _

theorem stays_appendBlock {is : List Insn} (his : ∀ i ∈ is, P i) :
    Stays (appendBlock is) (Carries m P) := by
  refine fun f hf => yields_iff.mpr fun n g h => ?_
  unfold appendBlock at h
  dsimp only at h
  split at h
  · next u f' hr =>
    obtain ⟨-, rfl⟩ := EStateM.Result.ok.inj h
    refine ((sameCode_rebuildEdges _).1 _ hr).carries (hf.append fun i hi => ?_)
    rw [Block.insns_ofInsns] at hi
    exact his i hi
  · split at h <;> cases h

theorem Carries.swept (h : f.Carries m P) : f.swept.Carries m P := by
  refine ⟨h.maturity_eq, fun b hb => ?_⟩
  obtain ⟨s, hs⟩ := exists_block?_of_mem hb
  obtain ⟨b₀, hb₀, rfl⟩ := exists_of_swept hs
  exact fun i hi => h.all.block? hb₀ i ((sublist_dropDead _ _).subset hi)

theorem all_renumberBlock (hP : Insn.Portable P) (fn : String) (remap : Renumbering)
    (h : b.All P) : (renumberBlock fn remap b).1.All P := by
  unfold renumberBlock
  extract_lets retargeted
  have hmid : retargeted.1.All P := by
    unfold retargeted
    split
    · split
      · split <;> exact h.withTarget hP _
      · exact h
    · exact h
  clear_value retargeted
  obtain ⟨b', _ | e⟩ := retargeted
  · dsimp only
    split <;> exact hmid.of_insns rfl
  · exact hmid

theorem all_renumberBlocks (hP : Insn.Portable P) (fn : String) (remap : Renumbering)
    {bs : List Block} (h : ∀ b ∈ bs, b.All P) : ∀ b ∈ (renumberBlocks fn remap bs).1, b.All P := by
  induction bs with
  | nil => simp [renumberBlocks]
  | cons b bs ih =>
    obtain ⟨hb, hbs⟩ := List.forall_mem_cons.mp h
    have hhead := all_renumberBlock hP fn remap hb
    rw [renumberBlocks]
    split
    · next heq =>
      rw [heq] at hhead
      simpa using hhead
    · next heq =>
      rw [heq] at hhead
      exact List.forall_mem_cons.mpr ⟨hhead, ih hbs⟩

theorem stays_compact (hP : Insn.Portable P) : Stays compact (Carries m P) := by
  refine fun f hf => yields_iff.mpr fun r g h => ?_
  unfold compact at h
  split at h
  · cases h
  dsimp only at h
  split at h
  · cases h
  · next done heq =>
    split at h
    · next u f' hr =>
      obtain ⟨-, rfl⟩ := EStateM.Result.ok.inj h
      refine ((sameCode_rebuildEdges _).1 _ hr).carries (hf.withBlocks ?_)
      obtain rfl := congrArg Prod.fst heq
      exact all_renumberBlocks hP f.name _ fun b hb => hf.all b (List.mem_of_mem_filter hb)
    · cases h

theorem Carries.threadBlocks (hP : Insn.Portable P) {is : List Nat} {n : Nat} (h : f.Carries m P)
    (hrun : threadBlocks is f = .ok (g, n)) : g.Carries m P :=
  threadBlocks_induct (fun hf hb hb' =>
    hf.modifyBlock fun _ _ => (hf.all.block? hb).retargets hP (threadBlock_spec hb').1) hrun h

theorem stays_threadJumps (hP : Insn.Portable P) : Stays threadJumps (Carries m P) := by
  refine fun f hf => yields_iff.mpr fun n g h => ?_
  unfold threadJumps at h
  split at h
  · cases h
  · next f' heq =>
    obtain ⟨-, rfl⟩ := EStateM.Result.ok.inj h
    exact hf.threadBlocks hP heq
  · next f' changes _ heq =>
    split at h
    · next u f'' hr =>
      obtain ⟨-, rfl⟩ := EStateM.Result.ok.inj h
      exact ((sameCode_rebuildEdges _).1 _ hr).carries (hf.threadBlocks hP heq)
    · cases h

theorem stays_bypass (hP : Insn.Portable P) (src entry target : Int) {is : List Insn}
    (his : ∀ i ∈ is, P i) : Stays (bypass src entry target is) (Carries m P) := by
  refine stays_get_bind fun f hf => stays_getBlock_bind hf fun b hb hall => ?_
  have hturn : ∀ target, Stays (do
      let b ← Edit.ofExcept ((← get).getBlock src)
      if b.terminator?.isNone && b.next == entry then appendGoto src target
      else redirect src entry target) (Carries m P) := by
    intro target
    refine stays_get_bind fun f hf => stays_ofExcept_bind fun b _ => ?_
    split
    · exact stays_appendGoto hP src target
    · exact stays_redirect hP src entry target
  split
  · exact (stays_pure target).bind hturn
  · split
    · refine ((stays_set (hf.modifyBlock fun b hb i hi => ?_)).bind
        fun _ => stays_pure target).bind hturn
      rw [Block.insns_insertBeforeEnd, List.mem_append, List.mem_append] at hi
      rcases hi with (hi | hi) | hi
      · exact (hf.all.block? hb).body i hi
      · exact his i hi
      · exact hf.all.block? hb i (by rw [b.insns_eq]; exact List.mem_append_right _ hi)
    · refine (stays_appendBlock fun i hi => ?_).bind hturn
      rcases List.mem_append.mp hi with hi | hi
      · exact his i hi
      · exact List.mem_singleton.mp hi ▸ hP.goto target

/-- The compaction that a stage ends with. -/
theorem stays_compactAt (hP : Insn.Portable P) (stage : Maturity) (record : Stage) : Stays (do
      if Maturity.calls.code ≤ stage.code then
        let before := (← get).blocks.length
        let _ ← compact
        pure { record with dropped := (before : Int) - (← get).blocks.length }
      else pure record : Edit Stage) (Carries m P) := by
  split
  · exact stays_get_bind fun _ _ => (stays_compact hP).bind fun _ =>
      stays_get_bind fun _ _ => stays_pure _
  · exact stays_pure _

/-- From the first global optimization on, what dropping dead stores establishes stays. -/
theorem Carries.cleanUp (hP : Insn.Portable P) {stage : Maturity} {record : Stage}
    (hle : Maturity.glbopt1.code ≤ stage.code)
    (hf : ∀ e n, f.eliminateDeadStores = .ok (e, n) → e.Carries m P)
    (h : Func.cleanUp stage f = .ok record g) : g.Carries m P := by
  have hyields : Yields (Func.cleanUp stage) f fun _ g => g.Carries m P := by
    unfold Func.cleanUp
    dsimp only
    rw [if_pos hle]
    refine concludes_get_bind (concludes_ofExcept_bind (fun _ _ => trivial) fun r hr => ?_)
    exact concludes_set_bind (((stays_threadJumps hP).bind fun _ => stays_compactAt hP stage _) r.1
      (hf r.1 r.2 hr))
  exact hyields.of_eq_ok h

theorem stays_cleanUp (hP : Insn.Portable P) (stage : Maturity) :
    Stays (cleanUp stage) (Carries m P) := by
  by_cases hle : Maturity.glbopt1.code ≤ stage.code
  · exact fun f hf => yields_iff.mpr fun record g h => Carries.cleanUp hP hle
      (fun _ _ he => eliminateDeadStores_induct Carries.swept hf he) h
  · unfold cleanUp
    dsimp only
    rw [if_neg hle]
    exact stays_compactAt hP stage _

/-- The clean-ups leave the stage as it is. -/
theorem maturity_cleanUp {stage : Maturity} {record : Stage}
    (h : cleanUp stage f = .ok record g) : g.maturity = f.maturity :=
  ((stays_cleanUp (m := f.maturity) (P := fun _ => True) ⟨fun _ => trivial, fun _ _ => trivial⟩
    stage).of_eq_ok ⟨rfl, fun _ _ _ _ => trivial⟩ h).maturity_eq

end Func

/-! ## Removals -/

/-- What steps carry along, in the work. -/
def Work.Carries (m : Maturity) (P : Insn → Prop) (w : Work) : Prop := w.func.Carries m P

namespace Removal

variable {m : Maturity} {P : Insn → Prop} {α : Type} {cfg : Config} {canceled : Bool}

theorem stays_edit {e : Edit α} (he : Stays e (Func.Carries m P)) :
    Stays (edit e) (Work.Carries m P) := fun w hw => concludes_edit (he w.func hw)

theorem stays_inPass {x : Removal α} (hx : Stays x (Work.Carries m P)) (pass : Nat) :
    Stays (inPass pass x) (Work.Carries m P) := fun w hw => concludes_inPass (hx w hw)

theorem stays_lookup_bind {β : Type} {r : Except FlowError α} {k : α → Removal β}
    (hk : ∀ a, r = .ok a → Stays (k a) (Work.Carries m P)) :
    Stays (ofExcept r >>= k) (Work.Carries m P) := fun w hw =>
  concludes_lookup_bind (fun _ _ => trivial) fun a ha => hk a ha w hw

/-- Notes leave the function alone. -/
theorem stays_note {g : Work → Work} (hg : ∀ w, (g w).func = w.func) :
    Stays (modify g : Removal Unit) (Work.Carries m P) :=
  stays_modify fun w h => by rwa [Work.Carries, hg w]

theorem stays_tell (e : Event) : Stays (tell e) (Work.Carries m P) := stays_note fun _ => rfl

theorem stays_record (g : Report → Report) : Stays (record g) (Work.Carries m P) :=
  stays_note fun _ => rfl

theorem stays_bypass (hP : Insn.Portable P) (src entry target : Int) (path : List Int) :
    Stays (bypass src entry target path) (Work.Carries m P) :=
  stays_get_bind fun _ hw => stays_lookup_bind fun _ his => (stays_edit
    (Func.stays_bypass hP src entry target (hw.all.carried his))).bind
      fun _ => stays_note fun _ => rfl

theorem keeps_carries (hP : Insn.Portable P) : Keeps cfg (Work.Carries m P) where
  note hw hfunc _ _ _ := by rwa [Work.Carries, hfunc]
  bypass := stays_bypass hP
  copy entry father r hw _ := by
    have hstays : Stays (copyFor entry father r) (Work.Carries m P) :=
      .bind (stays_edit (Func.stays_duplicate father)) fun copy =>
        .bind (stays_note fun _ => rfl) fun _ =>
          .bind (stays_edit (Func.stays_redirect hP r.pred father copy)) fun _ =>
            stays_bypass hP copy entry r.target r.path
    exact hstays _ hw

theorem stays_runPasses (hP : Insn.Portable P) (left pass : Nat) :
    Stays (runPasses cfg canceled left pass) (Work.Carries m P) := by
  have hcollect : Stays (collect cfg) (Work.Carries m P) := by
    refine fun w hw => yields_iff.mpr fun ds w' h => ?_
    unfold collect at h
    dsimp only at h
    split at h
    · cases h
    · obtain ⟨-, rfl⟩ := EStateM.Result.ok.inj h
      exact hw
  have hstop : ∀ reason, Stays (stopFor reason) (Work.Carries m P) := fun reason =>
    stays_get_bind fun _ _ => (stays_record _).bind fun _ => stays_tell _
  induction left generalizing pass with
  | zero => exact stays_pure _
  | succ left ih =>
    rw [runPasses]
    split
    · exact fun _ _ => trivial
    refine .bind (stays_inPass hcollect pass) fun regions => ?_
    split
    · exact stays_pure _
    split
    · exact hstop _
    refine .bind (stays_record _) fun _ => .bind (stays_note fun _ => rfl) fun _ =>
      .bind (stays_inPass ((keeps_carries hP).bypassRegions pass pass regions).stays pass) fun _ =>
        stays_get_bind fun w hw => ?_
    -- whether the function has changed or not, the pass ends in the same way
    have hcompacted : ∀ {y : Removal Unit}, Stays y (Work.Carries m P) →
        Stays (if w.changed = true then (do let _ ← inPass pass (edit Func.compact); y) else y)
          (Work.Carries m P) := by
      intro y hy
      split
      · exact .bind (stays_inPass (stays_edit (Func.stays_compact hP)) pass) fun _ => hy
      · exact hy
    refine hcompacted (stays_get_bind fun w hw => .bind (stays_tell _) fun _ => ?_)
    split
    · exact hstop _
    split
    · exact ih _
    · exact stays_pure _

theorem stays_runAll (hP : Insn.Portable P) : Stays (runAll cfg canceled) (Work.Carries m P) := by
  refine .bind (stays_runPasses hP _ _) fun _ => stays_get_bind fun w _ => ?_
  dsimp only
  split
  · exact stays_tell _
  · exact stays_pure _

end Removal

namespace Func

variable {m : Maturity} {P : Insn → Prop} {f : Func} {cfg : Config} {canceled : Bool}

/-- **A removal that succeeds carries along what its steps do.** -/
theorem Carries.unflatten (hP : Insn.Portable P) (hf : f.Carries m P)
    (h : (f.unflatten cfg canceled).error? = none) :
    (f.unflatten cfg canceled).func.Carries m P := by
  unfold Func.unflatten at h ⊢
  dsimp only at h ⊢
  split at h
  · next hat =>
    rw [if_pos hat]
    split at h
    · next u w hw =>
      have hstays : Stays (Removal.runAll cfg canceled) (Work.Carries m P) := Removal.stays_runAll hP
      refine hstays.of_eq_ok ?_ hw
      exact hf
    · cases h
  · next hat =>
    rw [if_neg hat]
    exact hf

end Func

end Deflatten

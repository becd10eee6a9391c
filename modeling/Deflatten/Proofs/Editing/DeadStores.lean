import Deflatten.Proofs.Editing.Liveness
import Deflatten.Proofs.Execution.Agreement

/-!
# Proofs/Editing/DeadStores — dropping what is never read

Two executions, one of a function and one of the function without its dead stores, agree all along on
the variables that are live, on memory and on the calls made.  An instruction is dropped only if
nothing it does can be told from what is live after it (`perform_dropDead`), and what is live before
the instructions that are left is live into the block (`mem_of_dropDead`).  So dead stores go without
a trace (`preserves_swept`).
-/

namespace Deflatten

/-- An instruction that only computes touches neither memory nor the calls. -/
theorem Machine.keeps_of_isRemovable {m m' : Machine} {i : Insn} (hi : i.op.isRemovable = true)
    (h : m.step i = .next m') : m'.mem = m.mem ∧ m'.calls = m.calls := by
  have hends : i.op.endsBlock = false := by
    revert hi
    cases i.op <;> simp [Opcode.isRemovable, Opcode.endsBlock, Opcode.isJump, Opcode.isConditional]
  rcases m.step_cases hends with ⟨-, h₁⟩ | ⟨-, h₁⟩ | ⟨hop, -⟩ | ⟨hop, -⟩ | ⟨-, h₁⟩ | ⟨-, -, h₁⟩ |
    ⟨-, _, -, h₁⟩
  · obtain rfl := Effect.next.inj (h.symm.trans h₁)
    exact ⟨rfl, rfl⟩
  · cases h.symm.trans h₁
  · rw [hop] at hi
    cases hi
  · rw [hop] at hi
    cases hi
  · obtain rfl := Effect.next.inj (h.symm.trans h₁)
    simp
  · obtain rfl := Effect.next.inj (h.symm.trans h₁)
    exact ⟨rfl, rfl⟩
  · obtain rfl := Effect.next.inj (h.symm.trans h₁)
    exact ⟨rfl, rfl⟩

namespace Func

/-! ## The instructions that are left -/

variable {out : List Var} {is js : List Insn} {i t : Insn} {v : Var} {m m' m₁ : Machine}

theorem isDeadStore_iff {live : List Var} : isDeadStore live i = true ↔
    i.op.isRemovable = true ∧ ∃ d, i.def? = some d ∧ d.isGlobal = false ∧ d ∉ live := by
  unfold isDeadStore
  cases i.def? <;> simp

theorem mem_liveBefore {live : List Var} :
    v ∈ liveBefore live i ↔ (v ∈ live ∧ i.def? ≠ some v) ∨ v ∈ i.reads := by
  simp [liveBefore, Insn.defs, Insn.uses]

theorem dropDead_append (out : List Var) (is js : List Insn) :
    dropDead out (is ++ js) =
      ((dropDead (dropDead out js).2 is).1 ++ (dropDead out js).1,
        (dropDead (dropDead out js).2 is).2) := by
  induction is with
  | nil => rfl
  | cons i is ih =>
    rw [List.cons_append, dropDead, ih, dropDead]
    dsimp only
    split <;> rfl

theorem sublist_dropDead (out : List Var) (is : List Insn) : (dropDead out is).1.Sublist is := by
  induction is with
  | nil => exact .slnil
  | cons i is ih =>
    rw [dropDead]
    dsimp only
    split
    · exact ih.cons i
    · exact ih.cons_cons i

/-- A terminator stays. -/
theorem dropDead_terminator (h : t.op.endsBlock = true) (out : List Var) :
    dropDead out [t] = ([t], liveBefore out t) := by
  have hdead : isDeadStore out t = false := by
    have : t.op.isRemovable = false := by
      revert h
      cases t.op <;> simp [Opcode.isRemovable, Opcode.endsBlock, Opcode.isJump,
        Opcode.isConditional]
    simp [isDeadStore, this]
  simp [dropDead, hdead]

/-- **What is live before the instructions that are left is read by the instructions before they
write it, or is live after them and not written.** -/
theorem mem_of_dropDead (defined : List Var) (hv : v ∈ (dropDead out is).2) (hd : v ∉ defined) :
    v ∈ Block.freeReads defined is ∨ (v ∈ out ∧ v ∉ is.flatMap Insn.defs) := by
  induction is generalizing defined with
  | nil => exact .inr ⟨hv, by simp⟩
  | cons i is ih =>
    -- either the instruction reads it, or it is live after the instruction and not written there
    have hcase : v ∈ i.reads ∨ (v ∈ (dropDead out is).2 ∧ i.def? ≠ some v) := by
      rw [dropDead] at hv
      dsimp only at hv
      split at hv
      · next hdead =>
        obtain ⟨-, d, hdef, -, hlive⟩ := isDeadStore_iff.mp hdead
        refine .inr ⟨hv, fun h => hlive ?_⟩
        obtain rfl := Option.mem_unique hdef h
        exact hv
      · exact (mem_liveBefore.mp hv).symm
    rw [Block.freeReads]
    rcases hcase with hr | ⟨hlive, hdef⟩
    · refine .inl (List.mem_append_left _ (List.mem_filter.mpr ⟨?_, by simpa using hd⟩))
      simpa [Insn.uses] using hr
    · have hdefs : v ∉ i.defs := by simpa [Insn.defs] using hdef
      rcases ih (defined ++ i.defs) hlive (by simp [hd, hdefs]) with h | ⟨h, hno⟩
      · exact .inl (List.mem_append_right _ h)
      · exact .inr ⟨h, by simpa [hdefs] using hno⟩

/-- **The instructions that are left do what all did**, as far as live variables, memory and calls
can tell. -/
theorem perform_dropDead (hp : Plain is) (ha : Machine.Agree (· ∈ (dropDead out is).2) m m')
    (hm : m.perform is = .done m₁) :
    ∃ m₁', m'.perform (dropDead out is).1 = .done m₁' ∧ Machine.Agree (· ∈ out) m₁ m₁' := by
  induction is generalizing m m' with
  | nil =>
    obtain rfl := Performed.done.inj hm
    exact ⟨m', rfl, ha⟩
  | cons i is ih =>
    obtain ⟨m₂, hstep, hm⟩ := Machine.perform_cons_eq_done.mp hm
    have hi := hp i (by simp)
    have hp : Plain is := fun j hj => hp j (by simp [hj])
    rw [dropDead] at ha ⊢
    dsimp only at ha ⊢
    split at ha
    · next hdead =>
      obtain ⟨hrem, d, hdef, -, hlive⟩ := isDeadStore_iff.mp hdead
      obtain ⟨hmem, hcalls⟩ := Machine.keeps_of_isRemovable hrem hstep
      rw [if_pos hdead]
      refine ih hp ⟨fun v hv => ?_, ha.mem_eq.trans hmem.symm, ha.calls_eq.trans hcalls.symm⟩ hm
      have hne : i.def? ≠ some v := by
        rw [hdef]
        rintro h
        obtain rfl := Option.some.inj h
        exact hlive hv
      rw [ha.read_eq v hv, Machine.read_of_step hi hstep hne]
    · next hdead =>
      rw [if_neg hdead]
      rcases ha.step hi fun v hv => mem_liveBefore.mpr (.inr hv) with ⟨h, -⟩ | ⟨m₃, m₃', h, h', ha'⟩
      · cases hstep.symm.trans h
      · obtain rfl := Effect.next.inj (hstep.symm.trans h)
        have hlive : Machine.Agree (· ∈ (dropDead out is).2) m₂ m₃' := ha'.mono fun v hv => by
          by_cases hd : i.def? = some v
          · exact .inr hd
          · exact .inl (mem_liveBefore.mpr (.inl ⟨hv, hd⟩))
        obtain ⟨m₁', hm', hout⟩ := ih hp hlive hm
        exact ⟨m₁', Machine.perform_cons_eq_done.mpr ⟨m₃', h', hm'⟩, hout⟩

end Func

/-! ## Blocks -/

namespace Block

open Func

/-- The block without its dead stores, some variables being live out of it. -/
def withoutDead (out : List Var) (b : Block) : Block := b.withInsns (dropDead out b.insns).1

/-- What is live before the terminator. -/
def liveAtEnd (out : List Var) (b : Block) : List Var := b.terminator?.elim out (liveBefore out)

variable {b : Block} {out : List Var} {m m' m₁ : Machine} {n c : Nat} {s : Int} {v : UInt64}

/-- The terminator stays, and the body loses its dead stores. -/
theorem insns_withoutDead (out : List Var) (b : Block) :
    (b.withoutDead out).insns = (dropDead (b.liveAtEnd out) b.body).1 ++ b.terminator?.toList ∧
      (dropDead out b.insns).2 = (dropDead (b.liveAtEnd out) b.body).2 := by
  rw [withoutDead, insns_withInsns, b.insns_eq, dropDead_append, liveAtEnd]
  cases ht : b.terminator? with
  | none => exact ⟨rfl, rfl⟩
  | some t =>
    rw [Option.toList_some, dropDead_terminator (endsBlock_of_terminator? ht)]
    exact ⟨rfl, rfl⟩

theorem terminator?_withoutDead (hp : Plain b.body) (out : List Var) :
    (b.withoutDead out).terminator? = b.terminator? ∧
      (b.withoutDead out).body = (dropDead (b.liveAtEnd out) b.body).1 := by
  have hkept : Plain (dropDead (b.liveAtEnd out) b.body).1 := fun i hi =>
    hp i ((sublist_dropDead _ _).subset hi)
  have hi := (insns_withoutDead out b).1
  cases ht : b.terminator? with
  | none =>
    rw [ht, Option.toList_none, List.append_nil] at hi
    exact ⟨terminator?_of_plain (hi ▸ hkept), (body_of_plain (hi ▸ hkept)).trans hi⟩
  | some t =>
    rw [ht] at hi
    have hends := endsBlock_of_terminator? ht
    exact ⟨terminator?_of_append hi hends, body_of_append hi hends⟩

theorem exits_withoutDead (hp : Plain b.body) (out : List Var) :
    (b.withoutDead out).exits = b.exits := by
  unfold exits
  rw [(terminator?_withoutDead hp out).1]
  rfl

theorem fits_withoutDead (h : b.Fits n) (out : List Var) : (b.withoutDead out).Fits n := by
  obtain ⟨hterm, hbody⟩ := terminator?_withoutDead h.plain out
  refine ⟨fun i hi => ?_, fun t ht => h.aims t (hterm ▸ ht), fun t ht => h.falls t (hterm ▸ ht), ?_⟩
  · rw [hbody] at hi
    exact h.plain i ((sublist_dropDead _ _).subset hi)
  · rw [exits_withoutDead h.plain]
    exact h.inside

theorem perform_withoutDead (hp : Plain b.body)
    (ha : Machine.Agree (· ∈ (dropDead out b.insns).2) m m') (hm : m.perform b.body = .done m₁) :
    ∃ m₁', m'.perform (b.withoutDead out).body = .done m₁' ∧
      (b.withoutDead out).leave m₁' = b.leave m₁ ∧ Machine.Agree (· ∈ out) m₁ m₁' := by
  obtain ⟨hterm, hbody⟩ := terminator?_withoutDead hp out
  rw [(insns_withoutDead out b).2] at ha
  obtain ⟨m₁', hm', hend⟩ := perform_dropDead hp ha hm
  refine ⟨m₁', hbody ▸ hm', hend.leave_eq hterm rfl fun t ht v hv => ?_, hend.mono fun v hv => ?_⟩
  · rw [liveAtEnd, ht, Option.elim_some, mem_liveBefore]
    exact .inr hv
  · unfold liveAtEnd
    cases ht : b.terminator? with
    | none => exact hv
    | some t =>
      -- a terminator writes nothing
      refine mem_liveBefore.mpr (.inl ⟨hv, fun hd => ?_⟩)
      have hends := endsBlock_of_terminator? ht
      unfold Insn.def? at hd
      split at hd
      · next hdef =>
        revert hends hdef
        cases t.op <;> simp [Opcode.endsBlock, Opcode.isJump, Opcode.isConditional,
          Opcode.definesDest]
      · cases hd

/-- **The block without dead stores goes where the block goes.** -/
theorem visit_withoutDead (hp : Plain b.body)
    (ha : Machine.Agree (· ∈ (dropDead out b.insns).2) m m') (hv : b.visit m = .goes m₁ c s) :
    ∃ m₁' c', (b.withoutDead out).visit m' = .goes m₁' c' s ∧ c' ≤ c ∧
      Machine.Agree (· ∈ out) m₁ m₁' := by
  obtain ⟨hm, hl, hs, rfl⟩ := visit_eq_goes.mp hv
  obtain ⟨m₁', hm', hl', hout⟩ := perform_withoutDead hp ha hm
  exact ⟨m₁', _, visit_eq_goes.mpr ⟨hm', hl'.trans hl, hs, rfl⟩, (sublist_dropDead _ _).length_le,
    hout⟩

/-- **The block without dead stores returns what the block returns.** -/
theorem returns_withoutDead (hp : Plain b.body)
    (ha : Machine.Agree (· ∈ (dropDead out b.insns).2) m m')
    (hv : b.visit m = .stops m₁ c (.returned v)) :
    ∃ m₁' c', (b.withoutDead out).visit m' = .stops m₁' c' (.returned v) ∧ c' ≤ c ∧
      m₁'.calls = m₁.calls := by
  obtain ⟨hm, hl, rfl⟩ := visit_eq_returned.mp hv
  obtain ⟨m₁', hm', hl', hout⟩ := perform_withoutDead hp ha hm
  exact ⟨m₁', _, visit_eq_returned.mpr ⟨hm', hl'.trans hl, rfl⟩, (sublist_dropDead _ _).length_le,
    hout.calls_eq⟩

end Block

/-! ## Functions -/

namespace Func

variable {f : Func} {b b' : Block} {s : Int}

/-- The function without the dead stores that its live sets show. -/
def swept (f : Func) : Func := f.dropDeadBy f.liveSets

theorem block?_swept (f : Func) (s : Int) :
    f.swept.block? s = (f.block? s).map fun b => b.withoutDead (f.liveOut s) :=
  block?_mapBlocks ..

theorem exists_of_swept (hb' : f.swept.block? s = some b') :
    ∃ b, f.block? s = some b ∧ b.withoutDead (f.liveOut s) = b' := by
  simpa [block?_swept] using hb'

theorem edge_swept (hf : f.Shaped) {p : Int} :
    f.swept.Edge p s ↔ f.Edge p s := by
  constructor
  · rintro ⟨b', hb', hs⟩
    obtain ⟨b, hb, rfl⟩ := exists_of_swept hb'
    exact ⟨b, hb, Block.exits_withoutDead (hf.fits hb).plain _ ▸ hs⟩
  · rintro ⟨b, hb, hs⟩
    exact ⟨_, by rw [block?_swept, hb]; rfl,
      (Block.exits_withoutDead (hf.fits hb).plain _).symm ▸ hs⟩

theorem Verified.swept (hf : f.Verified) : f.swept.Verified := by
  refine ⟨⟨fun hb' => ?_, fun hb' => ?_⟩, fun hb' => ?_, fun hb' p => ?_⟩
  · obtain ⟨b, hb, rfl⟩ := exists_of_swept hb'
    change b.serial = _
    exact hf.placed hb
  · obtain ⟨b, hb, rfl⟩ := exists_of_swept hb'
    rw [Func.swept, Func.dropDeadBy, length_blocks_mapBlocks]
    exact Block.fits_withoutDead (hf.fits hb) _
  · obtain ⟨b, hb, rfl⟩ := exists_of_swept hb'
    rw [Block.exits_withoutDead (hf.fits hb).plain]
    exact hf.succs_eq hb
  · obtain ⟨b, hb, rfl⟩ := exists_of_swept hb'
    rw [edge_swept hf.toShaped]
    exact hf.mem_preds hb p

theorem WellFormed.swept (hf : f.WellFormed) : f.swept.WellFormed := by
  refine ⟨hf.toVerified.swept, fun hb' => ?_⟩
  obtain ⟨b, hb, rfl⟩ := exists_of_swept hb'
  change b.preds.Pairwise _
  exact hf.ascending hb

/-- What is live before the instructions that are left is live into the block. -/
theorem mem_liveIn_of_dropDead {v : Var} (hb : f.block? s = some b)
    (hv : v ∈ (dropDead (f.liveOut s) b.insns).2) : v ∈ f.liveIn s := by
  refine mem_liveIn hb ?_
  rcases mem_of_dropDead [] hv (by simp) with h | ⟨h, hd⟩
  · exact .inl (mem_distinct.mpr h)
  · exact .inr ⟨h, by simpa [Block.defs] using hd⟩

/-- **Dead stores go without a trace.** -/
theorem refines_swept (hf : f.Verified) : f.Refines f.swept := by
  rintro m n v cs ⟨k, n', hn', hh⟩
  -- both stand at one place, and agree on what is live there
  refine EndsWithin.mono (HaltsIn.simulate (R := fun m s m' s' => s = s' ∧
    Machine.Agree (· ∈ f.liveIn s) m m') ?_ ⟨rfl, .refl _ m⟩ hh) hn'
  rintro m s m' _ k n cs ⟨rfl, ha⟩ hh
  obtain ⟨b, hb⟩ := hh.exists_block
  have hp := (hf.fits hb).plain
  have hb' : f.swept.block? s = some (b.withoutDead (f.liveOut s)) := by
    rw [block?_swept, hb]
    rfl
  have ha := ha.mono fun v hv => mem_liveIn_of_dropDead hb hv
  cases hv : b.visit m with
  | stops m₁ c o =>
    obtain ⟨rfl, rfl, rfl, rfl⟩ := hh.of_stops hb hv
    obtain ⟨m₁', c', hv', hc, hcalls⟩ := Block.returns_withoutDead hp ha hv
    exact .inl (hcalls ▸ (HaltsIn.stops hb' hv').endsWithin.mono hc)
  | goes m₁ c t =>
    obtain ⟨k₁, n₁, rfl, rfl, hh₁⟩ := hh.of_goes hb hv
    obtain ⟨m₁', c', hv', hc, hout⟩ := Block.visit_withoutDead hp ha hv
    refine .inr ⟨k₁, n₁, m₁, t, 1, c', m₁', t, by omega, hh₁, .single hb' hv', by omega, rfl, ?_⟩
    exact hout.mono fun v hv' => mem_liveOut hf hb (Block.mem_exits_of_visit hv) hv'

theorem preserves_swept (hf : f.WellFormed) (h₀ : f.EnteredOnce) :
    f.Preserves f.swept :=
  ⟨hf.swept, fun p hp => h₀ p ((edge_swept hf.toShaped).mp hp),
    refines_swept hf.toVerified⟩

/-! ## The rounds -/

variable {g : Func} {n : Nat}

theorem eq_swept_of_dropDeadStores (h : f.dropDeadStores = .ok g) : g = f.swept := by
  unfold dropDeadStores liveness at h
  cases hc : f.checkSuccs with
  | error e => simp [hc, Except.map] at h
  | ok _ => simpa [swept, hc, Except.map, eq_comm] using h

theorem Verified.dropDeadStores_eq (hf : f.Verified) : f.dropDeadStores = .ok f.swept := by
  rw [dropDeadStores, hf.liveness_eq]
  rfl

theorem eliminateDeadStores_eq_ok_iff : f.eliminateDeadStores = .ok (g, n) ↔
    eliminateRounds (f.numInsns + 1) f = .ok g ∧ n = f.numInsns - g.numInsns := by
  unfold eliminateDeadStores
  cases eliminateRounds (f.numInsns + 1) f with
  | error e => simp [Except.map]
  | ok h =>
    simp only [Except.map, Except.ok.injEq, Prod.mk.injEq]
    constructor
    · rintro ⟨rfl, rfl⟩
      exact ⟨rfl, rfl⟩
    · rintro ⟨rfl, rfl⟩
      exact ⟨rfl, rfl⟩

/-- A round goes on from the function without dead stores, or ends there. -/
theorem eliminateRounds_succ (rounds : Nat) (h : f.dropDeadStores = .ok g) :
    eliminateRounds (rounds + 1) f =
      if g.numInsns < f.numInsns then eliminateRounds rounds g else .ok g := by
  rw [eliminateRounds, h]
  rfl

/-- A round that is made ends there, or goes on from the function without dead stores. -/
theorem eliminateRounds_succ_cases {rounds : Nat} (h : eliminateRounds (rounds + 1) f = .ok g) :
    g = f.swept ∨ eliminateRounds rounds f.swept = .ok g := by
  cases hd : f.dropDeadStores with
  | error e => simp [eliminateRounds, hd, bind, Except.bind] at h
  | ok f' =>
    obtain rfl := eq_swept_of_dropDeadStores hd
    rw [eliminateRounds_succ rounds hd] at h
    split at h
    · exact .inr h
    · exact .inl (Except.ok.inj h).symm

/-- Dead stores are dropped once at least, so what holds after that and is kept holds in the end. -/
theorem eliminateDeadStores_induct_of_swept {I : Func → Prop} (hI : ∀ {f}, I f → I f.swept)
    (hf : I f.swept) (h : f.eliminateDeadStores = .ok (g, n)) : I g := by
  have hrounds : ∀ rounds {f}, I f.swept → eliminateRounds (rounds + 1) f = .ok g → I g := by
    intro rounds
    induction rounds with
    | zero =>
      intro f hf h
      rcases eliminateRounds_succ_cases h with rfl | h
      · exact hf
      · exact Except.ok.inj h ▸ hf
    | succ rounds ih =>
      intro f hf h
      rcases eliminateRounds_succ_cases h with rfl | h
      · exact hf
      · exact ih (hI hf) h
  exact hrounds _ hf (eliminateDeadStores_eq_ok_iff.mp h).1

/-- **What dropping dead stores keeps, dropping them until none is left keeps.** -/
theorem eliminateDeadStores_induct {I : Func → Prop} (hI : ∀ {f}, I f → I f.swept) (hf : I f)
    (h : f.eliminateDeadStores = .ok (g, n)) : I g :=
  eliminateDeadStores_induct_of_swept hI (hI hf) h

/-- **No look-up fails**: the successors of a verified function are blocks, and stay so. -/
theorem Verified.exists_eliminateDeadStores (hf : f.Verified) :
    ∃ g n, f.eliminateDeadStores = .ok (g, n) := by
  have hrounds : ∀ rounds {f : Func}, f.Verified → ∃ g, eliminateRounds rounds f = .ok g := by
    intro rounds
    induction rounds with
    | zero => exact fun {f} _ => ⟨f, rfl⟩
    | succ rounds ih =>
      intro f hf
      rw [eliminateRounds_succ rounds hf.dropDeadStores_eq]
      split
      · exact ih hf.swept
      · exact ⟨f.swept, rfl⟩
  obtain ⟨g, hg⟩ := hrounds (f.numInsns + 1) hf
  exact ⟨g, _, eliminateDeadStores_eq_ok_iff.mpr ⟨hg, rfl⟩⟩

end Func

end Deflatten

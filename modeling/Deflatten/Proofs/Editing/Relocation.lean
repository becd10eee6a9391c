import Mathlib.Data.Option.Defs
import Deflatten.Proofs.Editing.Retarget
import Deflatten.Proofs.Execution.Lockstep

/-!
# Proofs/Editing/Relocation — runs of blocks that stand elsewhere

`Func.Relocates φ P f g` says that the blocks of `f` at the serials in `P` stand in `g`, the one at
`s` at `φ s` and with its exits sent through `φ`.  Executions that stay in `P` do not notice, and
neither do runs: under every limit they observe the same and end for the same reason
(`Relocates.moved_runFrom`).

Instructions do not look at serials, so an instruction with its target sent through `φ` has its
effect sent through `φ` (`Machine.step_retarget`), and so has a passage.
-/

namespace Deflatten

/-! ## Passages that lead elsewhere -/

/-- An effect with its target sent through `φ`. -/
def Effect.mapTarget (φ : Int → Int) : Effect → Effect
  | jump s => jump (φ s)
  | e => e

/-- A passage with its end sent through `φ`. -/
def Passage.mapTarget (φ : Int → Int) : Passage → Passage
  | through m left next => through m left (φ next)
  | p => p

theorem Insn.retarget_of_plain {φ : Int → Int} {i : Insn} (h : i.op.endsBlock = false) :
    i.retarget φ = i := by
  have hjump : i.op.isJump = false := by
    rw [Opcode.endsBlock, Bool.or_eq_false_iff] at h
    exact h.2
  simp [retarget, hjump]

namespace Machine

/-- **An instruction that is aimed elsewhere does the same and goes there.** -/
theorem step_retarget (m : Machine) (φ : Int → Int) (i : Insn) :
    m.step (i.retarget φ) = (m.step i).mapTarget φ := by
  cases he : i.op.endsBlock with
  | false =>
    rw [Insn.retarget_of_plain he]
    rcases m.step_of_plain he with ⟨m', h⟩ | h <;> rw [h] <;> rfl
  | true =>
    rcases i.op.cases_of_endsBlock he with hr | hg | hc
    · rw [Insn.retarget_of_ret hr, m.step_ret hr]
      rfl
    · rw [m.step_goto hg, m.step_goto (by simpa using hg),
        Insn.retarget_of_isJump (by rw [hg]; rfl), Insn.block_withTarget]
      rfl
    · obtain ⟨taken, htest⟩ := i.op.test?_of_isConditional hc (m.value i.l) (m.value i.r)
        (max i.l.size i.r.size)
      have htest' : (i.retarget φ).op.test? (m.value (i.retarget φ).l) (m.value (i.retarget φ).r)
          (max (i.retarget φ).l.size (i.retarget φ).r.size) = some taken := by simpa using htest
      rw [m.step_conditional htest, m.step_conditional htest', Insn.retarget_of_isJump
        (Opcode.isJump_of_isConditional hc), Insn.block_withTarget]
      cases taken <;> rfl

theorem pass_map_retarget (m : Machine) (φ : Int → Int) (left : Nat) (next : Int)
    (is : List Insn) :
    m.pass left (φ next) (is.map (Insn.retarget φ)) = (m.pass left next is).mapTarget φ := by
  induction is generalizing m left next with
  | nil => simp [pass, Passage.mapTarget]
  | cons i is ih =>
    cases left with
    | zero => rfl
    | succ left =>
      simp only [List.map_cons, pass, step_retarget]
      cases m.step i with
      | next m' => exact ih m' left next
      | jump t => exact ih m left t
      | finish v => rfl
      | undefined => rfl

/-- Where control would fall through does not matter in front of a jump or a return. -/
theorem pass_append_of_leaves (m : Machine) (left : Nat) (next next' : Int) (is : List Insn)
    {t : Insn} (ht : t.op = .goto ∨ t.op = .ret) :
    m.pass left next (is ++ [t]) = m.pass left next' (is ++ [t]) := by
  induction is generalizing m left next next' with
  | nil =>
    cases left with
    | zero => rfl
    | succ left =>
      rcases ht with ht | ht
      · simp [pass, m.step_goto ht]
      · simp [pass, m.step_ret ht]
  | cons i is ih =>
    cases left with
    | zero => rfl
    | succ left =>
      simp only [List.cons_append, pass]
      cases m.step i with
      | next m' => exact ih m' left next next'
      | jump t => rfl
      | finish v => rfl
      | undefined => rfl

end Machine

namespace Block.Retargets

variable {φ : Int → Int} {b b' : Block}

/-- **Only jumps are changed**, and each of them is sent through `φ`. -/
theorem insns_eq_map (h : Retargets φ b b') (hp : Plain b.body) :
    b'.insns = b.insns.map (Insn.retarget φ) := by
  have hbody : b.body.map (Insn.retarget φ) = b.body :=
    (List.map_congr_left fun i hi => Insn.retarget_of_plain (hp i hi)).trans (List.map_id' _)
  rw [b'.insns_eq, b.insns_eq, h.body_eq, h.terminator_eq, List.map_append, hbody]
  cases b.terminator? <;> rfl

theorem insns_eq_nil_iff (h : Retargets φ b b') : b'.insns = [] ↔ b.insns = [] := by
  rw [← List.length_eq_zero_iff, h.length_insns, List.length_eq_zero_iff]

/-- An empty block leads on to where `φ` sends its fall-through. -/
theorem next_of_empty (h : Retargets φ b b') (he : b.insns = []) : b'.next = φ b.next :=
  h.next_eq (falls_of_none (by simp [terminator?, tail?, he]))

/-- **A passage through the changed block is the passage through the other**, with its end sent
through `φ`. -/
theorem pass_eq (h : Retargets φ b b') (hp : Plain b.body) (m : Machine) (left : Nat) :
    m.pass left b'.next b'.insns = (m.pass left b.next b.insns).mapTarget φ := by
  rw [← m.pass_map_retarget, ← h.insns_eq_map hp]
  cases hfalls : b.falls with
  | true => rw [h.next_eq hfalls]
  | false =>
    cases ht : b.terminator? with
    | none => simp [falls, ht] at hfalls
    | some t =>
      have hc : t.op.isConditional = false := by simpa [falls, ht] using hfalls
      have hleaves : t.op = .goto ∨ t.op = .ret := by
        rcases t.op.cases_of_endsBlock (endsBlock_of_terminator? ht) with hr | hg | hc'
        · exact .inr hr
        · exact .inl hg
        · cases hc.symm.trans hc'
      have ht' : b'.terminator? = some (t.retarget φ) := by rw [h.terminator_eq, ht]; rfl
      rw [insns_eq_append ht']
      exact m.pass_append_of_leaves _ _ _ _ (by simpa using hleaves)

end Block.Retargets

/-- **Control that gets through a block** visits it and goes on, or falls off. -/
theorem Machine.visit_of_pass {m m' : Machine} {b : Block} {left left' : Nat} {next : Int}
    (hp : Plain b.body) (h : m.pass left b.next b.insns = .through m' left' next) :
    next = noBlock ∨ ∃ c, c ≤ left ∧ left' = left - c ∧ b.visit m = .goes m' c next := by
  by_cases hl : (b.visit m).steps ≤ left
  · rw [pass_eq_within hp hl] at h
    cases hv : b.visit m with
    | goes m₁ c s =>
      rw [hv] at h hl
      obtain ⟨rfl, rfl, rfl⟩ := Passage.through.inj h
      exact .inr ⟨c, hl, rfl, rfl⟩
    | stops m₁ c o =>
      rw [hv] at h
      cases o with
      | returned v => cases h
      | undefined => cases h
      | fellOff =>
        obtain ⟨-, -, rfl⟩ := Passage.through.inj h
        exact .inl rfl
  · obtain ⟨m₁, hx⟩ := pass_exhausted hp (Nat.lt_of_not_le hl)
    cases hx.symm.trans h

/-! ## Endings at other blocks -/

/-- **Errors of one kind, at blocks that `ρ` relates.**  A run that circles through empty blocks is
given up after as many of them as the function has blocks, so there no block is related to another.
-/
inductive RunError.Moved (ρ : Int → Int → Prop) : RunError → RunError → Prop
  | fallsOff {fn : String} {blk blk' : Int} (h : ρ blk blk') :
    Moved ρ (.flow (.fallsOff fn blk)) (.flow (.fallsOff fn blk'))
  | stepLimit {limit : Int} {fn : String} {blk blk' : Int} (h : ρ blk blk') :
    Moved ρ (.stepLimit limit fn blk) (.stepLimit limit fn blk')
  | undefined {fn : String} {blk blk' : Int} (h : ρ blk blk') :
    Moved ρ (.undefined fn blk) (.undefined fn blk')
  | spins {fn : String} {blk blk' : Int} : Moved ρ (.spins fn blk) (.spins fn blk')

/-- **Endings at which the same was observed**, for the same reason. -/
structure Ending.Moved (ρ : Int → Int → Prop) (e e' : Ending) : Prop where
  /-- The same value, calls and steps. -/
  trace_eq : e'.trace = e.trace
  /-- No error, or errors of one kind. -/
  error : Option.Rel (RunError.Moved ρ) e.error? e'.error?

theorem RunError.Moved.trans {ρ : Int → Int → Prop} (hρ : ∀ x y z, ρ x y → ρ y z → ρ x z)
    {e e' e'' : RunError} (h : e.Moved ρ e') (h' : e'.Moved ρ e'') : e.Moved ρ e'' := by
  cases h with
  | fallsOff h =>
    cases h' with
    | fallsOff h' => exact .fallsOff (hρ _ _ _ h h')
  | stepLimit h =>
    cases h' with
    | stepLimit h' => exact .stepLimit (hρ _ _ _ h h')
  | undefined h =>
    cases h' with
    | undefined h' => exact .undefined (hρ _ _ _ h h')
  | spins =>
    cases h' with
    | spins => exact .spins

theorem Ending.Moved.trans {ρ : Int → Int → Prop} (hρ : ∀ x y z, ρ x y → ρ y z → ρ x z)
    {e e' e'' : Ending} (h : e.Moved ρ e') (h' : e'.Moved ρ e'') : e.Moved ρ e'' := by
  refine ⟨h'.trace_eq.trans h.trace_eq, ?_⟩
  have herror := h.error
  have herror' := h'.error
  generalize e.error? = x at *
  generalize e'.error? = y at *
  generalize e''.error? = z at *
  cases herror with
  | none => exact herror'
  | some hx =>
    cases herror' with
    | some hy => exact .some (hx.trans hρ hy)

/-! ## Relocation -/

namespace Func

/-- **The blocks of `f` at the serials in `P` stand in `g`**, each at its image and with its exits
sent along. -/
structure Relocates (φ : Int → Int) (P : Int → Prop) (f g : Func) : Prop where
  name_eq : g.name = f.name
  /-- No block stays no block. -/
  noBlock_eq : φ noBlock = noBlock
  /-- Edges do not lead out of `P`. -/
  closed : ∀ {s t}, P s → f.Edge s t → P t
  /-- Each block has its image. -/
  exists_block : ∀ {s}, P s → ∃ b b', f.block? s = some b ∧ g.block? (φ s) = some b' ∧
    b.Retargets φ b'

namespace Relocates

variable {φ : Int → Int} {P : Int → Prop} {f g : Func} {s t : Int} {k : Nat} {b b' : Block}

theorem retargets (h : Relocates φ P f g) (hs : P s) (hb : f.block? s = some b)
    (hb' : g.block? (φ s) = some b') : b.Retargets φ b' := by
  obtain ⟨b₁, b₁', hb₁, hb₁', hr⟩ := h.exists_block hs
  obtain rfl := Option.mem_unique hb₁ hb
  obtain rfl := Option.mem_unique hb₁' hb'
  exact hr

theorem ne_noBlock (h : Relocates φ P f g) (hs : P s) : φ s ≠ noBlock := by
  obtain ⟨-, b', -, hb', -⟩ := h.exists_block hs
  exact Deflatten.ne_noBlock (lt_of_block? hb').1

theorem slides (h : Relocates φ P f g) (hs : P s) (hsl : f.Slides t k s) :
    P t ∧ g.Slides (φ t) k (φ s) := by
  induction hsl with
  | here => exact ⟨hs, .here⟩
  | @goes s k b hb he hn _ ih =>
    have hnext : P b.next := h.closed hs (.of_visit hb (visit_of_empty he hn default))
    obtain ⟨ht, hsl'⟩ := ih hnext
    obtain ⟨b₁, b', hb₁, hb', hr⟩ := h.exists_block hs
    obtain rfl := Option.mem_unique hb₁ hb
    have hnext' := hr.next_of_empty he
    refine ⟨ht, .goes hb' (hr.insns_eq_nil_iff.mpr he) ?_ (hnext' ▸ hsl')⟩
    rw [hnext']
    exact h.ne_noBlock hnext

theorem drifts (h : Relocates φ P f g) (hs : P s) (hd : f.Drifts s) : g.Drifts (φ s) := by
  obtain ⟨r, i, hsl, j, hc⟩ := hd
  obtain ⟨hr, hsl'⟩ := h.slides hs hsl
  exact ⟨φ r, i, hsl', j, (h.slides hr hc).2⟩

theorem rests (h : Relocates φ P f g) (ht : P t) (hr : f.Rests t) : g.Rests (φ t) := by
  intro b' hb' he'
  obtain ⟨b, -, hb, -⟩ := h.exists_block ht
  have hret := h.retargets ht hb hb'
  have he := hret.insns_eq_nil_iff.mp he'
  rw [hret.next_of_empty he, hr b hb he, h.noBlock_eq]

/-- A run that comes to no instruction is given up where its image is. -/
theorem moved_of_skipEmpty (h : Relocates φ P f g) (hf : f.Shaped) {ρ : Int → Int → Prop}
    (hρ : ∀ {s}, P s → ρ s (φ s)) (limit : Int) (left : Nat) (m : Machine) (hs : P s)
    (hb : f.block? s = some b) (hb' : g.block? (φ s) = some b') {e : RunError}
    (hskip : f.skipEmpty f.blocks.length s b = .error e) :
    (f.runFrom limit left m s b).Moved ρ (g.runFrom limit left m (φ s) b') := by
  obtain ⟨e, t, k, bt, rfl, hsl, hbt, he, hfol⟩ | ⟨-, t, rfl, hsl⟩ := skipEmpty_eq_error hb hskip
  · have hn := hf.eq_noBlock_of_follow hbt he hfol
    have ht : f.Rests t := fun b₁ hb₁ _ => Option.mem_unique hbt hb₁ ▸ hn
    obtain ⟨hPt, hsl'⟩ := h.slides hs hsl
    obtain ⟨-, bt', -, hbt', -⟩ := h.exists_block hPt
    have he' := (h.retargets hPt hbt hbt').insns_eq_nil_iff.mpr he
    rw [runFrom_of_fallsOff hsl ht hb hbt he,
      runFrom_of_fallsOff hsl' (h.rests hPt ht) hb' hbt' he', h.name_eq]
    exact ⟨rfl, .some (.fallsOff (hρ hPt))⟩
  · obtain ⟨r, i, hr, hc⟩ := hsl.exists_circles (Nat.lt_succ_self _)
    have hd : f.Drifts s := ⟨r, i, hr, hc⟩
    obtain ⟨blk, hrun⟩ := hd.runFrom hb limit left m
    obtain ⟨blk', hrun'⟩ := (h.drifts hs hd).runFrom hb' limit left m
    rw [hrun, hrun', h.name_eq]
    exact ⟨rfl, .some .spins⟩

/-- What comes of passing a block, if shorter runs do not notice where the blocks stand. -/
theorem moved_conclude (h : Relocates φ P f g) {ρ : Int → Int → Prop}
    (hρ : ∀ {s}, P s → ρ s (φ s)) {limit : Int} {left : Nat} {m : Machine} (hs : P s)
    (hb : f.block? s = some b) (hplain : Plain b.body) (hi : b.insns ≠ [])
    (ih : ∀ left' < left, ∀ m' {t c c'}, P t → f.block? t = some c → g.block? (φ t) = some c' →
      (f.runFrom limit left' m' t c).Moved ρ (g.runFrom limit left' m' (φ t) c')) :
    (f.conclude limit s (m.pass left b.next b.insns)).Moved ρ
      (g.conclude limit (φ s) ((m.pass left b.next b.insns).mapTarget φ)) := by
  cases hpass : m.pass left b.next b.insns with
  | ended m' left' v => exact ⟨rfl, .none⟩
  | undefined m' left' =>
    simp only [Passage.mapTarget, conclude, h.name_eq]
    exact ⟨rfl, .some (.undefined (hρ hs))⟩
  | exhausted m' =>
    simp only [Passage.mapTarget, conclude, h.name_eq]
    exact ⟨rfl, .some (.stepLimit (hρ hs))⟩
  | through m' left' next =>
    obtain ⟨i, is, hcons⟩ := List.exists_cons_of_ne_nil hi
    have hlt : left' < left := Machine.left_lt_of_pass (hcons ▸ hpass)
    rcases Machine.visit_of_pass hplain hpass with rfl | ⟨c, -, -, hv⟩
    · simp only [Passage.mapTarget, conclude, h.noBlock_eq, follow, if_true, h.name_eq]
      exact ⟨rfl, .some (.fallsOff (hρ hs))⟩
    · have hPn := h.closed hs (.of_visit hb hv)
      obtain ⟨bn, bn', hbn, hbn', -⟩ := h.exists_block hPn
      have hn := Deflatten.ne_noBlock (lt_of_block? hbn).1
      simp only [Passage.mapTarget, conclude, follow_eq_ok.mpr ⟨hn, hbn⟩,
        follow_eq_ok.mpr ⟨h.ne_noBlock hPn, hbn'⟩]
      exact ih left' hlt m' hPn hbn hbn'

/-- **Runs do not notice where the blocks stand.** -/
theorem moved_runFrom (h : Relocates φ P f g) (hf : f.Shaped) {ρ : Int → Int → Prop}
    (hρ : ∀ {s}, P s → ρ s (φ s)) (limit : Int) (left : Nat) (m : Machine) (hs : P s)
    (hb : f.block? s = some b) (hb' : g.block? (φ s) = some b') :
    (f.runFrom limit left m s b).Moved ρ (g.runFrom limit left m (φ s) b') := by
  induction left using Nat.strongRecOn generalizing m s b b' with
  | ind left ih =>
    cases hskip : f.skipEmpty f.blocks.length s b with
    | error e => exact h.moved_of_skipEmpty hf hρ limit left m hs hb hb' hskip
    | ok r =>
      -- both runs come to a block with instructions, and what comes of it decides
      obtain ⟨j, bt, hsl, hbt, hi, -⟩ := skipEmpty_eq_ok hb hskip
      obtain ⟨hPt, hsl'⟩ := h.slides hs hsl
      obtain ⟨-, bt', -, hbt', -⟩ := h.exists_block hPt
      have hret := h.retargets hPt hbt hbt'
      have ht := rests_of_insns hbt hi
      have hplain := (hf.fits hbt).plain
      have hne : bt.insns ≠ [] := hi ▸ List.cons_ne_nil _ _
      obtain ⟨i', is', hi'⟩ := List.exists_cons_of_ne_nil (mt hret.insns_eq_nil_iff.mp hne)
      rw [runFrom_eq_conclude hsl ht hb hbt hi,
        runFrom_eq_conclude hsl' (h.rests hPt ht) hb' hbt' hi', hret.pass_eq hplain]
      exact h.moved_conclude hρ hPt hbt hplain hne fun left' hlt m' => ih left' hlt m'

end Relocates

end Func

end Deflatten

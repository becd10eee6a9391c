import Deflatten.Proofs.Editing.Liveness
import Deflatten.Proofs.Editing.Relocation

/-!
# Proofs/Editing/LiveInputs — a run depends on nothing but what is live

Take two machines that agree on the variables live into a block, hold one word at every address and
have made the same calls.  Running from the block cannot tell them apart: under every limit the two
runs observe the same and end for the same reason (`Func.runFrom_eq_of_live`).

What a list of instructions needs is told from its end (`Needed`): what an instruction reads, and what
is needed after it unless it is written.  One instruction takes machines that look alike on what is needed
before it to such on what is needed after it (`Machine.SameView.step`); that what a block needs is live
into it is the closedness of the live sets (`Func.mem_liveIn_of_needed`).
-/

namespace Deflatten

/-! ## What instructions need -/

/-- A jump or a return writes nothing. -/
theorem Insn.def?_of_endsBlock {i : Insn} (h : i.op.endsBlock = true) : i.def? = none := by
  have hop : i.op.definesDest = false := by
    revert h
    cases i.op <;> simp [Opcode.endsBlock, Opcode.isJump, Opcode.isConditional, Opcode.definesDest]
  simp [def?, hop]

/-- **The variables that instructions need**, those in `out` being needed after them. -/
def Needed (out : Var → Prop) : List Insn → Var → Prop
  | [], v => out v
  | i :: is, v => v ∈ i.reads ∨ (Needed out is v ∧ i.def? ≠ some v)

/-- **What is needed is read before it is written**, or needed afterwards and not written. -/
theorem Needed.mem_freeReads {out : Var → Prop} {is : List Insn} {v : Var} (defined : List Var)
    (h : Needed out is v) (hd : v ∉ defined) :
    v ∈ Block.freeReads defined is ∨ (out v ∧ v ∉ is.flatMap Insn.defs) := by
  induction is generalizing defined with
  | nil => exact .inr ⟨h, by simp⟩
  | cons i is ih =>
    rw [Block.freeReads]
    rcases h with hr | ⟨hafter, hdef⟩
    · refine .inl (List.mem_append_left _ (List.mem_filter.mpr ⟨?_, by simpa using hd⟩))
      simpa [Insn.uses] using hr
    · have hdefs : v ∉ i.defs := by simpa [Insn.defs] using hdef
      rcases ih (defined ++ i.defs) hafter (by simp [hd, hdefs]) with hfree | ⟨hout, hno⟩
      · exact .inl (List.mem_append_right _ hfree)
      · exact .inr ⟨hout, by simpa [hdefs] using hno⟩

/-! ## Machines that look alike -/

/-- Effects of one kind: the machines they leave are related, and all else is the same. -/
inductive Effect.Related (R : Machine → Machine → Prop) : Effect → Effect → Prop
  | next {m m' : Machine} (h : R m m') : Related R (.next m) (.next m')
  | jump (target : Int) : Related R (.jump target) (.jump target)
  | finish (ret : UInt64) : Related R (.finish ret) (.finish ret)
  | undefined : Related R .undefined .undefined

/-- Passages of one kind: where control goes on the machines are related, elsewhere the calls made are
the same. -/
inductive Passage.Related (R : Machine → Machine → Prop) : Passage → Passage → Prop
  | through {m m' : Machine} (h : R m m') (left : Nat) (next : Int) :
    Related R (.through m left next) (.through m' left next)
  | ended {m m' : Machine} (h : m'.calls = m.calls) (left : Nat) (ret : UInt64) :
    Related R (.ended m left ret) (.ended m' left ret)
  | undefined {m m' : Machine} (h : m'.calls = m.calls) (left : Nat) :
    Related R (.undefined m left) (.undefined m' left)
  | exhausted {m m' : Machine} (h : m'.calls = m.calls) : Related R (.exhausted m) (.exhausted m')

namespace Machine

/-- **Two machines look alike** on the variables in `P`: these have one value, every address holds one
word, and the same calls were made. -/
structure SameView (P : Var → Prop) (m m' : Machine) : Prop where
  /-- The variables in `P` have one value. -/
  read_eq : ∀ v, P v → m'.read v = m.read v
  /-- Every address holds one word. -/
  load_eq : ∀ addr, m'.load addr = m.load addr
  calls_eq : m'.calls = m.calls

variable {P Q : Var → Prop} {m m' : Machine} {i : Insn}

theorem SameView.mono (h : SameView P m m') (hQ : ∀ v, Q v → P v) : SameView Q m m' :=
  ⟨fun v hv => h.read_eq v (hQ v hv), h.load_eq, h.calls_eq⟩

theorem SameView.value_eq (h : SameView P m m') {o : Operand} (ho : ∀ v ∈ o.reads, P v) :
    m'.value o = m.value o := value_congr fun v hv => h.read_eq v (ho v hv)

@[simp] theorem load_assign (m : Machine) (d : Operand) (x addr : UInt64) :
    (m.assign d x).load addr = m.load addr := by
  rw [load, load, mem_assign]

/-- A destination that is set to one value in both is alike as well. -/
theorem SameView.assign (h : SameView P m m') (d : Operand) (x : UInt64) :
    SameView (fun v => P v ∨ d.var? = some v) (m.assign d x) (m'.assign d x) := by
  refine ⟨fun v hv => ?_, fun addr => ?_, ?_⟩
  · rw [read_assign, read_assign]
    split
    · rfl
    · next hd => exact h.read_eq v (hv.resolve_right hd)
  · rw [load_assign, load_assign, h.load_eq]
  · rw [calls_assign, calls_assign, h.calls_eq]

theorem SameView.store (h : SameView P m m') (addr x : UInt64) :
    SameView P (m.store addr x) (m'.store addr x) := by
  refine ⟨h.read_eq, fun a => ?_, h.calls_eq⟩
  have hload := h.load_eq a
  simp only [load, Machine.store, Table.get?_insert] at hload ⊢
  split
  · rfl
  · exact hload

theorem SameView.record (h : SameView P m m') (c : CallEvent) : SameView P (m.record c) (m'.record c) :=
  ⟨h.read_eq, h.load_eq, congrArg (· ++ [c]) h.calls_eq⟩

/-- **A data instruction** sets its destination, if that names a variable, and does nothing else. -/
theorem step_of_isData (m : Machine) (hop : i.op.isData = true) :
    m.step i = .next (i.def?.elim m fun v =>
      { m with vars := m.vars.assign v (i.result? fun v => some (m.read v)) }) := by
  have hends : i.op.endsBlock = false := by
    revert hop
    cases i.op <;> simp [Opcode.isData, Opcode.endsBlock, Opcode.isJump, Opcode.isConditional]
  rcases m.step_cases hends with ⟨h, -⟩ | ⟨h, -⟩ | ⟨h, -⟩ | ⟨h, -⟩ | ⟨h, -⟩ | ⟨-, hd, hs⟩ | ⟨-, v, hd, hs⟩
  all_goals first
    | (rw [h] at hop; cases hop)
    | (rw [hs, hd]; rfl)

/-- **An instruction does the same to machines that look alike** on what it reads, and leaves them so on
what it writes too. -/
theorem SameView.step (h : SameView P m m') (hr : ∀ v ∈ i.reads, P v) :
    (m.step i).Related (SameView fun v => P v ∨ i.def? = some v) (m'.step i) := by
  have hl : m'.value i.l = m.value i.l := h.value_eq fun v hv => hr v (by simp [Insn.reads, hv])
  have hrr : m'.value i.r = m.value i.r := h.value_eq fun v hv => hr v (by simp [Insn.reads, hv])
  have hsame : i.def? = none → ∀ {n n' : Machine}, SameView P n n' →
      SameView (fun v => P v ∨ i.def? = some v) n n' := fun hd _ _ hn =>
    hn.mono fun v hv => hv.resolve_right (by simp [hd])
  have hset : i.op.definesDest = true → ∀ {n n' : Machine} (x : UInt64), SameView P n n' →
      SameView (fun v => P v ∨ i.def? = some v) (n.assign i.d x) (n'.assign i.d x) := fun hop _ _ x hn =>
    (hn.assign i.d x).mono fun v hv => by simpa [Insn.def?, hop] using hv
  have hdata : i.op.isData = true →
      (m.step i).Related (SameView fun v => P v ∨ i.def? = some v) (m'.step i) := fun hop => by
    have hres : (i.result? fun v => some (m'.read v)) = i.result? fun v => some (m.read v) :=
      Insn.result?_congr fun v hv => congrArg some (h.read_eq v (hr v hv))
    rw [m.step_of_isData hop, m'.step_of_isData hop, hres]
    cases hd : i.def? with
    | none => exact .next (h.mono fun v hv => hv.resolve_right (by simp))
    | some w =>
      refine .next ⟨fun v hv => ?_, h.load_eq, h.calls_eq⟩
      simp only [Option.elim_some, read, Env.get?_assign]
      split
      · rfl
      · next hne => exact h.read_eq v (hv.resolve_right fun hw => hne (Option.some.inj hw))
  cases hends : i.op.endsBlock with
  | true =>
    have hd := Insn.def?_of_endsBlock hends
    rcases i.op.cases_of_endsBlock hends with hop | hop | hop
    · rw [m.step_ret hop, m'.step_ret hop, hl]
      exact .finish _
    · rw [m.step_goto hop, m'.step_goto hop]
      exact .jump _
    · obtain ⟨taken, htest⟩ := Opcode.test?_of_isConditional hop (m.value i.l) (m.value i.r)
        (max i.l.size i.r.size)
      rw [m.step_conditional htest, m'.step_conditional (by rw [hl, hrr, htest])]
      cases taken with
      | true => exact .jump _
      | false => exact .next (hsame hd h)
  | false =>
    rcases m.step_cases hends with ⟨hop, hs⟩ | ⟨hop, hs⟩ | ⟨hop, hs⟩ | ⟨hop, hs⟩ | ⟨hop, hs⟩ |
      ⟨hop, -, -⟩ | ⟨hop, -, -, -⟩
    · rw [hs, show m'.step i = .next m' by simp only [Machine.step, hop]]
      exact .next (hsame (by simp [Insn.def?, hop, Opcode.definesDest]) h)
    · rw [hs, show m'.step i = .undefined by simp only [Machine.step, hop]]
      exact .undefined
    · rw [hs, show m'.step i = .next (m'.store (m'.value i.r) (m'.value i.l)) by
        simp only [Machine.step, hop], hl, hrr]
      exact .next (hsame (by simp [Insn.def?, hop, Opcode.definesDest]) (h.store _ _))
    · rw [hs, show m'.step i = .next ((m'.record ⟨i.calleeName, m'.value i.r⟩).assign i.d
        (m'.value i.r + 1)) by simp only [Machine.step, hop], hrr]
      exact .next (hset (by rw [hop]; rfl) _ (h.record _))
    · rw [hs, show m'.step i = .next (m'.assign i.d (m'.load (m'.value i.l))) by
        simp only [Machine.step, hop], hl, h.load_eq]
      exact .next (hset (by rw [hop]; rfl) _ h)
    · exact hdata hop
    · exact hdata hop

/-- **Instructions pass alike on machines that look alike on what they need.** -/
theorem SameView.pass {out : Var → Prop} {is : List Insn} (h : SameView (Needed out is) m m') (left : Nat)
    (next : Int) : (m.pass left next is).Related (SameView out) (m'.pass left next is) := by
  induction is generalizing m m' left next with
  | nil =>
    rw [Machine.pass, Machine.pass]
    exact .through h left next
  | cons i is ih =>
    cases left with
    | zero => exact .exhausted h.calls_eq
    | succ left =>
      have hafter : ∀ v, Needed out is v → Needed out (i :: is) v ∨ i.def? = some v := fun v hv => by
        by_cases hd : i.def? = some v
        · exact .inr hd
        · exact .inl (.inr ⟨hv, hd⟩)
      have hstep := h.step (i := i) fun v hv => .inl hv
      rw [Machine.pass, Machine.pass]
      generalize hs : m.step i = e, m'.step i = e' at hstep
      cases hstep with
      | next hsame => exact ih (hsame.mono hafter) left next
      | jump target =>
        -- what sends control elsewhere writes nothing
        have hd : i.def? = none := by
          cases hends : i.op.endsBlock with
          | true => exact Insn.def?_of_endsBlock hends
          | false => rcases m.step_of_plain hends with ⟨m₁, hn⟩ | hn <;> cases hs.symm.trans hn
        exact ih (h.mono fun v hv => (hafter v hv).resolve_right (by simp [hd])) left target
      | finish ret => exact .ended h.calls_eq left ret
      | undefined => exact .undefined h.calls_eq left

end Machine

/-! ## Runs -/

namespace Func

variable {f : Func} {b : Block} {s t : Int} {k left : Nat} {m m' : Machine} {v : Var}

/-- **What a block needs for what is live out of it is live into it.** -/
theorem mem_liveIn_of_needed (hb : f.block? s = some b) (hv : Needed (· ∈ f.liveOut s) b.insns v) :
    v ∈ f.liveIn s := by
  refine mem_liveIn hb ?_
  rcases hv.mem_freeReads [] (by simp) with hfree | ⟨hout, hno⟩
  · exact .inl (mem_distinct.mpr hfree)
  · exact .inr ⟨hout, by simpa [Block.defs] using hno⟩

/-- What is live at the end of a slide through empty blocks is live at its start. -/
theorem Slides.mem_liveIn (h : f.Slides t k s) (hf : f.Verified) (hv : v ∈ f.liveIn t) :
    v ∈ f.liveIn s := by
  induction h with
  | here => exact hv
  | goes hb he hn _ ih =>
    have hexit := Block.mem_exits_of_visit (visit_of_empty he hn {})
    refine Func.mem_liveIn hb (.inr ⟨mem_liveOut hf hb hexit ih, ?_⟩)
    simp [Block.defs, he, distinct]

/-- What comes of passing a block is the same if the passages are alike and longer runs are. -/
theorem conclude_eq_of_sameView (hf : f.Verified) (hb : f.block? s = some b) {limit : Int}
    (hne : b.insns ≠ [])
    (hpass : (m.pass left b.next b.insns).Related (Machine.SameView (· ∈ f.liveOut s))
      (m'.pass left b.next b.insns))
    (ih : ∀ left' < left, ∀ {m m' t c}, f.block? t = some c →
      Machine.SameView (· ∈ f.liveIn t) m m' →
      f.runFrom limit left' m' t c = f.runFrom limit left' m t c) :
    f.conclude limit s (m'.pass left b.next b.insns) =
      f.conclude limit s (m.pass left b.next b.insns) := by
  generalize hp : m.pass left b.next b.insns = p, m'.pass left b.next b.insns = p' at hpass
  cases hpass with
  | ended hcalls left' ret => simp only [conclude, hcalls]
  | undefined hcalls left' => simp only [conclude, hcalls]
  | exhausted hcalls => simp only [conclude, hcalls]
  | through hsame left' next =>
    simp only [conclude]
    cases hfol : f.follow s next with
    | error e => simp only [hsame.calls_eq]
    | ok c =>
      obtain ⟨hn, hc⟩ := follow_eq_ok.mp hfol
      obtain ⟨i, is, hcons⟩ := List.exists_cons_of_ne_nil hne
      refine ih left' (Machine.left_lt_of_pass (hcons ▸ hp)) hc (hsame.mono fun v hv => ?_)
      -- control goes along an exit, and what is live there is live out of the block
      obtain ⟨_, -, -, hvisit⟩ := (Machine.visit_of_pass (hf.fits hb).plain hp).resolve_left hn
      exact mem_liveOut hf hb (Block.mem_exits_of_visit hvisit) hv

/-- **Machines that look alike on what is live run alike.** -/
theorem runFrom_eq_of_sameView (hf : f.Verified) (limit : Int) (left : Nat) (hb : f.block? s = some b)
    (h : Machine.SameView (· ∈ f.liveIn s) m m') :
    f.runFrom limit left m' s b = f.runFrom limit left m s b := by
  induction left using Nat.strongRecOn generalizing m m' s b with
  | ind left ih =>
    cases hskip : f.skipEmpty f.blocks.length s b with
    | error e =>
      rw [runFrom, runFrom]
      simp only [hskip, h.calls_eq]
    | ok r =>
      obtain ⟨j, bt, hsl, hbt, hi, -⟩ := skipEmpty_eq_ok hb hskip
      have ht := rests_of_insns hbt hi
      rw [runFrom_eq_conclude hsl ht hb hbt hi, runFrom_eq_conclude hsl ht hb hbt hi]
      have hneeded : Machine.SameView (Needed (· ∈ f.liveOut r.cur) bt.insns) m m' :=
        h.mono fun v hv => hsl.mem_liveIn hf (mem_liveIn_of_needed hbt hv)
      exact conclude_eq_of_sameView hf hbt (hi ▸ List.cons_ne_nil _ _) (hneeded.pass left bt.next)
        fun left' hlt => ih left' hlt

/-- **Liveness is sound.**  Two machines that give the variables live into a block one value, hold one
word at every address and have made the same calls behave alike when they run from the start of that
block: for every limit and every number of steps left, what is returned, the calls, the steps and the
reason for the end are the same. -/
theorem runFrom_eq_of_live (f : Func) (hf : f.verify = .ok ()) {i : Nat} {b : Block}
    (hb : f.blocks[i]? = some b) : ∃ sets live, f.liveness = .ok sets ∧ sets[i]? = some live ∧
      ∀ m m' : Machine, (∀ v ∈ live.onEntry, m'.read v = m.read v) →
        (∀ addr, m'.load addr = m.load addr) → m'.calls = m.calls →
        ∀ (limit : Int) (left : Nat), f.runFrom limit left m' i b = f.runFrom limit left m i b := by
  have hb' : f.block? i = some b := (f.block?_natCast i).trans hb
  obtain ⟨live, hlive, -⟩ := exists_liveSets hb'
  have hf := verify_eq_ok_iff.mp hf
  refine ⟨f.liveSets, live, hf.liveness_eq, hlive, fun m m' hread hload hcalls limit left => ?_⟩
  refine runFrom_eq_of_sameView hf limit left hb'
    ⟨fun v hv => hread v ?_, hload, hcalls⟩
  rwa [liveIn, hlive, Option.elim_some] at hv

/-- Counts a register down to zero, calling and storing on the way, with an empty block in the loop. -/
def countdown : Func :=
  let r (n : Int) := Operand.register n 4
  { name := "countdown",
    body := some [
      { serial := 0, code := some [.branch .jz (r 1) (.imm 0 4) 3], next := 1, preds := [2],
        succs := [1, 3] },
      { serial := 1, code := some [.call (.global 64 "tick" 8) (r 1) (r 3),
          { op := .stx, l := r 3, r := r 1 }, .binary .sub (r 1) (.imm 1 4) (r 1)],
        next := 2, preds := [0], succs := [2] },
      { serial := 2, code := none, next := 0, preds := [1], succs := [0] },
      { serial := 3, code := some [{ op := .ldx, l := .imm 1 4, d := r 3 }, .ret (r 3)],
        next := noBlock, preds := [0], succs := [] }] }

/-- What the call returns is written before it is read, so what it was before makes no difference. -/
theorem runFrom_eq_of_live_countdown : countdown.verify = .ok () ∧
    ∃ b, countdown.blocks[1]? = some b ∧ ∀ (x : UInt64) (limit : Int) (left : Nat),
      countdown.runFrom limit left { vars := .ofList [(.reg 1, 2), (.reg 3, x)] } 1 b =
        countdown.runFrom limit left { vars := .ofList [(.reg 1, 2)] } 1 b := by
  refine ⟨by decide, _, rfl, fun x limit left => ?_⟩
  obtain ⟨sets, live, hsets, hlive, hruns⟩ := runFrom_eq_of_live countdown (by decide) (i := 1) rfl
  refine hruns { vars := .ofList [(.reg 1, 2)] } { vars := .ofList [(.reg 1, 2), (.reg 3, x)] }
    (fun v hv => ?_) (fun _ => rfl) rfl limit left
  have honly : (countdown.liveness.map fun sets => sets[1]?.elim [] (·.onEntry)) =
      .ok [.global 64, .reg 1] := by
    decide
  rw [hsets, Except.map, hlive, Option.elim_some, Except.ok.injEq] at honly
  rw [honly, List.mem_pair] at hv
  rcases hv with rfl | rfl <;> rfl

end Func

end Deflatten

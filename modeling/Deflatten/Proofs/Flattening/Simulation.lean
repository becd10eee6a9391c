import Deflatten.Flattening.Samples
import Deflatten.Proofs.Execution.Agreement
import Deflatten.Proofs.Flattening.Layout

/-!
# Proofs/Flattening/Simulation — a flattened function does what the function does

An execution of the flattened function stands at the case of the block where the other stands, and
the two machines agree on everything but the state (`Flattens.Follows`).  A transfer writes the number
of a case, and the comparisons lead from there to the case (`Flattens.reaches_case`), so every visit
of the one is some steps of the other (`Flattens.goes`).

Endings carry over (`Flattens.endsWithin`), and so does going on for ever (`Flattens.exists_reaches`).
-/

namespace Deflatten

namespace Func.Flattens

variable {f g : Func} {p : CasePlan} {v : Var} {m m' m₁ : Machine} {s j t : Int} {b : Block}
  {i c n : Nat} {is : List Insn}

/-! ## The state -/

/-- The machine with the state set to a case. -/
def setState (p : CasePlan) (v : Var) (m : Machine) (j : Int) : Machine :=
  { m with vars := m.vars.assign v (some (p.number j)) }

theorem read_setState (p : CasePlan) (v : Var) (m : Machine) (j : Int) :
    (setState p v m j).read v = p.number j := by
  simp [setState, Machine.read]

theorem agree_setState (p : CasePlan) (v : Var) (m : Machine) (j : Int) :
    Machine.Agree (· ≠ v) m (setState p v m j) :=
  ⟨fun w hw => by simp [setState, Machine.read, Ne.symm hw], rfl, rfl⟩

theorem value_label (p : CasePlan) (m : Machine) (j : Int) : m.value (p.label j) = p.number j := rfl

theorem next_comparison (p : CasePlan) (i : Nat) : (p.comparison i).next =
    if i + 2 < p.count then ((i + 2 : Nat) : Int) else p.caseSerial (p.count - 1) := rfl

theorem caseSerial_nonneg (p : CasePlan) (i : Nat) : 0 ≤ p.caseSerial i := by
  unfold CasePlan.caseSerial
  omega

theorem exists_body_of_caseOf {b' : Block} (h : g.CaseOf p b b') :
    ∃ js, b'.body = b.body ++ js := by
  cases h with
  | leaving j hi hl => exact ⟨_, (CasePlan.terminator?_of_transfer hi).2⟩
  | returning t ht hr hi => exact ⟨[], by simp [Block.body, Block.terminator?, Block.tail?, hi]⟩
  | branching t taken ht hc hi hn htaken hnext =>
    have hends : t.op.endsBlock = true := Block.endsBlock_of_terminator? ht
    exact ⟨[], by rw [List.append_nil, Block.body_of_append hi hends]⟩

variable (h : f.Flattens g p v)
include h

theorem step_store (m : Machine) (j : Int) : m.step (p.store j) = .next (setState p v m j) := by
  have hdef : (p.store j).def? = some v := CasePlan.def?_store h.state_eq j
  rcases m.step_cases (i := p.store j) rfl with ⟨hop, -⟩ | ⟨hop, -⟩ | ⟨hop, -⟩ | ⟨hop, -⟩ |
    ⟨hop, -⟩ | ⟨-, hnone, -⟩ | ⟨-, w, hw, hstep⟩
  iterate 5 cases hop
  · cases hdef.symm.trans hnone
  · obtain rfl := Option.some.inj (hdef.symm.trans hw)
    rw [hstep, p.result?_store]
    rfl

/-! ## The dispatcher -/

theorem value_state (hm : m.read v = p.number j) : m.value p.state = p.number j := by
  rw [Machine.value_of_var? h.state_eq, hm, CasePlan.number, truncate_truncate]

/-- A comparison leads to its case if the state has its number, and on if not. -/
theorem visit_comparison (hi : i + 1 < p.count) {k : Nat} (hk : k < p.count)
    (hm : m.read v = p.number k) :
    ∃ b, g.block? ((i + 1 : Nat) : Int) = some b ∧
      b.visit m = .goes m 1 (if i = k then p.caseSerial i else (p.comparison i).next) := by
  obtain ⟨b, hb, hc⟩ := content?_eq_some_iff.mp (h.comparison hi)
  refine ⟨b, hb, (Block.visit_of_content hc m).trans ?_⟩
  obtain ⟨ht, hbody⟩ := p.terminator?_comparison i
  have htest := p.test?_numbers h.number_inj (show i < p.count by omega) hk
  rw [← value_state h hm, ← value_label p m] at htest
  refine Block.visit_eq_goes.mpr ⟨by rw [hbody]; rfl, ?_, ne_noBlock ?_, rfl⟩
  · rw [Block.leave_conditional ht htest]
    by_cases hik : i = k
    · simp only [hik, decide_true, if_true]
      rfl
    · simp only [hik, decide_false, Bool.false_eq_true, if_false]
  · split
    · exact caseSerial_nonneg p i
    · rw [next_comparison]
      split
      · omega
      · exact caseSerial_nonneg p _

/-- From a comparison that is not past it, control comes to the case of the state. -/
theorem reaches_of_comparison {k : Nat} (hk : k < p.count) (hm : m.read v = p.number k)
    (hi : i + 1 < p.count) (hik : i ≤ k) :
    ∃ c n, g.Reaches m ((i + 1 : Nat) : Int) c n m (p.caseSerial k) := by
  induction hd : k - i generalizing i with
  | zero =>
    obtain rfl : i = k := by omega
    obtain ⟨b, hb, hv⟩ := h.visit_comparison hi hk hm
    rw [if_pos rfl] at hv
    exact ⟨1, 1, .single hb hv⟩
  | succ d ih =>
    obtain ⟨b, hb, hv⟩ := h.visit_comparison hi hk hm
    rw [if_neg (by omega), next_comparison] at hv
    split at hv
    · obtain ⟨c, n, hr⟩ := ih (i := i + 1) (by omega) (by omega) (by omega)
      exact ⟨1 + c, 1 + n, (Reaches.single hb hv).trans hr⟩
    · -- the last comparison falls into the last case
      obtain rfl : k = p.count - 1 := by omega
      exact ⟨1, 1, .single hb hv⟩

/-- **The dispatcher leads to the case that the state has the number of.** -/
theorem reaches_case (hj : 0 ≤ j ∧ j < p.count) (hm : m.read v = p.number j) :
    ∃ c n, g.Reaches m 1 c n m (p.count + j) := by
  have h2 := h.two_le
  obtain ⟨k, rfl⟩ := Int.eq_ofNat_of_zero_le hj.1
  exact h.reaches_of_comparison (i := 0) (by omega) hm (by omega) (Nat.zero_le k)

/-! ## Transfers -/

/-- A jump to the dispatcher comes to the first comparison. -/
theorem reaches_dispatcher (m : Machine) :
    0 ≤ p.dispatch ∧ ∃ c n, g.Reaches m p.dispatch c n m 1 := by
  rcases h.back with hd | ⟨b, hb, hi⟩
  · rw [hd]
    exact ⟨by omega, 0, 0, .here⟩
  · have hi : b.insns = [] ++ [.goto 1] := hi
    have hv : b.visit m = .goes m 1 1 := Block.visit_of_goto hi rfl (ne_noBlock (by decide)) m
    exact ⟨(lt_of_block? hb).1, 1, 1, .single hb hv⟩

/-- A block that sets the state and jumps. -/
theorem visit_of_store (hi : b.insns = is ++ [p.store j, .goto t]) (ht : 0 ≤ t)
    (hp : m.perform is = .done m₁) : ∃ n, 0 < n ∧ b.visit m = .goes (setState p v m₁ j) n t := by
  have hi : b.insns = (is ++ [p.store j]) ++ [.goto t] := by rw [hi, List.append_assoc]; rfl
  have hperf : m.perform (is ++ [p.store j]) = .done (setState p v m₁ j) :=
    Machine.perform_append_eq_done.mpr
      ⟨m₁, hp, Machine.perform_cons_of_next [] (h.step_store m₁ j)⟩
  refine ⟨(is ++ [p.store j]).length + 1, Nat.succ_pos _, ?_⟩
  rw [Block.visit_of_goto hi rfl (ne_noBlock ht), hperf]
  rfl

/-- **A transfer comes to the case it names**, with nothing but the state changed. -/
theorem reaches_of_transfer (hj : 0 ≤ j ∧ j < p.count) (hb : g.block? s = some b)
    (hi : b.insns = is ++ p.transfer j) (hp : m.perform is = .done m₁) :
    ∃ c n, 0 < n ∧ g.Reaches m s c n (setState p v m₁ j) (p.count + j) := by
  obtain ⟨hd, c₁, n₁, hr₁⟩ := h.reaches_dispatcher (setState p v m₁ j)
  obtain ⟨c₂, n₂, hr₂⟩ := h.reaches_case hj (read_setState p v m₁ j)
  obtain ⟨n, hn, hv⟩ := h.visit_of_store hi hd hp
  exact ⟨_, _, by omega, ((Reaches.single hb hv).trans hr₁).trans hr₂⟩

/-- The first block comes to the first case. -/
theorem reaches_of_prologue (m : Machine) :
    ∃ c n, g.Reaches m 0 c n (setState p v m 0) (p.count + 0) := by
  obtain ⟨b, hb, hi⟩ := h.prologue
  obtain ⟨n₁, -, hv⟩ := h.visit_of_store hi (by decide) m.perform_nil
  have h2 := h.two_le
  obtain ⟨c, n, hr⟩ := h.reaches_case (j := 0) (by omega) (read_setState p v m 0)
  exact ⟨_, _, (Reaches.single hb hv).trans hr⟩

/-! ## Visits -/

/-- **Where the executions of `f` and of the flattened function stand**: the one at a block, the other
at its case, with the same values but for the state. -/
structure Follows (p : CasePlan) (v : Var) (m : Machine) (s : Int) (m' : Machine) (s' : Int) :
    Prop where
  agree : Machine.Agree (· ≠ v) m m'
  /-- The one stands at the case of the block where the other stands. -/
  place : s' = p.count + s

theorem exists_case (hb : f.block? s = some b) :
    ∃ b', g.block? (p.count + s) = some b' ∧ g.CaseOf p b b' := by
  obtain ⟨i, rfl⟩ := Int.eq_ofNat_of_zero_le (lt_of_block? hb).1
  exact h.case hb

theorem reads_ne (hb : f.block? s = some b) {x : Insn} (hx : x ∈ b.insns) : ∀ w ∈ x.reads, w ≠ v :=
  fun _ hw hwv => (h.unused hb x hx).2 (hwv ▸ hw)

theorem reads_body_ne (hb : f.block? s = some b) :
    ∀ x ∈ b.body, ∀ w ∈ x.reads, w ≠ v := fun x hx =>
  h.reads_ne hb (by rw [b.insns_eq]; exact List.mem_append_left _ hx)

/-- The terminator has the same operands in the case of the block. -/
theorem value_terminator? (hb : f.block? s = some b) {x : Insn} (hx : b.terminator? = some x)
    (ha : Machine.Agree (· ≠ v) m m') :
    m'.value x.l = m.value x.l ∧ m'.value x.r = m.value x.r := by
  have hne := h.reads_ne hb (x := x) (by simp [b.insns_eq, hx])
  constructor <;> refine ha.value_eq fun w hw => hne w ?_ <;> simp [Insn.reads, hw]

/-- **A visit that goes on is followed to the case of the block it goes to.** -/
theorem goes (hf : f.Shaped) {s' : Int} (hR : Follows p v m s m' s') (hb : f.block? s = some b)
    (hv : b.visit m = .goes m₁ c t) :
    ∃ k n m₁' t', 0 < n ∧ g.Reaches m' s' k n m₁' t' ∧ Follows p v m₁ t m₁' t' := by
  obtain ⟨ha, rfl⟩ := hR
  obtain ⟨hp, hl, -, -⟩ := Block.visit_eq_goes.mp hv
  have ht : 0 ≤ t ∧ t < p.count := by
    rw [h.count_eq]
    exact (hf.fits hb).inside t (Block.mem_exits_of_visit hv)
  obtain ⟨b', hb', hcase⟩ := h.exists_case hb
  obtain ⟨m₁', hp', ha₁⟩ := ha.perform_done (hf.fits hb).plain (h.reads_body_ne hb) hp
  have hfollows : Follows p v m₁ t (setState p v m₁' t) (p.count + t) :=
    ⟨ha₁.trans (agree_setState p v m₁' t), rfl⟩
  cases hcase with
  | leaving j hi hleave =>
    obtain rfl := Leaving.toward.inj ((hleave m₁).symm.trans hl)
    obtain ⟨k, n, hn, hr⟩ := h.reaches_of_transfer ht hb' hi hp'
    exact ⟨k, n, _, _, hn, hr, hfollows⟩
  | returning x hx hret _ => cases (Block.leave_ret hx hret m₁).symm.trans hl
  | branching x taken hx hc hi hnext hfwd hfwd' =>
    have hends : x.op.endsBlock = true := Block.endsBlock_of_terminator? hx
    obtain ⟨yes, htest⟩ := Opcode.test?_of_isConditional hc (m₁.value x.l) (m₁.value x.r)
      (max x.l.size x.r.size)
    obtain ⟨hxl, hxr⟩ := h.value_terminator? hb hx ha₁
    have htest' := hxl.symm ▸ hxr.symm ▸ htest
    -- control goes to the block that forwards to `t`
    obtain ⟨e, he, hfwd⟩ : ∃ e, b'.leave m₁' = .toward e ∧ g.Forwards p e t := by
      refine ⟨_, Block.leave_conditional (Block.terminator?_of_append hi hends) htest', ?_⟩
      rw [Block.leave_conditional hx htest] at hl
      obtain rfl := Leaving.toward.inj hl
      cases yes with
      | true => simpa using hfwd
      | false => simpa [hnext] using hfwd'
    obtain ⟨b₁, hb₁, hi₁⟩ := hfwd
    have hv' : b'.visit m' = .goes m₁' b'.insns.length e := Block.visit_eq_goes.mpr
      ⟨by rw [Block.body_of_append hi hends, hp'], he, ne_noBlock (lt_of_block? hb₁).1, rfl⟩
    obtain ⟨k, n, hn, hr⟩ := h.reaches_of_transfer ht hb₁ hi₁ m₁'.perform_nil
    exact ⟨_, _, _, _, by omega, (Reaches.single hb' hv').trans hr, hfollows⟩

/-- **A visit that ends the execution ends it in the case.** -/
theorem stops (hf : f.Shaped) {s' : Int} {o : Halt} (hR : Follows p v m s m' s')
    (hb : f.block? s = some b) (hv : b.visit m = .stops m₁ c o) (ho : o ≠ .fellOff) :
    ∃ n, g.EndsWithin m' s' n o m₁.calls := by
  obtain ⟨ha, rfl⟩ := hR
  obtain ⟨b', hb', hcase⟩ := h.exists_case hb
  cases o with
  | fellOff => exact absurd rfl ho
  | undefined =>
    obtain ⟨m₁', hp', hcalls⟩ := ha.perform_undefined (hf.fits hb).plain (h.reads_body_ne hb)
      (Block.visit_eq_undefined.mp hv)
    obtain ⟨js, hbody⟩ := exists_body_of_caseOf hcase
    have hv' : b'.visit m' = .stops m₁' c .undefined := Block.visit_eq_undefined.mpr
      (by rw [hbody]; exact Machine.perform_append_of_undefined js hp')
    exact ⟨c, hcalls ▸ (HaltsIn.stops hb' hv').endsWithin⟩
  | returned w =>
    obtain ⟨hp, hl, -⟩ := Block.visit_eq_returned.mp hv
    cases hcase with
    | leaving j hi hleave => cases (hleave m₁).symm.trans hl
    | branching x taken hx hc =>
      obtain ⟨yes, htest⟩ := Opcode.test?_of_isConditional hc (m₁.value x.l) (m₁.value x.r)
        (max x.l.size x.r.size)
      cases (Block.leave_conditional hx htest).symm.trans hl
    | returning x hx hret hi =>
      obtain ⟨m₁', hp', ha₁⟩ := ha.perform_done (hf.fits hb).plain (h.reads_body_ne hb) hp
      have hx' : b'.insns = b.body ++ [x] := hi.trans (Block.insns_eq_append hx)
      have hends : x.op.endsBlock = true := Block.endsBlock_of_terminator? hx
      have hl' : b'.leave m₁' = .ret w := by
        rw [Block.leave_ret (Block.terminator?_of_append hx' hends) hret,
          (h.value_terminator? hb hx ha₁).1, ← Block.leave_ret hx hret, hl]
      have hv' : b'.visit m' = .stops m₁' b'.insns.length (.returned w) :=
        Block.visit_eq_returned.mpr ⟨by rw [Block.body_of_append hx' hends, hp'], hl', rfl⟩
      exact ⟨_, ha₁.calls_eq ▸ (HaltsIn.stops hb' hv').endsWithin⟩

/-! ## Executions -/

/-- **The flattened function ends as the function does.** -/
theorem endsWithin (hf : f.Shaped) {k : Nat} {o : Halt} {cs : List CallEvent} (ho : o ≠ .fellOff)
    (hk : f.HaltsIn k m 0 n o cs) : ∃ n', g.EndsWithin m 0 n' o cs := by
  obtain ⟨c, n₁, hr⟩ := h.reaches_of_prologue m
  obtain ⟨n₂, hends⟩ := hk.follow (R := Follows p v) (fun hR hb hv => h.stops hf hR hb hv ho)
    (h.goes hf) ⟨agree_setState p v m 0, rfl⟩
  exact ⟨n₁ + n₂, hends.of_reaches hr⟩

/-- **The flattened function goes on as long as the function does.** -/
theorem exists_reaches (hf : f.Shaped) {k : Nat} (hk : f.Reaches m 0 k n m₁ s) :
    ∃ k' n' m' s', k ≤ n' ∧ g.Reaches m 0 k' n' m' s' := by
  obtain ⟨c, n₁, hr⟩ := h.reaches_of_prologue m
  obtain ⟨k', n', m', s', hle, hr', -⟩ := hk.follow (R := Follows p v) (h.goes hf)
    ⟨agree_setState p v m 0, rfl⟩
  exact ⟨_, _, m', s', by omega, hr.trans hr'⟩

end Func.Flattens

namespace Func

variable {f g : Func} {opts : FlattenOptions}

/-- **Flattening keeps what a function does.**  The flattened function is in order; it returns what
the function returns and needs an undefined value where the function does, after the same calls; and
where the function does neither under any limit, it exceeds every limit. -/
theorem run_flatten (hf : f.verify = .ok ()) (hn : 2 ≤ f.blocks.length)
    (h : f.flatten opts = .ok g) :
    g.verify = .ok () ∧ ∀ inputs,
      (∀ limit e, f.run inputs limit = .ok e →
        (e.error? = none ∨ ∃ fn blk, e.error? = some (.undefined fn blk)) →
        ∃ enough, ∀ limit', enough ≤ limit' → ∃ e', g.run inputs limit' = .ok e' ∧
          e'.halt? = e.halt? ∧ e'.trace.ret = e.trace.ret ∧ e'.trace.calls = e.trace.calls) ∧
      ((∀ limit e, f.run inputs limit = .ok e → e.halt? = none) →
        ∀ limit, ∃ e' blk, g.run inputs limit = .ok e' ∧
          e'.error? = some (.stepLimit limit g.name blk)) := by
  have hf := verify_eq_ok_iff.mp hf
  obtain ⟨p, v, hfl⟩ := flattens_of_flatten hf.toShaped hn h
  have hgl := hfl.wellFormed.endsLast
  refine ⟨verify_eq_ok_iff.mpr hfl.wellFormed.toVerified, fun inputs => ⟨?_, ?_⟩⟩
  · intro limit e he hend
    obtain ⟨o, ho, hne⟩ : ∃ o, e.halt? = some o ∧ o ≠ .fellOff := by
      rcases hend with hok | hund
      · exact ⟨_, Ending.halt?_eq_returned.mpr ⟨hok, rfl⟩, by simp⟩
      · exact ⟨_, Ending.halt?_eq_undefined.mpr hund, by simp⟩
    obtain ⟨-, k, n, -, hk⟩ := endsWithin_of_run hf.endsLast he ho
    obtain ⟨n', hends⟩ := hfl.endsWithin hf.toShaped hne hk
    refine ⟨n', fun limit' hlim => ?_⟩
    obtain ⟨e', he', ho', hcs, -⟩ := run_of_endsWithin hgl hends (by omega : n' ≤ limit'.toNat)
    have heq := ho'.trans ho.symm
    exact ⟨e', he', heq, ret_eq_of_halt? he he' heq, hcs⟩
  · intro hnever limit
    obtain ⟨b, hb⟩ := exists_block? (f := f) (Int.le_refl 0) (by omega)
    rcases hf.exists_reaches_or_haltsIn hb { vars := inputs } (limit.toNat + 1) with
      ⟨n, m', s', -, hr, -⟩ | ⟨k, n, o, cs, hk⟩
    · obtain ⟨k', n', m₁, s₁, hle, hr'⟩ := hfl.exists_reaches hf.toShaped hr
      obtain ⟨b₀, hb₀, -⟩ := hfl.prologue
      obtain ⟨blk, herr⟩ := runFrom_of_reaches hgl hr' (by omega : limit.toNat < n') hb₀
      exact ⟨_, blk, run_of_block? hb₀, herr⟩
    · have hlim : n ≤ (n : Int).toNat := by omega
      obtain ⟨e, he, ho, -⟩ := run_of_endsWithin hf.endsLast hk.endsWithin hlim
      rw [hnever n e he] at ho
      cases ho

theorem run_flatten_abs :
    ∃ g, Samples.abs.flatten {} = .ok g ∧ g.verify = .ok () ∧
      ∃ enough, ∀ limit', enough ≤ limit' →
        ∃ e', g.run (Table.ofList [(.reg 0, 0xfffffffb)]) limit' = .ok e' ∧
          e'.halt? = some (.returned 5) ∧ e'.trace.ret = 5 ∧ e'.trace.calls = [⟨"puts", 5⟩] := by
  have hok : (Samples.abs.flatten {}).isOk = true := by decide +kernel
  cases hg : Samples.abs.flatten {} with
  | error e =>
    rw [hg] at hok
    cases hok
  | ok g =>
    obtain ⟨hv, hrun⟩ := run_flatten (by decide) (by decide) hg
    exact ⟨g, rfl, hv, (hrun (Table.ofList [(.reg 0, 0xfffffffb)])).1 10
      ⟨{ ret := 5, calls := [⟨"puts", 5⟩], steps := 4 }, none⟩ (by decide +kernel) (.inl rfl)⟩

end Func

end Deflatten

import Deflatten.Proofs.Dispatch.Frame
import Deflatten.Proofs.Editing.Compaction
import Deflatten.Proofs.Flattening.Layout
import Mathlib.Tactic.IntervalCases

/-!
# Proofs/Flattening/Chain — a dispatcher and the blocks behind it

`Func.Chained f p v` says what matters for undoing a flattening: a first block that sets the state, a
chain of comparisons, and behind it blocks that do not use the state but to set it (`CasePlan.Works`).
Every flattening leaves such a function (`chained_of_flatten`), and it is still one when it has been
compacted, as nothing but an unused loop end can be unreachable, and that stands last
(`Chained.compacts`).
-/

namespace Deflatten

/-! ## Instructions without a variable -/

/-- An instruction that neither reads nor writes a variable. -/
def Insn.Ignores (v : Var) (i : Insn) : Prop := i.def? ≠ some v ∧ v ∉ i.reads

theorem Operand.reads_withBlock (o : Operand) (s : Int) : (o.withBlock s).reads = o.reads := by
  cases o <;> rfl

namespace Insn

@[simp] theorem reads_withTarget (i : Insn) (s : Int) : (i.withTarget s).reads = i.reads := by
  unfold reads
  rw [kind_withTarget, l_withTarget, r_withTarget, withTarget, Operand.reads_withBlock]

@[simp] theorem def?_withTarget (i : Insn) (s : Int) : (i.withTarget s).def? = i.def? := by
  obtain ⟨op, l, r, d⟩ := i
  cases d <;> rfl

theorem portable_ignores (v : Var) : Portable (Ignores v) where
  goto := fun s => ⟨by simp [goto, def?, Opcode.definesDest], by simp [goto, reads, Operand.empty,
    Operand.target, Operand.reads, Fields.var?, Operand.kind, Operand.fields]⟩
  withTarget := fun s h => ⟨by rw [def?_withTarget]; exact h.1, by rw [reads_withTarget]; exact h.2⟩

end Insn

namespace Block

theorem freeReads_withTarget (t : Insn) (s : Int) (is : List Insn) : ∀ defined : List Var,
    freeReads defined (is ++ [t.withTarget s]) = freeReads defined (is ++ [t]) := by
  induction is with
  | nil => simp [freeReads, Insn.uses]
  | cons i is ih => simp [freeReads, ih]

theorem mem_freeReads {v : Var} : ∀ {is : List Insn} {defined : List Var},
    v ∈ freeReads defined is → ∃ i ∈ is, v ∈ i.reads
  | [], _, h => by simp [freeReads] at h
  | i :: is, defined, h => by
    rcases List.mem_append.mp h with h | h
    · exact ⟨i, by simp, mem_distinct.mp (List.mem_filter.mp h).1⟩
    · obtain ⟨j, hj, hv⟩ := mem_freeReads h
      exact ⟨j, by simp [hj], hv⟩

/-- What a block inherits, an instruction of it reads. -/
theorem All.not_mem_free {b : Block} {v : Var} (h : b.All fun i => v ∉ i.reads) : v ∉ b.free := by
  intro hv
  obtain ⟨i, hi, hr⟩ := mem_freeReads (mem_distinct.mp hv)
  exact h i hi hr

end Block

/-! ## Plans -/

namespace CasePlan

/-- **What a plan promises**: enough cases, a state that callers do not see, and numbers that are told
apart and look made up. -/
structure Sound (p : CasePlan) (v : Var) : Prop where
  three_le : 3 ≤ p.count
  /-- So few that the bits of their numbers can be counted. -/
  count_le : p.count ≤ 2 ^ 57
  /-- The state is a variable. -/
  state_eq : p.state.var? = some v
  isLocal : v.isGlobal = false
  one_le : 1 ≤ p.state.size
  le_eight : p.state.size ≤ 8
  /-- The numbers tell the cases apart. -/
  number_inj : ∀ {i j : Nat}, i < p.count → j < p.count → p.number i = p.number j → i = j
  /-- Between three and five eighths of their bits are set. -/
  balanced : ∀ {i : Nat}, i < p.count → 3 * p.state.size ≤ popCount (p.number i) ∧
    (popCount (p.number i) : Int) ≤ 5 * p.state.size
  /-- Jumps back go to the first comparison, or through a block behind the cases. -/
  dispatch : p.dispatch = 1 ∨ p.dispatch = 2 * p.count

/-- **What a block behind the dispatcher does**: it sets the state to a case and goes back, returns,
or goes on to one of two blocks for its edges.  It does not use the state otherwise. -/
inductive Works (p : CasePlan) (v : Var) (b : Block) : Prop
  /-- All control goes to one case. -/
  | sets (is : List Insn) (j : Nat) (hj : j < p.count) (hi : b.insns = is ++ p.transfer j)
      (hv : ∀ i ∈ is, i.Ignores v)
  /-- The block returns. -/
  | returns (t : Insn) (ht : b.terminator? = some t) (hr : t.op = .ret)
      (hv : b.All (Insn.Ignores v))
  /-- Control goes two ways. -/
  | chooses (t : Insn) (ht : b.terminator? = some t) (hc : t.op.isConditional = true)
      (hv : b.All (Insn.Ignores v)) (hfree : b.free ≠ [])
      (hexits : ∀ x ∈ b.exits, 2 * (p.count : Int) ≤ x ∧ x ≠ p.dispatch)

variable {p : CasePlan} {v : Var} {b b' : Block} {c : Block} {jumps : Nat} {es : List Int}

theorem Works.congr (h : p.Works v b) (hi : b'.insns = b.insns) (hx : b'.exits = b.exits) :
    p.Works v b' := by
  have hterm : b'.terminator? = b.terminator? := by simp only [Block.terminator?, Block.tail?, hi]
  cases h with
  | sets is j hj hi' hv => exact .sets is j hj (hi.trans hi') hv
  | returns t ht hret hv => exact .returns t (hterm.trans ht) hret (hv.of_insns hi)
  | chooses t ht hc hv hfree hexits =>
    refine .chooses t (hterm.trans ht) hc (hv.of_insns hi) ?_ (hx ▸ hexits)
    rwa [Block.free, hi]

/-- The exits of a block that works lead back or to blocks for edges. -/
theorem Works.exits (h : p.Works v b) {x : Int} (hx : x ∈ b.exits) :
    x = p.dispatch ∨ (2 * (p.count : Int) ≤ x ∧ x ≠ p.dispatch) := by
  cases h with
  | sets is j hj hi hv =>
    rw [Block.exits_goto (terminator?_of_transfer hi).1 rfl] at hx
    exact .inl (List.mem_singleton.mp hx)
  | returns t ht hr hv => simp [Block.exits_ret ht hr] at hx
  | chooses t ht hc hv hfree hexits => exact .inr (hexits x hx)

theorem isBalanced_spec {size : Int} {c : UInt64} (h₁ : 1 ≤ size) (h₈ : size ≤ 8)
    (h : isBalanced size c = true) : 3 * size ≤ popCount c ∧ (popCount c : Int) ≤ 5 * size := by
  have hwidth : (stateWidth size : Int) = size * 8 := by interval_cases size <;> decide
  simp only [isBalanced, Bool.and_eq_true, decide_eq_true_eq] at h
  omega

theorem sound_of_stateConstants {seed : UInt64} (h3 : 3 ≤ p.count)
    (hcount : p.state.size = 8 → p.count ≤ 2 ^ 57) (hvar : p.state.var? = some v)
    (hlocal : v.isGlobal = false) (h₁ : 1 ≤ p.state.size) (h₈ : p.state.size ≤ 8)
    (hconsts : stateConstants seed p.count p.state.size = some p.consts)
    (hdisp : p.dispatch = 1 ∨ p.dispatch = 2 * p.count) : p.Sound v := by
  have hle : p.count ≤ 2 ^ 57 := by
    by_cases hsize : p.state.size = 8
    · exact hcount hsize
    · have hwidth : bitWidth p.state.size ≤ 57 := by
        rw [bitWidth, if_pos (by omega)]
        omega
      exact (le_of_stateConstants hconsts).trans (Nat.pow_le_pow_right (by decide) hwidth)
  refine ⟨h3, hle, hvar, hlocal, h₁, h₈, number_inj hconsts, fun hi => ?_, hdisp⟩
  have hmem := List.mem_of_getElem? (getElem?_consts hconsts hi)
  exact isBalanced_spec h₁ h₈ ((drawConstants_spec hconsts).2.2 _ hmem).2.2

/-- **The case of a block does its work.** -/
theorem MakesCase.works (h : p.MakesCase jumps b c es) (hfit : b.Fits p.count)
    (hv : ∀ i ∈ b.insns, i.Ignores v)
    (hfree : ∀ t, b.terminator? = some t → t.op.isConditional = true → t.d.block ≠ b.next →
      b.free ≠ [])
    (hjump : 2 * (p.count : Int) ≤ p.firstJump) (hdisp : p.dispatch < p.firstJump) :
    p.Works v c := by
  have hbody : ∀ i ∈ b.body, i.Ignores v := fun i hi =>
    hv i (by rw [b.insns_eq]; exact List.mem_append_left _ hi)
  cases h with
  | leaving j hi _ hx =>
    have hj := hfit.inside j hx
    obtain ⟨k, rfl⟩ := Int.eq_ofNat_of_zero_le hj.1
    exact .sets b.body k (by omega) hi hbody
  | returning t ht hr hi =>
    refine .returns t ?_ hr fun i h => hv i (hi ▸ h)
    rw [← ht]
    simp only [Block.terminator?, Block.tail?, hi]
  | branching t ht hc hi hn hne =>
    have hends : (t.withTarget (p.firstJump + jumps)).op.endsBlock = true := by
      simpa using Block.endsBlock_of_terminator? ht
    have ht' := Block.terminator?_of_append hi hends
    refine .chooses _ ht' hc (fun i h => ?_) ?_ fun x hx => ?_
    · rw [hi, List.mem_append, List.mem_singleton] at h
      rcases h with h | rfl
      · exact hbody i h
      · exact (Insn.portable_ignores v).withTarget _ (hv t (by rw [Block.insns_eq_append ht]; simp))
    · have := hfree t ht hc hne
      rwa [Block.free, hi, Block.freeReads_withTarget, ← Block.insns_eq_append ht]
    · rw [Block.mem_exits_conditional ht' hc, hn, Insn.block_withTarget] at hx
      omega

theorem mem_exits_of_caseBlocks {fn : String} {i : Nat} {bs cs : List Block}
    (h : p.caseBlocks fn i jumps bs = .ok (cs, es)) : ∀ e ∈ es, ∃ b ∈ bs, e ∈ b.exits := by
  induction bs generalizing i jumps cs es with
  | nil =>
    obtain ⟨-, rfl⟩ := Prod.mk.inj (Except.ok.inj h)
    simp
  | cons b bs ih =>
    obtain ⟨c, mid, cs', es', h₁, h₂, rfl, rfl⟩ := caseBlocks_cons h
    intro e he
    rcases List.mem_append.mp he with he | he
    · refine ⟨b, by simp, ?_⟩
      cases makesCase_of_caseBlock h₁ with
      | leaving => simp at he
      | returning => simp at he
      | branching t ht hc _ _ _ =>
        rw [Block.mem_exits_conditional ht hc]
        simpa using he
    · obtain ⟨b', hb', he'⟩ := ih h₂ e he
      exact ⟨b', by simp [hb'], he'⟩

/-- **Every block for an edge has its edge.** -/
theorem exists_exit_of_caseBlocks {fn : String} {i : Nat} {bs cs : List Block}
    (h : p.caseBlocks fn i jumps bs = .ok (cs, es)) {k : Nat} (hk : k < es.length) :
    ∃ (x : Nat) (c : Block), cs[x]? = some c ∧ p.firstJump + (jumps + k : Nat) ∈ c.exits := by
  induction bs generalizing i jumps cs es k with
  | nil =>
    obtain ⟨-, rfl⟩ := Prod.mk.inj (Except.ok.inj h)
    simp at hk
  | cons b bs ih =>
    obtain ⟨c, mid, cs', es', h₁, h₂, rfl, rfl⟩ := caseBlocks_cons h
    by_cases hmid : k < mid.length
    · refine ⟨0, c, rfl, ?_⟩
      cases makesCase_of_caseBlock h₁ with
      | leaving => simp at hmid
      | returning => simp at hmid
      | branching t ht hc hi hn _ =>
        have hends : (t.withTarget (p.firstJump + jumps)).op.endsBlock = true := by
          simpa using Block.endsBlock_of_terminator? ht
        rw [Block.mem_exits_conditional (Block.terminator?_of_append hi hends) hc, hn,
          Insn.block_withTarget]
        simp only [List.length_cons, List.length_nil] at hmid
        omega
    · rw [List.length_append] at hk
      obtain ⟨x, c', hc', he⟩ := ih h₂ (k := k - mid.length) (by omega)
      refine ⟨x + 1, c', by simpa using hc', ?_⟩
      rwa [show jumps + mid.length + (k - mid.length) = jumps + k by omega] at he

end CasePlan

/-! ## Chained functions -/

namespace Func

/-- **A function with a chain of comparisons in front of its work.** -/
structure Chained (f : Func) (p : CasePlan) (v : Var) : Prop where
  wellFormed : f.WellFormed
  length_le : 2 * p.count ≤ f.blocks.length
  /-- The first block sets the state to the first case. -/
  prologue : ∃ b, f.block? 0 = some b ∧ b.insns = [p.store 0, .goto 1]
  /-- The comparisons follow. -/
  comparison : ∀ {i : Nat}, i + 1 < p.count →
    f.content? ((i + 1 : Nat) : Int) = some (p.comparison i).content
  /-- The cases follow. -/
  case : ∀ {s b}, (p.count : Int) ≤ s → s < 2 * p.count → f.block? s = some b → p.Works v b
  /-- The blocks for edges come last, each with its edge. -/
  jump : ∀ {s b}, 2 * (p.count : Int) ≤ s → s ≠ p.dispatch → f.block? s = some b →
    (∃ j < p.count, b.insns = p.transfer j) ∧
      ∃ x, (p.count : Int) ≤ x ∧ x < 2 * p.count ∧ f.Edge x s
  /-- Jumps back go through a block that goes to the first comparison, if not there at once. -/
  back : ∀ {b}, p.dispatch ≠ 1 → f.block? p.dispatch = some b → b.insns = [.goto 1]

variable {f g : Func} {p : CasePlan} {v : Var} {s x y : Int} {b : Block}

theorem Chained.withMaturity (h : f.Chained p v) (m : Maturity) :
    Chained { f with maturity := m } p v :=
  ⟨h.wellFormed.withMaturity m, h.length_le, h.prologue, h.comparison, h.case, h.jump, h.back⟩

namespace Chained

/-! ### Edges -/

/-- A block behind the comparisons works, or is the one that jumps go back through. -/
theorem behind (h : f.Chained p v) (hp : p.Sound v) (hs : (p.count : Int) ≤ s)
    (hb : f.block? s = some b) : p.Works v b ∨ (s = p.dispatch ∧ b.insns = [.goto 1]) := by
  have h3 := hp.three_le
  by_cases hcase : s < 2 * p.count
  · exact .inl (h.case hs hcase hb)
  · by_cases hd : s = p.dispatch
    · exact .inr ⟨hd, h.back (by omega) (hd ▸ hb)⟩
    · obtain ⟨⟨j, hj, hi⟩, -⟩ := h.jump (by omega) hd hb
      exact .inl (.sets [] j hj hi (by simp))

theorem exists_comparison (h : f.Chained p v) {i : Nat} (hi : i + 1 < p.count) :
    ∃ b, f.block? ((i + 1 : Nat) : Int) = some b ∧ b.content = (p.comparison i).content :=
  content?_eq_some_iff.mp (h.comparison hi)

theorem exists_case (h : f.Chained p v) (hs : (p.count : Int) ≤ s) (hs' : s < 2 * p.count) :
    ∃ b, f.block? s = some b ∧ p.Works v b := by
  have hlen := h.length_le
  obtain ⟨b, hb⟩ := exists_block? (f := f) (s := s) (by omega) (by omega)
  exact ⟨b, hb, h.case hs hs' hb⟩

end Chained

theorem next_comparison {i : Nat} (hi : i + 1 < p.count)
    (hc : b.content = (p.comparison i).content) :
    b.next = if i + 2 < p.count then ((i + 2 : Nat) : Int) else 2 * p.count - 1 := by
  rw [Block.next_congr hc]
  change (if i + 2 < p.count then ((i + 2 : Nat) : Int) else p.caseSerial (p.count - 1)) = _
  unfold CasePlan.caseSerial
  split <;> omega

theorem exits_comparison {i : Nat} (hi : i + 1 < p.count)
    (hc : b.content = (p.comparison i).content) :
    b.exits = [if i + 2 < p.count then ((i + 2 : Nat) : Int) else 2 * p.count - 1,
      (p.count : Int) + i] := by
  obtain ⟨ht, -⟩ := p.terminator?_comparison i
  rw [← Block.terminator?_congr hc] at ht
  have htarget : (Insn.branch .jz p.state (p.label i) (p.caseSerial i)).d.block =
      (p.count : Int) + i := rfl
  rw [Block.exits_conditional ht rfl, next_comparison hi hc, htarget, if_neg]
  split <;> omega

namespace Chained

/-- **Where control can go**: into the chain at its start, along it, out of it, and behind it. -/
theorem edge (h : f.Chained p v) (hp : p.Sound v) (he : f.Edge x y) :
    (x = 0 ∧ y = 1) ∨
      (∃ i : Nat, i + 1 < p.count ∧ x = (i + 1 : Nat) ∧
        (y = (i + 2 : Nat) ∨ ((p.count : Int) ≤ y ∧ y < 2 * p.count))) ∨
      ((p.count : Int) ≤ x ∧ (y = 1 ∨ 2 * (p.count : Int) ≤ y)) := by
  obtain ⟨b, hb, hy⟩ := he
  have h3 := hp.three_le
  have hx := lt_of_block? hb
  obtain ⟨k, rfl⟩ := Int.eq_ofNat_of_zero_le hx.1
  rcases Nat.lt_or_ge k p.count with hk | hk
  · cases k with
    | zero =>
      obtain ⟨b₀, hb₀, hi₀⟩ := h.prologue
      obtain rfl := Option.mem_unique hb hb₀
      have hi₀ : b.insns = [p.store 0] ++ [.goto 1] := hi₀
      rw [Block.exits_of_goto hi₀] at hy
      exact .inl ⟨rfl, List.mem_singleton.mp hy⟩
    | succ i =>
      obtain ⟨b₁, hb₁, hc⟩ := h.exists_comparison hk
      obtain rfl := Option.mem_unique hb hb₁
      rw [exits_comparison hk hc, List.mem_cons, List.mem_singleton] at hy
      refine .inr (.inl ⟨i, hk, rfl, ?_⟩)
      rcases hy with hy | hy
      · split at hy
        · exact .inl hy
        · exact .inr (by omega)
      · exact .inr (by omega)
  · refine .inr (.inr ⟨by omega, ?_⟩)
    rcases h.behind hp (by omega) hb with hw | ⟨-, hi⟩
    · rcases hw.exits hy with hd | hd
      · have := hp.dispatch
        omega
      · exact .inr hd.1
    · have hi : b.insns = [] ++ [.goto 1] := hi
      rw [Block.exits_of_goto hi] at hy
      exact .inl (List.mem_singleton.mp hy)

/-! ### Compaction -/

/-- The comparisons and the cases can be reached. -/
theorem mem_visited (h : f.Chained p v) (hp : p.Sound v) {k : Nat} (hk : k < 2 * p.count) :
    (k : Int) ∈ f.visited := by
  have hf := h.wellFormed.toVerified
  have h3 := hp.three_le
  have hne : f.blocks ≠ [] := by
    obtain ⟨b₀, hb₀, -⟩ := h.prologue
    exact List.ne_nil_of_mem (mem_of_block? hb₀)
  have hentry : (1 : Int) ∈ f.visited := by
    obtain ⟨b₀, hb₀, hi₀⟩ := h.prologue
    have hi₀ : b₀.insns = [p.store 0] ++ [.goto 1] := hi₀
    refine mem_visited_of_edge hf (visited_closed hne).1 ⟨b₀, hb₀, ?_⟩
    rw [Block.exits_of_goto hi₀]
    exact List.mem_singleton.mpr rfl
  have hchain : ∀ i : Nat, i + 1 < p.count → ((i + 1 : Nat) : Int) ∈ f.visited := by
    intro i
    induction i with
    | zero => exact fun _ => hentry
    | succ i ih =>
      intro hi
      obtain ⟨b, hb, hc⟩ := h.exists_comparison (i := i) (by omega)
      refine mem_visited_of_edge hf (ih (by omega)) ⟨b, hb, ?_⟩
      rw [exits_comparison (by omega) hc, if_pos (by omega), List.mem_cons]
      exact .inl rfl
  rcases Nat.lt_or_ge k p.count with hlt | hge
  · cases k with
    | zero => exact (visited_closed hne).1
    | succ i => exact hchain i hlt
  · -- a case is an exit of its comparison, and the last one of the comparison before it
    by_cases hlast : k + 1 = 2 * p.count
    · obtain ⟨b, hb, hc⟩ := h.exists_comparison (i := p.count - 2) (by omega)
      refine mem_visited_of_edge hf (hchain _ (by omega)) ⟨b, hb, ?_⟩
      rw [exits_comparison (by omega) hc, if_neg (by omega), List.mem_cons]
      exact .inl (by omega)
    · obtain ⟨b, hb, hc⟩ := h.exists_comparison (i := k - p.count) (by omega)
      refine mem_visited_of_edge hf (hchain _ (by omega)) ⟨b, hb, ?_⟩
      rw [exits_comparison (by omega) hc]
      simp only [List.mem_cons]
      omega

theorem reachableFirst (h : f.Chained p v) (hp : p.Sound v) : f.ReachableFirst := by
  intro s r hs hr hrs
  have hf := h.wellFormed.toVerified
  have h3 := hp.three_le
  obtain ⟨b, hb⟩ := exists_of_mem_visited hf hs
  have hlt := lt_of_block? hb
  by_cases hcase : r < 2 * p.count
  · obtain ⟨k, rfl⟩ := Int.eq_ofNat_of_zero_le hr
    exact h.mem_visited hp (by omega)
  have hcases : ∀ {x : Int}, (p.count : Int) ≤ x → x < 2 * p.count → x ∈ f.visited := by
    intro x hx hx'
    obtain ⟨k, rfl⟩ := Int.eq_ofNat_of_zero_le (show 0 ≤ x by omega)
    exact h.mem_visited hp (by omega)
  by_cases hd : r = p.dispatch
  · -- a block behind the one that jumps go back through jumps there
    have hdisp := hp.dispatch
    obtain ⟨⟨j, -, hi⟩, -⟩ := h.jump (by omega) (by omega) hb
    have hi : b.insns = [] ++ p.transfer j := hi
    refine hd ▸ mem_visited_of_edge hf hs ⟨b, hb, ?_⟩
    rw [Block.exits_goto (CasePlan.terminator?_of_transfer hi).1 rfl]
    exact List.mem_singleton.mpr rfl
  · obtain ⟨b', hb'⟩ := exists_block? (f := f) hr (by omega)
    obtain ⟨-, x, hx, hx', he⟩ := h.jump (by omega) hd hb'
    exact mem_visited_of_edge hf (hcases hx hx') he

/-- Compaction keeps the blocks that are left as they were. -/
theorem exists_of_compacts (h : f.Chained p v) (hp : p.Sound v) (hc : f.Compacts g) {b' : Block}
    (hb' : g.block? s = some b') :
    ∃ b, f.block? s = some b ∧ s ∈ f.visited ∧ b.Retargets id b' := by
  have hf := h.wellFormed.toVerified
  have hfirst : f.ReachableFirst := h.reachableFirst hp
  obtain ⟨r, b, hb, hr, hren, -⟩ := hc.exists_of_block? hf hb'
  obtain rfl : r = s := (hfirst.renumber hf hr).symm.trans hren
  obtain ⟨b'', hb'', hret⟩ := hc.exists_same hf hfirst hr hb
  obtain rfl := Option.mem_unique hb' hb''
  exact ⟨b, hb, hr, hret⟩

theorem edge_of_compacts (h : f.Chained p v) (hp : p.Sound v) (hc : f.Compacts g)
    (he : g.Edge x y) : f.Edge x y := by
  obtain ⟨b', hb', hy⟩ := he
  obtain ⟨b, hb, -, hr⟩ := h.exists_of_compacts hp hc hb'
  exact ⟨b, hb, hr.exits_id ▸ hy⟩

/-- **A chained function stays one when it is compacted.** -/
theorem compacts (h : f.Chained p v) (hp : p.Sound v) (hc : f.Compacts g) : g.Chained p v := by
  have hf := h.wellFormed.toVerified
  have hfirst : f.ReachableFirst := h.reachableFirst hp
  have h3 := hp.three_le
  have hsame : ∀ {k : Nat} {b}, k < 2 * p.count → f.block? k = some b →
      ∃ b', g.block? k = some b' ∧ b.Retargets id b' := fun hk hb =>
    hc.exists_same hf hfirst (h.mem_visited hp hk) hb
  refine ⟨hc.wellFormed, ?_, ?_, fun {i} hi => ?_, fun {s b'} hs hs' hb' => ?_,
    fun {s b'} hs hd hb' => ?_, fun {b'} hd hb' => ?_⟩
  · obtain ⟨b, hb⟩ := exists_block? (f := f) (s := ((2 * p.count - 1 : Nat) : Int)) (by omega)
      (by have := h.length_le; omega)
    obtain ⟨b', hb', -⟩ := hsame (by omega) hb
    have := lt_of_block? hb'
    omega
  · obtain ⟨b, hb, hi⟩ := h.prologue
    obtain ⟨b', hb', hr⟩ := hsame (k := 0) (by omega) hb
    exact ⟨b', hb', hr.insns_id.trans hi⟩
  · obtain ⟨b, hb, hbc⟩ := h.exists_comparison hi
    obtain ⟨b', hb', hr⟩ := hsame (by omega) hb
    have hterm := (Block.terminator?_congr hbc).trans (p.terminator?_comparison i).1
    refine content?_eq_some_iff.mpr ⟨b', hb', ?_⟩
    rw [← hbc, Block.content, Block.content, hr.insns_id,
      hr.next_eq (Block.falls_of_conditional hterm rfl), id]
  · obtain ⟨b, hb, -, hr⟩ := h.exists_of_compacts hp hc hb'
    exact (h.case hs hs' hb).congr hr.insns_id hr.exits_id
  · obtain ⟨b, hb, hreach, hr⟩ := h.exists_of_compacts hp hc hb'
    obtain ⟨⟨j, hj, hi⟩, x, hx, hx', b₁, hb₁, he⟩ := h.jump hs hd hb
    obtain ⟨k, rfl⟩ := Int.eq_ofNat_of_zero_le (lt_of_block? hb₁).1
    obtain ⟨b₁', hb₁', hr₁⟩ := hsame (by omega) hb₁
    exact ⟨⟨j, hj, hr.insns_id.trans hi⟩, k, hx, hx', b₁', hb₁', hr₁.exits_id.symm ▸ he⟩
  · obtain ⟨b, hb, -, hr⟩ := h.exists_of_compacts hp hc hb'
    exact hr.insns_id.trans (h.back hd hb)

end Chained

/-! ## Flattenings -/

namespace Laid

variable {w : Func} {loopEnd : Bool} {cs bs : List Block} {es : List Int} {fn : String}

theorem works (h : w.Laid p loopEnd cs es) (hn : 2 ≤ p.count)
    (hcs : p.caseBlocks fn 0 0 bs = .ok (cs, es)) (hlen : bs.length = p.count)
    (hfits : ∀ b ∈ bs, b.Fits p.count) (hv : ∀ b ∈ bs, b.All (Insn.Ignores v))
    (hfree : ∀ b ∈ bs, ∀ t, b.terminator? = some t → t.op.isConditional = true →
      t.d.block ≠ b.next → b.free ≠ [])
    (hjump : 2 * (p.count : Int) ≤ p.firstJump) (hdisp : p.dispatch < p.firstJump)
    (hs : (p.count : Int) ≤ s) (hs' : s < 2 * p.count) (hb : w.block? s = some b) :
    p.Works v b := by
  obtain ⟨i, rfl⟩ : ∃ i : Nat, s = ((p.count + i : Nat) : Int) := ⟨(s - p.count).toNat, by omega⟩
  obtain ⟨b₀, hb₀⟩ : ∃ b₀, bs[i]? = some b₀ := ⟨_, List.getElem?_eq_getElem (by omega)⟩
  have hmem := List.mem_of_getElem? hb₀
  obtain ⟨c, pre, mid, post, hc, -, hm⟩ := CasePlan.makesCase_of_caseBlocks hcs hb₀
  obtain ⟨b', hb', hcb⟩ := h.exists_block (CasePlan.getElem?_case hn hc)
  obtain rfl := Option.mem_unique hb hb'
  exact (hm.works (hfits b₀ hmem) (hv b₀ hmem) (hfree b₀ hmem) hjump hdisp).congr
    (Block.insns_congr hcb) (Block.exits_congr hcb)

theorem jump (h : w.Laid p loopEnd cs es) (hn : 2 ≤ p.count)
    (hcs : p.caseBlocks fn 0 0 bs = .ok (cs, es)) (hlen : bs.length = p.count)
    (hfits : ∀ b ∈ bs, b.Fits p.count)
    (hjump : p.firstJump = ((2 * p.count + (p.loopEnds loopEnd).length : Nat) : Int))
    (hs : p.firstJump ≤ s) (hb : w.block? s = some b) :
    (∃ j < p.count, b.insns = p.transfer j) ∧
      ∃ x, (p.count : Int) ≤ x ∧ x < 2 * p.count ∧ w.Edge x s := by
  have hcslen : cs.length = p.count := (CasePlan.length_caseBlocks hcs).trans hlen
  obtain ⟨k, rfl⟩ : ∃ k : Nat, s = p.firstJump + k := ⟨(s - p.firstJump).toNat, by omega⟩
  have hser : p.firstJump + k = ((2 * p.count + (p.loopEnds loopEnd).length + k : Nat) : Int) := by
    omega
  -- the place is behind all cases, so it is that of an edge
  have hk : k < es.length := by
    have hcont := (h (2 * p.count + (p.loopEnds loopEnd).length + k)).symm.trans
      (content?_of_block? (hser ▸ hb))
    obtain ⟨c, hc, -⟩ := Option.map_eq_some_iff.mp hcont
    have hlt := (List.getElem?_eq_some_iff.mp hc).1
    simp only [List.length_append, CasePlan.length_front hn, hcslen, CasePlan.jumpBlocks,
      List.length_mapIdx] at hlt
    omega
  constructor
  · obtain ⟨j, hj⟩ : ∃ j, es[k]? = some j := ⟨_, List.getElem?_eq_getElem hk⟩
    obtain ⟨b', hb', hi⟩ := h.forwards hn hcslen hjump hj
    obtain rfl := Option.mem_unique hb hb'
    obtain ⟨b₀, hb₀, hx⟩ := CasePlan.mem_exits_of_caseBlocks hcs j (List.mem_of_getElem? hj)
    have hj := (hfits b₀ hb₀).inside j hx
    obtain ⟨i, rfl⟩ := Int.eq_ofNat_of_zero_le hj.1
    exact ⟨i, by omega, hi⟩
  · obtain ⟨x, c, hc, hx⟩ := CasePlan.exists_exit_of_caseBlocks hcs hk
    obtain ⟨b', hb', hcb⟩ := h.exists_block (CasePlan.getElem?_case hn hc)
    have hlt := (List.getElem?_eq_some_iff.mp hc).1
    refine ⟨_, ?_, ?_, b', hb', Block.exits_congr hcb ▸ ?_⟩
    · omega
    · omega
    · simpa using hx

end Laid

/-- **Every flattening leaves a chain of comparisons in front of its work.** -/
theorem chained_of_flatten {opts : FlattenOptions} (hf : f.Shaped) (h3 : 3 ≤ f.blocks.length)
    (hcount : opts.stateOrDefault.size = 8 → f.blocks.length ≤ 2 ^ 57)
    (hfree : ∀ b ∈ f.blocks, ∀ t, b.terminator? = some t → t.op.isConditional = true →
      t.d.block ≠ b.next → b.free ≠ [])
    (hlocal : ∀ v, opts.stateOrDefault.var? = some v → v.isGlobal = false)
    (h₁ : 1 ≤ opts.stateOrDefault.size) (h₈ : opts.stateOrDefault.size ≤ 8)
    (h : f.flatten opts = .ok g) :
    ∃ p v, p.Sound v ∧ g.Chained p v ∧ p.count = f.blocks.length ∧
      p.state = opts.stateOrDefault ∧
      stateConstants opts.seed p.count p.state.size = some p.consts ∧
      p.dispatch = (if opts.loopEnd then 2 * (p.count : Int) else 1) ∧
      g.maturity = f.maturity := by
  obtain ⟨p, v, bs, w, hn, hstate, hdisp, hjump, hvar, huser, hconsts, hbs, hw, rfl⟩ :=
    exists_plan_of_flatten (by omega) h
  obtain ⟨cs, es, hcs, rfl⟩ := CasePlan.blocks_eq hbs
  rw [← hn] at h3 hdisp hjump hcount
  rw [← hstate] at hlocal h₁ h₈ hcount
  have hlen : cs.length = p.count := by rw [CasePlan.length_caseBlocks hcs, hn]
  have hfirst : p.firstJump = ((2 * p.count + (p.loopEnds opts.loopEnd).length : Nat) : Int) := by
    rw [hjump, CasePlan.loopEnds]
    split <;> simp
  have hplace : (opts.loopEnd = false ∧ p.dispatch = 1 ∧ p.firstJump = 2 * p.count) ∨
      (opts.loopEnd = true ∧ p.dispatch = 2 * p.count ∧ p.firstJump = 2 * p.count + 1) := by
    cases hle : opts.loopEnd <;> simp_all
  have hplain : ∀ c ∈ p.front ++ cs ++ p.loopEnds opts.loopEnd ++ p.jumpBlocks es,
      Plain c.body := fun c hc =>
    (CasePlan.shape_of_mem (by omega) (by omega) (by omega) hf.endsLast hcs hc).1
  obtain ⟨hwf, hat⟩ := ofBlocks_spec hplain hw
  have hlaid : Laid { w with maturity := f.maturity } p opts.loopEnd cs es := fun _ => hat
  have hblock : ∀ {b}, b ∈ f.blocks → ∃ i : Int, f.block? i = some b := exists_block?_of_mem
  have hfits : ∀ b ∈ f.blocks, b.Fits p.count := fun b hb => by
    obtain ⟨i, hi⟩ := hblock hb
    exact hn ▸ hf.fits hi
  have hunused : ∀ b ∈ f.blocks, b.All (Insn.Ignores v) := fun b hb => by
    obtain ⟨i, hi⟩ := hblock hb
    exact unused_of_userOf? huser hi
  refine ⟨p, v, CasePlan.sound_of_stateConstants h3 hcount hvar (hlocal v hvar) h₁ h₈ hconsts
    (by omega), ⟨hwf.withMaturity _, ?_, hlaid.prologue (by omega), fun {i} hi => ?_,
    fun hs hs' hb => ?_, fun hs hd hb => ?_, fun hd hb => ?_⟩, hn, hstate, hconsts, hdisp, rfl⟩
  · obtain ⟨c, hc⟩ : ∃ c, cs[p.count - 1]? = some c := ⟨_, List.getElem?_eq_getElem (by omega)⟩
    obtain ⟨b, hb, -⟩ := hlaid.exists_block (CasePlan.getElem?_case (by omega) hc)
    have := lt_of_block? hb
    omega
  · exact (hlaid (i + 1)).trans (by rw [CasePlan.getElem?_comparison hi]; rfl)
  · exact hlaid.works (by omega) hcs hn.symm hfits hunused hfree (by omega) (by omega) hs hs' hb
  · exact hlaid.jump (by omega) hcs hn.symm hfits hfirst (by omega) hb
  · rcases hlaid.back (by omega) hlen hdisp with h₁ | ⟨b', hb', hi⟩
    · exact absurd h₁ hd
    · obtain rfl := Option.mem_unique hb hb'
      exact hi

end Func

end Deflatten

import Deflatten.Proofs.Dispatch.Regions
import Deflatten.Proofs.Flattening.Chain

/-!
# Proofs/Flattening/Dispatcher — the region that a chain of comparisons is

Growth from the first comparison runs down the chain and then collects the cases on its way back
(`Region.grow_chain`).  The region that it leaves has the comparisons inside and the cases as its
exits (`Region.Dispatches`), and in it the number of a case leads to that case
(`Region.Dispatches.resolvePath?`).
-/

namespace Deflatten

/-! ## Blocks of a plan -/

namespace CasePlan

variable {p : CasePlan} {v : Var} {b : Block} {i : Nat}

/-- **What a comparison reads and writes.** -/
theorem comparison_spec (hv : p.state.var? = some v) (hi : b.insns = (p.comparison i).insns) :
    b.uses = [v] ∧ b.defs = [] ∧ b.free = [v] ∧ b.comparison? = some ⟨p.label i, p.state⟩ := by
  have hreads : (Insn.branch .jz p.state (p.label i) (p.caseSerial i)).reads = [v] := by
    simp [Insn.reads, Insn.branch, Operand.reads_of_var? hv, label, Operand.imm, Operand.reads,
      Fields.var?, Operand.target, Operand.kind, Operand.fields]
  have hi : b.insns = [.branch .jz p.state (p.label i) (p.caseSerial i)] := hi
  refine ⟨?_, ?_, ?_, ?_⟩
  · simp [Block.uses, hi, hreads, distinct]
  · simp [Block.defs, hi, Insn.defs, Insn.def?, Insn.branch, Opcode.definesDest,
      Opcode.isConditional, distinct]
  · simp [Block.free, hi, Block.freeReads, Insn.uses, hreads, distinct]
  · have himm : p.state.isImm = false := by simp [Operand.isImm, (Operand.kind_of_var? hv).1]
    have hcomp : p.state.isComparable = true := by simp [Operand.isComparable, Operand.isVar, hv]
    have hlabel : (p.label i).isImm = true := rfl
    simp [Block.comparison?, Block.tail?, hi, Insn.branch, Opcode.isFlatteningJump,
      Opcode.isConditional, himm, hcomp, hlabel]

theorem value_comparison (p : CasePlan) (i : Nat) :
    (Comparison.mk (p.label i) p.state).value = p.number i := truncate_truncate ..

/-- A block that works and does not choose ends in no comparison. -/
theorem Works.tail? (h : p.Works v b) : (∃ t, b.tail? = some t ∧ t.op.isFlatteningJump = false) ∨
    (b.free ≠ [] ∧ v ∉ b.free ∧ ∀ x ∈ b.exits, 2 * (p.count : Int) ≤ x ∧ x ≠ p.dispatch) := by
  cases h with
  | sets is j hj hi hv =>
    refine .inl ⟨.goto p.dispatch, ?_, rfl⟩
    simp [Block.tail?, hi, transfer]
  | returns t ht hr hv =>
    refine .inl ⟨t, (Option.filter_eq_some_iff.mp ht).1, ?_⟩
    rw [hr]
    rfl
  | chooses t ht hc hv hfree hexits =>
    exact .inr ⟨hfree, Block.All.not_mem_free fun i hi => (hv i hi).2, hexits⟩

end CasePlan

theorem Block.comparison?_eq_none {b : Block} {t : Insn} (ht : b.tail? = some t)
    (hop : t.op.isFlatteningJump = false) : b.comparison? = none := by
  simp [comparison?, ht, hop]

/-! ## Growth -/

namespace Region

variable {f : Func} {p : CasePlan} {v : Var} {d : Region} {father x : BlockInfo} {b : Block}
  {s : Int} {ss : List Int} {stack : List (BlockInfo × List Int)} {fuel i : Nat}

/-- **What is known of a comparison once it is found**: where it stands, what it compares, and that
the state is all that is set on the way to it. -/
structure Compares (f : Func) (p : CasePlan) (v : Var) (i : Nat) (x : BlockInfo) : Prop where
  /-- It is the comparison of the plan. -/
  lt : i + 1 < p.count
  /-- It is the block at its place. -/
  block_eq : f.block? ((i + 1 : Nat) : Int) = some x.block
  place_eq : x.place = (i + 1 : Nat)
  comparison_eq : x.comparison? = some ⟨p.label i, p.state⟩
  /-- What is set on the way. -/
  assumed : ∀ w, w ∈ x.assumed ↔ w = v

theorem Compares.serial_eq (h : Compares f p v i x) (hf : f.Shaped) :
    x.serial = (i + 1 : Nat) := hf.placed h.block_eq

/-- The next comparison belongs to the chain. -/
theorem Compares.child (h : Compares f p v i x) (hstate : p.state.var? = some v)
    (hi : i + 2 < p.count) (hb : f.block? ((i + 2 : Nat) : Int) = some b)
    (hins : b.insns = (p.comparison (i + 1)).insns) :
    belongs x (x.child b ((i + 2 : Nat) : Int)) = true ∧
      Compares f p v (i + 1) (x.child b ((i + 2 : Nat) : Int)) := by
  obtain ⟨-, hdefs, hfree, hcomp⟩ := CasePlan.comparison_spec hstate hins
  have htail : b.tail? = some (.branch .jz p.state (p.label (i + 1)) (p.caseSerial (i + 1))) := by
    rw [Block.tail?, hins]
    rfl
  have hflat : Opcode.jz.isFlatteningJump = true := rfl
  refine ⟨?_, by omega, hb, rfl, hcomp, fun w => ?_⟩
  · simp [belongs, BlockInfo.child, BlockInfo.ofBlock, BlockInfo.needsOnly, hfree, h.assumed, htail,
      Insn.branch, hflat]
  · simp [BlockInfo.child, BlockInfo.ofBlock, hdefs, h.assumed]

/-- A block that works does not. -/
theorem Compares.not_belongs (h : Compares f p v i x) (hw : p.Works v b) (s : Int) :
    belongs x (x.child b s) = false := by
  rcases hw.tail? with ⟨t, ht, hop⟩ | ⟨hfree, hv, -⟩
  · simp [belongs, BlockInfo.child, BlockInfo.ofBlock, ht, hop]
  · obtain ⟨w, hw⟩ := List.exists_mem_of_ne_nil _ hfree
    have hne : ¬ (x.child b s).needsOnly x.assumed = true := by
      simp only [BlockInfo.needsOnly, List.all_eq_true, decide_eq_true_eq, h.assumed]
      intro hall
      exact hv (hall w hw ▸ hw)
    simp [belongs, hne]

theorem Compares.succs_eq (h : Compares f p v i x) (hf : f.Chained p v) : x.block.succs =
    [if i + 2 < p.count then ((i + 2 : Nat) : Int) else 2 * p.count - 1, (p.count : Int) + i] := by
  obtain ⟨b, hb, hc⟩ := hf.exists_comparison h.lt
  obtain rfl := Option.mem_unique hb h.block_eq
  rw [hf.wellFormed.succs_eq hb, Func.exits_comparison h.lt hc]

/-- The serials from one on, so many of them. -/
def serialsFrom (s n : Nat) : List Int := (List.range' s n).map Nat.cast

theorem mem_serialsFrom {s n : Nat} {x : Int} : x ∈ serialsFrom s n ↔ (s : Int) ≤ x ∧ x < s + n := by
  simp only [serialsFrom, List.mem_map, List.mem_range'_1]
  constructor
  · rintro ⟨k, hk, rfl⟩
    omega
  · intro hx
    exact ⟨x.toNat, by omega, by omega⟩

theorem length_serialsFrom (s n : Nat) : (serialsFrom s n).length = n := by
  simp [serialsFrom]

theorem serialsFrom_succ (s n : Nat) :
    serialsFrom s (n + 1) = (s : Int) :: serialsFrom (s + 1) n := by
  simp [serialsFrom, List.range'_succ]

/-- **At the last comparison growth comes to two cases**, the last one by the fall-through. -/
theorem grow_last (hf : f.Chained p v) (hi : i + 2 = p.count) (hx : Compares f p v i x)
    (hout : ∀ s, (p.count : Int) + i ≤ s → s < 2 * p.count → d.Unseen s) (fuel : Nat)
    (stack : List (BlockInfo × List Int)) :
    ∃ outs, grow f (fuel + 3) ((x, x.block.succs) :: stack) d =
        grow f fuel stack (d.extend [] outs) ∧
      outs.map BlockInfo.place = (serialsFrom (p.count + i) 2).reverse := by
  obtain ⟨b₁, hb₁, hw₁⟩ := hf.exists_case (s := 2 * p.count - 1) (by omega) (by omega)
  obtain ⟨b₂, hb₂, hw₂⟩ := hf.exists_case (s := (p.count : Int) + i) (by omega) (by omega)
  refine ⟨[x.child b₁ (2 * p.count - 1), x.child b₂ ((p.count : Int) + i)], ?_, ?_⟩
  · rw [hx.succs_eq hf, if_neg (by omega),
      grow_exit (hout _ (by omega) (by omega)) hb₁ (hx.not_belongs hw₁ _),
      grow_exit ((hout _ (by omega) (by omega)).extend (by simp) (by
        simp [BlockInfo.child, BlockInfo.ofBlock]
        omega)) hb₂ (hx.not_belongs hw₂ _), extend_extend]
    rfl
  · have hlast : (2 * p.count - 1 : Int) = ((p.count + i + 1 : Nat) : Int) := by omega
    simp [serialsFrom, List.range'_succ, BlockInfo.child, BlockInfo.ofBlock, hlast]

/-- **Growth runs down the chain, and collects the cases on its way back.**  A comparison is pushed,
led through its fall-through and its case, and popped: three steps for each.  The induction is on the
comparisons that are left. -/
theorem grow_chain (hf : f.Chained p v) (hp : p.Sound v) {m : Nat} :
    ∀ {i : Nat} {x : BlockInfo} {d : Region}, i + m + 2 = p.count → Compares f p v i x →
      (∀ s, ((i + 1 : Nat) : Int) < s → s < p.count → d.Unseen s) →
      (∀ s, (p.count : Int) + i ≤ s → s < 2 * p.count → d.Unseen s) →
      ∀ (fuel : Nat) (stack : List (BlockInfo × List Int)), ∃ ints outs,
        grow f (fuel + 3 * (m + 1)) ((x, x.block.succs) :: stack) d =
          grow f fuel stack (d.extend ints outs) ∧
        ints.map BlockInfo.place = serialsFrom (i + 2) m ∧
        (∀ y ∈ ints, ∃ j, Compares f p v j y) ∧
        outs.map BlockInfo.place = (serialsFrom (p.count + i) (m + 2)).reverse := by
  induction m with
  | zero =>
    intro i x d hi hx _ hout fuel stack
    obtain ⟨outs, hgrow, houts⟩ := grow_last hf hi hx hout fuel stack
    exact ⟨[], outs, hgrow, rfl, by simp, houts⟩
  | succ m ih =>
    intro i x d hi hx hin hout fuel stack
    obtain ⟨b₁, hb₁, hc₁⟩ := hf.exists_comparison (i := i + 1) (by omega)
    obtain ⟨hbel, hchild⟩ := hx.child hp.state_eq (by omega) hb₁ (Block.insns_congr hc₁)
    obtain ⟨b₂, hb₂, hw₂⟩ := hf.exists_case (s := (p.count : Int) + i) (by omega) (by omega)
    have hser : (x.child b₁ ((i + 2 : Nat) : Int)).serial = ((i + 2 : Nat) : Int) :=
      hf.wellFormed.placed hb₁
    have hnew : ∀ {s : Int}, ((i + 2 : Nat) : Int) ≠ s →
        ∀ y ∈ [x.child b₁ ((i + 2 : Nat) : Int)], y.serial ≠ s := by
      intro s hs y hy
      obtain rfl := List.mem_singleton.mp hy
      rwa [hser]
    obtain ⟨ints, outs, hgrow, hints, hall, houts⟩ := ih (i := i + 1)
      (d := d.extend [x.child b₁ ((i + 2 : Nat) : Int)] []) (by omega) hchild
      (fun s hs hs' => (hin s (by omega) hs').extend (hnew (by omega)) (by simp))
      (fun s hs hs' => (hout s (by omega) hs').extend (hnew (by omega)) (by simp))
      (fuel + 2) ((x, [(p.count : Int) + i]) :: stack)
    -- what was found below is not the case that comes next
    have hints' : ∀ y ∈ ints, y.serial ≠ (p.count : Int) + i := by
      intro y hy
      obtain ⟨j, hj⟩ := hall y hy
      have := hj.lt
      rw [hj.serial_eq hf.wellFormed.toShaped]
      omega
    have houts' : ∀ y ∈ outs, y.place ≠ (p.count : Int) + i := by
      intro y hy
      have hmem : y.place ∈ outs.map BlockInfo.place := List.mem_map_of_mem hy
      rw [houts, List.mem_reverse, mem_serialsFrom] at hmem
      omega
    have hun : ((d.extend [x.child b₁ ((i + 2 : Nat) : Int)] []).extend ints outs).Unseen
        ((p.count : Int) + i) :=
      ((hout _ (by omega) (by omega)).extend (hnew (by omega)) (by simp)).extend hints' houts'
    refine ⟨x.child b₁ ((i + 2 : Nat) : Int) :: ints, outs ++ [x.child b₂ ((p.count : Int) + i)],
      ?_, ?_, ?_, ?_⟩
    · rw [hx.succs_eq hf, if_pos (by omega),
        show fuel + 3 * (m + 1 + 1) = fuel + 2 + 3 * (m + 1) + 1 by omega,
        grow_internal (hin _ (by omega) (by omega)) hb₁ hbel]
      refine hgrow.trans ?_
      rw [grow_exit hun hb₂ (hx.not_belongs hw₂ _), extend_extend, extend_extend]
      simp [grow]
    · rw [List.map_cons, hints, serialsFrom_succ]
      rfl
    · rintro y (_ | ⟨_, hy⟩)
      · exact ⟨i + 1, hchild⟩
      · exact hall y hy
    · rw [List.map_append, houts, serialsFrom_succ (p.count + i), List.reverse_cons]
      rfl

/-! ## The region of a plan -/

/-- **A region that dispatches for a plan**: its internal blocks are the comparisons, the first of
them the entry, and its exits the cases. -/
structure Dispatches (d : Region) (p : CasePlan) (v : Var) : Prop where
  /-- It switches on the state. -/
  state_eq : d.state? = some v
  /-- It is entered at the first comparison. -/
  entry : ∃ x, d.entry? = some x ∧ x.serial = 1 ∧ x.place = 1
  /-- There is a comparison for each case but the last. -/
  length_eq : d.internal.length + 1 = p.count
  /-- The comparisons are internal. -/
  isInternal : ∀ s, d.isInternal s = true ↔ 1 ≤ s ∧ s < p.count
  /-- The cases are exits. -/
  isExit : ∀ s, d.isExit s = true ↔ (p.count : Int) ≤ s ∧ s < 2 * p.count

theorem sortedSerials_eq {ss ss' : List Int} (hmem : ∀ s, s ∈ ss ↔ s ∈ ss')
    (hs : ss'.Pairwise (· < ·)) : sortedSerials ss = ss' := by
  have hperm : (sortedSerials ss).Perm ss' := by
    refine (List.mergeSort_perm _ _).trans
      ((List.perm_ext_iff_of_nodup (nodup_distinct ss) (hs.imp fun h => Int.ne_of_lt h)).mpr ?_)
    simpa using hmem
  have hsorted : (sortedSerials ss).Pairwise (· ≤ ·) := by
    refine (List.pairwise_mergeSort (fun a b c => ?_) (fun a b => ?_) (distinct ss)).imp ?_
    · simpa using Int.le_trans
    · simpa using Int.le_total a b
    · simp
  exact hperm.eq_of_pairwise (fun a b _ _ => Int.le_antisymm) hsorted
    (hs.imp fun h => Int.le_of_lt h)

theorem pairwise_serialsFrom (s n : Nat) : (serialsFrom s n).Pairwise (· < ·) := by
  rw [serialsFrom, List.pairwise_map]
  exact (List.pairwise_lt_range' 1).imp fun h => by omega

namespace Dispatches

theorem entrySerial_eq (h : d.Dispatches p v) : d.entrySerial = 1 := by
  obtain ⟨x, hx, hser, -⟩ := h.entry
  rw [entrySerial, hx, Option.elim_some, hser]

theorem isInternal_eq_false (h : d.Dispatches p v) (hs : ¬ (1 ≤ s ∧ s < p.count)) :
    d.isInternal s = false := by
  rw [← Bool.not_eq_true, h.isInternal]
  exact hs

theorem internalSerials_eq (h : d.Dispatches p v) :
    d.internalSerials = serialsFrom 1 (p.count - 1) := by
  have hlen := h.length_eq
  refine sortedSerials_eq (fun s => ?_) (pairwise_serialsFrom ..)
  rw [mem_serialsFrom, List.mem_map]
  have := h.isInternal s
  simp only [Region.isInternal, List.any_eq_true, beq_iff_eq] at this
  rw [this]
  omega

theorem exitSerials_eq (h : d.Dispatches p v) : d.exitSerials = serialsFrom p.count p.count := by
  refine sortedSerials_eq (fun s => ?_) (pairwise_serialsFrom ..)
  rw [mem_serialsFrom, List.mem_map]
  have := h.isExit s
  simp only [Region.isExit, List.any_eq_true, beq_iff_eq] at this
  rw [this]
  omega

/-! ## Resolution -/

/-- A comparison is left for its case if the state has its number, and for the next one if not. -/
theorem choose?_comparison (hp : p.Sound v) {e : Env} {k : Nat} (hk : k < p.count)
    (he : e.get? v = some (p.number k)) (hi : i + 1 < p.count)
    (hc : b.content = (p.comparison i).content) :
    b.execBody e = e ∧ b.choose? e = some (if i = k then (p.count : Int) + k else b.next) := by
  obtain ⟨ht, hbody⟩ := p.terminator?_comparison i
  rw [← Block.terminator?_congr hc] at ht
  rw [← Block.body_congr hc] at hbody
  have hstate : e.value? p.state = some (p.number k) := by
    rw [Env.value?, Operand.value?_of_var? hp.state_eq, he, Option.map_some, CasePlan.number,
      truncate_truncate]
  have hlabel : e.value? (p.label i) = some (p.number i) := rfl
  have htest := CasePlan.test?_numbers hp.number_inj (i := i) (by omega) hk
  refine ⟨by rw [Block.execBody, hbody, List.foldl_nil], ?_⟩
  have hjz : Opcode.jz.isConditional = true := rfl
  simp only [Block.choose?, ht, Insn.branch, reduceCtorEq, if_false, hjz, if_true, hstate, hlabel,
    Option.bind_eq_bind, Option.bind_some, htest, Option.pure_def]
  by_cases hik : i = k
  · simp only [hik, decide_true, if_true]
    rfl
  · simp only [hik, decide_false, Bool.false_eq_true, if_false]

variable {e : Env} {k : Nat} {path : List Int}

theorem walk?_case (h : d.Dispatches p v) (hk : k < p.count) :
    d.walk? f (fuel + 1) e path ((p.count : Int) + k) = .ok (some ((p.count : Int) + k, path)) := by
  rw [walk?, if_pos ((h.isExit _).mpr (by omega))]

/-- One comparison, and where it leads. -/
theorem walk?_comparison (h : d.Dispatches p v) (hp : p.Sound v) (hk : k < p.count)
    (he : e.get? v = some (p.number k)) (hi : i + 1 < p.count)
    (hcmp : f.content? ((i + 1 : Nat) : Int) = some (p.comparison i).content)
    (hpath : ∀ x ∈ path, x < ((i + 1 : Nat) : Int)) :
    d.walk? f (fuel + 1) e path ((i + 1 : Nat) : Int) =
      d.walk? f fuel e (path ++ [((i + 1 : Nat) : Int)])
        (if i = k then (p.count : Int) + k
          else if i + 2 < p.count then ((i + 2 : Nat) : Int) else 2 * p.count - 1) := by
  obtain ⟨b, hb, hc⟩ := Func.content?_eq_some_iff.mp hcmp
  obtain ⟨hbody, hchoose⟩ := choose?_comparison hp hk he hi hc
  rw [Func.next_comparison hi hc] at hchoose
  have hout : ¬ d.isExit ((i + 1 : Nat) : Int) = true := by
    rw [h.isExit]
    omega
  have hin : d.isInternal ((i + 1 : Nat) : Int) = true := (h.isInternal _).mpr (by omega)
  have hfresh : ((i + 1 : Nat) : Int) ∉ path := fun hmem => by
    have := hpath _ hmem
    omega
  rw [walk?, if_neg hout, hin]
  simp only [Bool.not_true, hfresh, decide_false, Bool.or_self, Bool.false_eq_true, if_false,
    Func.getBlock_of_block? hb, bind, Except.bind, hbody, hchoose]

/-- From a comparison that is not past it, the walk comes to the case of the state.  The induction
is on the comparisons that are left. -/
theorem walk?_chain (h : d.Dispatches p v) (hp : p.Sound v)
    (hcmp : ∀ {i : Nat}, i + 1 < p.count →
      f.content? ((i + 1 : Nat) : Int) = some (p.comparison i).content)
    (hk : k < p.count) (he : e.get? v = some (p.number k)) {m : Nat} :
    ∀ {i : Nat} (path : List Int), i + m + 2 = p.count → i ≤ k →
      (∀ x ∈ path, x < ((i + 1 : Nat) : Int)) →
      ∃ path', d.walk? f (m + 2) e path ((i + 1 : Nat) : Int) =
        .ok (some ((p.count : Int) + k, path')) := by
  induction m with
  | zero =>
    intro i path hi hik hpath
    rw [walk?_comparison h hp hk he (by omega) (hcmp (by omega)) hpath]
    split
    · exact ⟨_, walk?_case h hk⟩
    · -- the last comparison falls into the last case
      rw [if_neg (by omega), show (2 * p.count - 1 : Int) = p.count + k by omega]
      exact ⟨_, walk?_case h hk⟩
  | succ m ih =>
    intro i path hi hik hpath
    rw [walk?_comparison h hp hk he (by omega) (hcmp (by omega)) hpath]
    split
    · exact ⟨_, walk?_case h hk⟩
    · rw [if_pos (by omega)]
      refine ih _ (by omega) (by omega) fun x hx => ?_
      rcases List.mem_append.mp hx with hx | hx
      · have := hpath x hx
        omega
      · have := List.mem_singleton.mp hx
        omega

/-- **The number of a case leads to the case.** -/
theorem resolvePath? (h : d.Dispatches p v) (hp : p.Sound v)
    (hcmp : ∀ {i : Nat}, i + 1 < p.count →
      f.content? ((i + 1 : Nat) : Int) = some (p.comparison i).content) (hk : k < p.count) :
    ∃ path, d.resolvePath? f (p.number k) = .ok (some ((p.count : Int) + k, path)) := by
  have h3 := hp.three_le
  have hlen := h.length_eq
  obtain ⟨x, hx, hser, -⟩ := h.entry
  have he : (Table.ofList [(v, p.number k)]).get? v = some (p.number k) := by simp [Table.ofList]
  obtain ⟨path, hwalk⟩ := h.walk?_chain hp hcmp hk he (m := p.count - 2) (i := 0) []
    (by omega) (Nat.zero_le k) (by simp)
  refine ⟨path, ?_⟩
  simp only [Region.resolvePath?, h.state_eq, hx, hser]
  rw [show d.internal.length + 1 = p.count - 2 + 2 by omega]
  exact hwalk

end Dispatches

end Region

end Deflatten

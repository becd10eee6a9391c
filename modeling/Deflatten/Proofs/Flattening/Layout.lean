import Deflatten.Flattening.Flatten
import Deflatten.Proofs.Editing.Retarget
import Deflatten.Proofs.Microcode.FixedWidth
import Mathlib.Data.List.Nodup

/-!
# Proofs/Flattening/Layout — the blocks of a flattened function and where they stand

`Func.Flattens f g p v` reads the plan off the result: under which serial `g` has the first block,
the comparisons, the case of each block of `f` and the blocks that only set the state, and that the
state variable `v` is not used by `f` and told apart by the numbers of the cases.  Every flattening
that succeeds has the planned blocks in their places (`Func.Laid`), so it gives such a function, in
order and never coming back to its entry (`flattens_of_flatten`).
-/

namespace Deflatten

/-! ## The numbers of the cases -/

theorem drawConstants_spec {size : Int} {draws need : Nat} {seen cs : List UInt64} {g : Generator}
    (h : drawConstants size draws need seen g = some cs) :
    cs.length = need ∧ cs.Nodup ∧
      ∀ c ∈ cs, c ∉ seen ∧ truncate c size = c ∧ isBalanced size c = true := by
  induction draws generalizing need seen cs g with
  | zero =>
    cases need with
    | zero =>
      obtain rfl : [] = cs := by simpa [drawConstants] using h
      simp
    | succ need => simp [drawConstants] at h
  | succ draws ih =>
    cases need with
    | zero =>
      obtain rfl : [] = cs := by simpa [drawConstants] using h
      simp
    | succ need =>
      rw [drawConstants] at h
      dsimp only at h
      split at h
      · next hv =>
        obtain ⟨cs', hcs', rfl⟩ := Option.map_eq_some_iff.mp h
        obtain ⟨hlen, hnodup, hall⟩ := ih hcs'
        obtain ⟨hbal, hv⟩ := Bool.and_eq_true_iff.mp hv
        have hv : truncate g.next.1 size ∉ seen := by simpa using hv
        refine ⟨by simp [hlen], List.nodup_cons.mpr ⟨fun hmem => ?_, hnodup⟩, fun c hc => ?_⟩
        · exact (hall _ hmem).1 (by simp)
        · rcases List.mem_cons.mp hc with rfl | hc
          · exact ⟨hv, truncate_truncate .., hbal⟩
          · obtain ⟨hns, ht, hbal⟩ := hall c hc
            exact ⟨fun hs => hns (by simp [hs]), ht, hbal⟩
      · exact ih h

/-- **No more constants are drawn than the bytes of the state tell apart.** -/
theorem le_of_stateConstants {seed : UInt64} {n : Nat} {size : Int} {cs : List UInt64}
    (h : stateConstants seed n size = some cs) : n ≤ 2 ^ bitWidth size := by
  obtain ⟨hlen, hnodup, hall⟩ := drawConstants_spec h
  have hmap : (cs.map UInt64.toNat).Nodup := hnodup.map fun _ _ => UInt64.toNat_inj.mp
  have hsub : cs.map UInt64.toNat ⊆ List.range (2 ^ bitWidth size) := by
    intro k hk
    obtain ⟨c, hc, rfl⟩ := List.mem_map.mp hk
    rw [List.mem_range, ← (hall c hc).2.1, toNat_truncate]
    exact Nat.mod_lt _ (Nat.two_pow_pos _)
  have hle := hmap.length_le_of_subset hsub
  rwa [List.length_map, List.length_range, hlen] at hle

namespace CasePlan

/-- The number of a case, as wide as the state. -/
def number (p : CasePlan) (j : Int) : UInt64 :=
  truncate (p.consts[j.toNat]?.getD 0) p.state.size

/-- The numbers are the constants that were drawn. -/
theorem getElem?_consts {p : CasePlan} {seed : UInt64}
    (h : stateConstants seed p.count p.state.size = some p.consts) {i : Nat} (hi : i < p.count) :
    p.consts[i]? = some (p.number i) := by
  obtain ⟨hlen, -, hall⟩ := drawConstants_spec h
  have hlt : i < p.consts.length := by omega
  rw [number, Int.toNat_natCast, List.getElem?_eq_getElem hlt, Option.getD_some,
    (hall _ (List.getElem_mem hlt)).2.1]

theorem number_inj {p : CasePlan} {seed : UInt64}
    (h : stateConstants seed p.count p.state.size = some p.consts) {i j : Nat} (hi : i < p.count)
    (hj : j < p.count) (hij : p.number i = p.number j) : i = j := by
  obtain ⟨hlen, hnodup, -⟩ := drawConstants_spec h
  have hne := List.nodup_iff_getElem?_ne_getElem?.mp hnodup
  have heq : p.consts[i]? = p.consts[j]? := by
    rw [getElem?_consts h hi, getElem?_consts h hj, hij]
  rcases Nat.lt_trichotomy i j with hlt | heq' | hgt
  · exact absurd heq (hne i j hlt (by omega))
  · exact heq'
  · exact absurd heq.symm (hne j i hgt (by omega))

/-- **A comparison tells the numbers apart.** -/
theorem test?_numbers {p : CasePlan}
    (hinj : ∀ {i j : Nat}, i < p.count → j < p.count → p.number i = p.number j → i = j) {i k : Nat}
    (hi : i < p.count) (hk : k < p.count) :
    Opcode.jz.test? (p.number k) (p.number i) (max p.state.size (p.label i).size) =
      some (decide (i = k)) := by
  have hsize : max p.state.size (p.label i).size = p.state.size := Int.max_self _
  have hnum : ∀ j, truncate (p.number j) p.state.size = p.number j := fun j => truncate_truncate ..
  rw [hsize]
  simp only [Opcode.test?, hnum, Option.some.injEq]
  rw [Bool.eq_iff_iff, beq_iff_eq, decide_eq_true_iff]
  exact ⟨fun heq => (hinj hk hi heq).symm, fun heq => by rw [heq]⟩

/-! ## Cases -/

variable {p : CasePlan} {fn : String} {i jumps : Nat} {b c : Block} {es : List Int}

/-- **What the case of a block is**: the body and a transfer, a block that returns, or a conditional
jump between two blocks that are still to come. -/
inductive MakesCase (p : CasePlan) (jumps : Nat) (b c : Block) : List Int → Prop
  | leaving (j : Int) (hi : c.insns = b.body ++ p.transfer j) (hl : ∀ m, b.leave m = .toward j)
      (hx : j ∈ b.exits) : MakesCase p jumps b c []
  | returning (t : Insn) (ht : b.terminator? = some t) (hr : t.op = .ret)
      (hi : c.insns = b.insns) : MakesCase p jumps b c []
  | branching (t : Insn) (ht : b.terminator? = some t) (hc : t.op.isConditional = true)
      (hi : c.insns = b.body ++ [t.withTarget (p.firstJump + jumps)])
      (hn : c.next = p.firstJump + jumps + 1) (hne : t.d.block ≠ b.next) :
      MakesCase p jumps b c [t.d.block, b.next]

theorem makesCase_of_caseBlock (h : p.caseBlock fn i jumps b = .ok (c, es)) :
    p.MakesCase jumps b c es := by
  unfold caseBlock at h
  cases ht : b.terminator? with
  | none =>
    simp only [ht] at h
    split at h
    · cases h
    · next hnext =>
      obtain ⟨rfl, rfl⟩ := Prod.mk.inj (Except.ok.inj h)
      exact .leaving b.next (by rw [Block.body_eq_insns ht]; rfl) (fun m => Block.leave_none ht m)
        (by simp [Block.exits_none ht, hnext])
  | some t =>
    simp only [ht] at h
    rcases t.op.cases_of_endsBlock (Block.endsBlock_of_terminator? ht) with hr | hg | hc
    · simp only [hr, reduceCtorEq, if_false, if_true] at h
      obtain ⟨rfl, rfl⟩ := Prod.mk.inj (Except.ok.inj h)
      exact .returning t ht hr rfl
    · simp only [hg, if_true] at h
      obtain ⟨rfl, rfl⟩ := Prod.mk.inj (Except.ok.inj h)
      exact .leaving t.d.block rfl (fun m => Block.leave_goto ht hg m)
        (by simp [Block.exits_goto ht hg])
    · obtain ⟨hr, hg⟩ := t.op.ne_of_isConditional hc
      simp only [hr, hg, if_false] at h
      split at h
      · next heq =>
        obtain ⟨rfl, rfl⟩ := Prod.mk.inj (Except.ok.inj h)
        refine .leaving b.next rfl (fun m => ?_) ((Block.mem_exits_conditional ht hc).mpr (.inr rfl))
        obtain ⟨taken, htest⟩ :=
          Opcode.test?_of_isConditional hc (m.value t.l) (m.value t.r) (max t.l.size t.r.size)
        rw [Block.leave_conditional ht htest, heq, ite_self]
      · next hne =>
        obtain ⟨rfl, rfl⟩ := Prod.mk.inj (Except.ok.inj h)
        refine .branching t ht hc ?_ rfl hne
        have ht' : b.copy.terminator? = some t := ht
        exact Block.insns_mapTail ht' _

theorem caseBlocks_cons {bs cs : List Block}
    (h : p.caseBlocks fn i jumps (b :: bs) = .ok (cs, es)) :
    ∃ c mid cs' es', p.caseBlock fn i jumps b = .ok (c, mid) ∧
      p.caseBlocks fn (i + 1) (jumps + mid.length) bs = .ok (cs', es') ∧ cs = c :: cs' ∧
      es = mid ++ es' := by
  unfold caseBlocks at h
  cases h₁ : p.caseBlock fn i jumps b with
  | error e => simp [h₁, bind, Except.bind] at h
  | ok r =>
    obtain ⟨c, mid⟩ := r
    cases h₂ : p.caseBlocks fn (i + 1) (jumps + mid.length) bs with
    | error e => simp [h₁, h₂, bind, Except.bind] at h
    | ok r =>
      obtain ⟨cs', es'⟩ := r
      obtain ⟨rfl, rfl⟩ : c :: cs' = cs ∧ mid ++ es' = es := by
        simpa [h₁, h₂, bind, Except.bind, pure, Except.pure] using h
      exact ⟨c, mid, cs', es', rfl, h₂, rfl, rfl⟩

/-- **The cases stand in the order of the blocks**, and the edges of each in the order of all. -/
theorem makesCase_of_caseBlocks {bs cs : List Block} (h : p.caseBlocks fn i jumps bs = .ok (cs, es))
    {k : Nat} (hb : bs[k]? = some b) :
    ∃ c pre mid post, cs[k]? = some c ∧ es = pre ++ mid ++ post ∧
      p.MakesCase (jumps + pre.length) b c mid := by
  induction bs generalizing i jumps cs es k with
  | nil => simp at hb
  | cons b₀ bs ih =>
    obtain ⟨c₀, mid₀, cs', es', h₁, h₂, rfl, rfl⟩ := caseBlocks_cons h
    cases k with
    | zero =>
      obtain rfl : b₀ = b := by simpa using hb
      exact ⟨c₀, [], mid₀, es', rfl, rfl, makesCase_of_caseBlock h₁⟩
    | succ k =>
      obtain ⟨c, pre, mid, post, hc, rfl, hm⟩ := ih h₂ (by simpa using hb)
      refine ⟨c, mid₀ ++ pre, mid, post, by simpa using hc, by simp, ?_⟩
      rw [List.length_append, ← Nat.add_assoc]
      exact hm

theorem length_caseBlocks {bs cs : List Block} (h : p.caseBlocks fn i jumps bs = .ok (cs, es)) :
    cs.length = bs.length := by
  induction bs generalizing i jumps cs es with
  | nil =>
    obtain ⟨rfl, -⟩ := Prod.mk.inj (Except.ok.inj h)
    rfl
  | cons b₀ bs ih =>
    obtain ⟨c₀, mid₀, cs', es', -, h₂, rfl, -⟩ := caseBlocks_cons h
    simp [ih h₂]

/-! ## Blocks that transfer -/

/-- The instruction that sets the state to a case. -/
def store (p : CasePlan) (j : Int) : Insn := .mov (p.label j) p.state

theorem def?_store {p : CasePlan} {v : Var} (hv : p.state.var? = some v) (j : Int) :
    (p.store j).def? = some v := hv

theorem result?_store (p : CasePlan) (j : Int) (read : Var → Option UInt64) :
    (p.store j).result? read = some (p.number j) := by
  simp [store, Insn.mov, Insn.result?, label, Operand.imm, Operand.value?, Fields.value?,
    Opcode.isUnary, Opcode.compute?, number]

theorem plain_store (p : CasePlan) (j : Int) : Plain [p.store j] := fun i hi => by
  obtain rfl := List.mem_singleton.mp hi
  rfl

/-- A block that transfers ends in a jump to the dispatcher. -/
theorem terminator?_of_transfer {is : List Insn} {j : Int} (hi : c.insns = is ++ p.transfer j) :
    c.terminator? = some (.goto p.dispatch) ∧ c.body = is ++ [p.store j] := by
  have hi : c.insns = (is ++ [p.store j]) ++ [.goto p.dispatch] := by
    rw [hi, List.append_assoc]
    rfl
  exact ⟨Block.terminator?_of_append hi rfl, Block.body_of_append hi rfl⟩

/-- **A case ends in place, and goes to the dispatcher or to a block of its own.** -/
theorem MakesCase.shape (h : p.MakesCase jumps b c es) (hp : Plain b.body) :
    Plain c.body ∧ ∀ x ∈ c.exits, x = p.dispatch ∨ x = p.firstJump + jumps ∨
      x = p.firstJump + jumps + 1 := by
  cases h with
  | leaving j hi _ _ =>
    obtain ⟨ht, hb⟩ := terminator?_of_transfer hi
    refine ⟨hb ▸ hp.append (p.plain_store j), fun x hx => .inl ?_⟩
    rw [Block.exits_goto ht rfl] at hx
    exact List.mem_singleton.mp hx
  | returning t ht hr hi =>
    have hi' := hi.trans (Block.insns_eq_append ht)
    have hends := Block.endsBlock_of_terminator? ht
    refine ⟨Block.body_of_append hi' hends ▸ hp, fun x hx => ?_⟩
    simp [Block.exits_ret (Block.terminator?_of_append hi' hends) hr] at hx
  | branching t ht hc hi hn _ =>
    have hends : (t.withTarget (p.firstJump + jumps)).op.endsBlock = true := by
      simpa using Block.endsBlock_of_terminator? ht
    refine ⟨Block.body_of_append hi hends ▸ hp, fun x hx => .inr ?_⟩
    rw [Block.mem_exits_conditional (Block.terminator?_of_append hi hends) hc, hn,
      Insn.block_withTarget] at hx
    exact hx

/-! ## The list of all blocks -/

/-- The block that all jumps back go through, if there is one. -/
def loopEnds (p : CasePlan) (loopEnd : Bool) : List Block :=
  if loopEnd then [Block.ofInsns p.dispatch [.goto 1]] else []

/-- The blocks for the edges of conditional jumps. -/
def jumpBlocks (p : CasePlan) (es : List Int) : List Block :=
  es.mapIdx fun k j => Block.ofInsns (p.firstJump + k) (p.transfer j)

/-- The blocks that come before the cases. -/
def front (p : CasePlan) : List Block := p.prologue :: (List.range (p.count - 1)).map p.comparison

theorem blocks_eq {loopEnd : Bool} {bs bs' : List Block} (h : p.blocks fn loopEnd bs = .ok bs') :
    ∃ cs es, p.caseBlocks fn 0 0 bs = .ok (cs, es) ∧
      bs' = p.front ++ cs ++ p.loopEnds loopEnd ++ p.jumpBlocks es := by
  unfold blocks at h
  cases h₁ : p.caseBlocks fn 0 0 bs with
  | error e => simp [h₁, bind, Except.bind] at h
  | ok r =>
    obtain ⟨cs, es⟩ := r
    refine ⟨cs, es, rfl, ?_⟩
    rw [h₁] at h
    exact (Except.ok.inj h).symm

theorem length_front (hn : 2 ≤ p.count) : p.front.length = p.count := by
  rw [front, List.length_cons, List.length_map, List.length_range]
  omega

variable {cs : List Block} {loopEnd : Bool}

theorem getElem?_front {k : Nat} (hk : k < p.front.length) :
    (p.front ++ cs ++ p.loopEnds loopEnd ++ p.jumpBlocks es)[k]? = p.front[k]? := by
  rw [List.append_assoc, List.append_assoc, List.getElem?_append_left hk]

theorem getElem?_comparison (hi : i + 1 < p.count) :
    (p.front ++ cs ++ p.loopEnds loopEnd ++ p.jumpBlocks es)[i + 1]? = some (p.comparison i) := by
  rw [getElem?_front (by rw [length_front] <;> omega), front, List.getElem?_cons_succ,
    List.getElem?_map, List.getElem?_range (by omega)]
  rfl

theorem getElem?_case (hn : 2 ≤ p.count) {k : Nat} (hk : cs[k]? = some c) :
    (p.front ++ cs ++ p.loopEnds loopEnd ++ p.jumpBlocks es)[p.count + k]? = some c := by
  have hlt := (List.getElem?_eq_some_iff.mp hk).1
  have hfront := length_front hn
  rw [List.append_assoc, List.getElem?_append_left (by rw [List.length_append]; omega),
    List.getElem?_append_right (by omega), hfront, Nat.add_sub_cancel_left, hk]

theorem getElem?_jump (hn : 2 ≤ p.count) (hcs : cs.length = p.count) {k : Nat} {j : Int}
    (hk : es[k]? = some j) :
    (p.front ++ cs ++ p.loopEnds loopEnd ++ p.jumpBlocks es)[
        2 * p.count + (p.loopEnds loopEnd).length + k]? =
      some (Block.ofInsns (p.firstJump + k) (p.transfer j)) := by
  have hfront := length_front hn
  have hlen : (p.front ++ cs ++ p.loopEnds loopEnd).length =
      2 * p.count + (p.loopEnds loopEnd).length := by
    simp only [List.length_append]
    omega
  rw [List.getElem?_append_right (by omega), hlen, Nat.add_sub_cancel_left]
  simp [jumpBlocks, hk]

theorem getElem?_loopEnd (hn : 2 ≤ p.count) (hcs : cs.length = p.count) :
    (p.front ++ cs ++ p.loopEnds true ++ p.jumpBlocks es)[2 * p.count]? =
      some (Block.ofInsns p.dispatch [.goto 1]) := by
  have hfront := length_front hn
  have hlen : (p.front ++ cs).length = 2 * p.count := by
    rw [List.length_append]
    omega
  rw [List.append_assoc, List.getElem?_append_right (by omega), hlen, Nat.sub_self]
  rfl

/-- A block that ends in a jump ends in place. -/
theorem shape_of_goto {is : List Insn} {t : Int} (hi : c.insns = is ++ [.goto t]) (hp : Plain is)
    (ht : 0 < t) : Plain c.body ∧ 0 ∉ c.exits := by
  refine ⟨Block.body_of_append hi rfl ▸ hp, fun h₀ => ?_⟩
  rw [Block.exits_goto (Block.terminator?_of_append hi rfl) rfl] at h₀
  have : 0 = t := List.mem_singleton.mp h₀
  omega

/-- A comparison branches to its case or on. -/
theorem terminator?_comparison (p : CasePlan) (i : Nat) :
    (p.comparison i).terminator? = some (.branch .jz p.state (p.label i) (p.caseSerial i)) ∧
      (p.comparison i).body = [] := by
  have hi : (p.comparison i).insns =
      [] ++ [.branch .jz p.state (p.label i) (p.caseSerial i)] := rfl
  exact ⟨Block.terminator?_of_append hi rfl, Block.body_of_append hi rfl⟩

theorem shape_comparison (hn : 2 ≤ p.count) (i : Nat) :
    Plain (p.comparison i).body ∧ 0 ∉ (p.comparison i).exits := by
  obtain ⟨ht, hb⟩ := p.terminator?_comparison i
  refine ⟨hb ▸ plain_nil, fun h₀ => ?_⟩
  rw [Block.mem_exits_conditional ht rfl] at h₀
  rcases h₀ with h₀ | h₀
  · have : (0 : Int) = p.count + i := h₀
    omega
  · have : (0 : Int) = if i + 2 < p.count then (i : Int) + 2 else p.caseSerial (p.count - 1) := h₀
    unfold caseSerial at this
    split at this <;> omega

/-- **Every block ends in place, and none goes to the first.** -/
theorem shape_of_mem (hdisp : 0 < p.dispatch) (hjump : 0 < p.firstJump) (hn : 2 ≤ p.count)
    {bs : List Block} (hplain : ∀ b ∈ bs, Plain b.body)
    (h : p.caseBlocks fn 0 0 bs = .ok (cs, es))
    (hc : c ∈ p.front ++ cs ++ p.loopEnds loopEnd ++ p.jumpBlocks es) :
    Plain c.body ∧ 0 ∉ c.exits := by
  simp only [front, List.mem_append, List.mem_cons, List.mem_map] at hc
  rcases hc with (((rfl | ⟨i, -, rfl⟩) | hc) | hc) | hc
  · have hi : p.prologue.insns = [p.store 0] ++ [.goto 1] := rfl
    exact shape_of_goto hi (p.plain_store 0) (by omega)
  · exact shape_comparison hn i
  · obtain ⟨k, hk⟩ := List.mem_iff_getElem?.mp hc
    have hlt := (List.getElem?_eq_some_iff.mp hk).1
    have hb := List.getElem?_eq_getElem (length_caseBlocks h ▸ hlt)
    obtain ⟨c', pre, mid, post, hc', -, hm⟩ := makesCase_of_caseBlocks h hb
    obtain rfl := Option.mem_unique hk hc'
    obtain ⟨hp, hx⟩ := hm.shape (hplain _ (List.mem_of_getElem? hb))
    refine ⟨hp, fun h₀ => ?_⟩
    rcases hx 0 h₀ with h | h | h <;> omega
  · unfold loopEnds at hc
    split at hc
    · obtain rfl := List.mem_singleton.mp hc
      have hi : (Block.ofInsns p.dispatch [.goto 1]).insns = [] ++ [.goto 1] := rfl
      exact shape_of_goto hi plain_nil (by omega)
    · cases hc
  · obtain ⟨k, hk⟩ := List.mem_iff_getElem?.mp hc
    rw [jumpBlocks, List.getElem?_mapIdx, Option.map_eq_some_iff] at hk
    obtain ⟨j, -, rfl⟩ := hk
    have hi : (Block.ofInsns (p.firstJump + k) (p.transfer j)).insns =
        [p.store j] ++ [.goto p.dispatch] := rfl
    exact shape_of_goto hi (p.plain_store j) hdisp

end CasePlan

/-- The operand that holds the state. -/
def FlattenOptions.stateOrDefault (opts : FlattenOptions) : Operand :=
  if opts.state.isNone then defaultState else opts.state

/-! ## Flattened functions -/

namespace Func

/-- The block under a serial sets the state to a case and goes to the dispatcher. -/
def Forwards (g : Func) (p : CasePlan) (s j : Int) : Prop :=
  ∃ b, g.block? s = some b ∧ b.insns = p.transfer j

/-- **The case `b'` of a block `b`**, with the blocks for its edges. -/
inductive CaseOf (g : Func) (p : CasePlan) (b b' : Block) : Prop
  /-- All control goes to one block. -/
  | leaving (j : Int) (hi : b'.insns = b.body ++ p.transfer j) (hl : ∀ m, b.leave m = .toward j)
  /-- The block returns. -/
  | returning (t : Insn) (ht : b.terminator? = some t) (hr : t.op = .ret) (hi : b'.insns = b.insns)
  /-- Control goes two ways. -/
  | branching (t : Insn) (taken : Int) (ht : b.terminator? = some t)
      (hc : t.op.isConditional = true) (hi : b'.insns = b.body ++ [t.withTarget taken])
      (hn : b'.next = taken + 1) (htaken : g.Forwards p taken t.d.block)
      (hnext : g.Forwards p (taken + 1) b.next)

/-- **`g` is `f` with its control flow through a dispatcher.** -/
structure Flattens (f g : Func) (p : CasePlan) (v : Var) : Prop where
  wellFormed : g.WellFormed
  /-- Nothing goes back to its entry. -/
  enteredOnce : g.EnteredOnce
  count_eq : p.count = f.blocks.length
  two_le : 2 ≤ p.count
  state_eq : p.state.var? = some v
  /-- No instruction uses it. -/
  unused : ∀ {s b}, f.block? s = some b → ∀ i ∈ b.insns, i.def? ≠ some v ∧ v ∉ i.reads
  number_inj : ∀ {i j : Nat}, i < p.count → j < p.count → p.number i = p.number j → i = j
  prologue : ∃ b, g.block? 0 = some b ∧ b.insns = [p.store 0, .goto 1]
  comparison : ∀ {i : Nat}, i + 1 < p.count →
    g.content? ((i + 1 : Nat) : Int) = some (p.comparison i).content
  /-- Jumps back go to the first comparison, or to a block that goes there. -/
  back : p.dispatch = 1 ∨ ∃ b, g.block? p.dispatch = some b ∧ b.insns = [.goto 1]
  case : ∀ {i : Nat} {b}, f.block? i = some b →
    ∃ b', g.block? (p.caseSerial i) = some b' ∧ g.CaseOf p b b'

variable {f g : Func} {opts : FlattenOptions}

/-- The steps of a flattening that succeeds. -/
theorem exists_plan_of_flatten (hn : 2 ≤ f.blocks.length) (h : f.flatten opts = .ok g) :
    ∃ (p : CasePlan) (v : Var) (bs : List Block) (w : Func), p.count = f.blocks.length ∧
      p.state = opts.stateOrDefault ∧
      p.dispatch = (if opts.loopEnd then 2 * (f.blocks.length : Int) else 1) ∧
      p.firstJump = (if opts.loopEnd then 2 * (f.blocks.length : Int) + 1
        else 2 * f.blocks.length) ∧
      p.state.var? = some v ∧ f.userOf? v = none ∧
      stateConstants opts.seed p.count p.state.size = some p.consts ∧
      p.blocks f.name opts.loopEnd f.blocks = .ok bs ∧ ofBlocks f.name bs = .ok w ∧
      g = { w with maturity := f.maturity } := by
  unfold flatten at h
  dsimp only at h
  split at h
  · cases h
  · next v hv =>
    rw [if_neg (by omega)] at h
    split at h
    · cases h
    · next huser =>
      split at h
      · cases h
      · next consts hconsts =>
        dsimp only [bind, Except.bind] at h
        split at h
        · cases h
        · next bs hbs =>
          split at h
          · next w hw =>
            exact ⟨_, v, bs, w, rfl, rfl, rfl, rfl, hv, huser, hconsts, hbs, hw, (Except.ok.inj h).symm⟩
          · cases h

theorem unused_of_userOf? {v : Var} (h : f.userOf? v = none) {s : Int} {b : Block}
    (hb : f.block? s = some b) : ∀ i ∈ b.insns, i.def? ≠ some v ∧ v ∉ i.reads := by
  intro i hi
  have := List.find?_eq_none.mp h b (mem_of_block? hb)
  simp only [Bool.or_eq_true, not_or, Block.definesVar, List.any_eq_true, not_exists, not_and,
    Block.uses, decide_eq_true_eq, mem_distinct, List.mem_flatMap, beq_iff_eq] at this
  exact ⟨this.1 i hi, this.2 i hi⟩

/-! ## The planned blocks in their places -/

/-- **A function with the planned blocks, each at its place.** -/
def Laid (w : Func) (p : CasePlan) (loopEnd : Bool) (cs : List Block) (es : List Int) : Prop :=
  ∀ k : Nat, w.content? k =
    (p.front ++ cs ++ p.loopEnds loopEnd ++ p.jumpBlocks es)[k]?.map Block.content

namespace Laid

variable {w : Func} {p : CasePlan} {loopEnd : Bool} {cs : List Block} {es : List Int} {k : Nat}
  {c : Block}

theorem exists_block (h : w.Laid p loopEnd cs es)
    (hc : (p.front ++ cs ++ p.loopEnds loopEnd ++ p.jumpBlocks es)[k]? = some c) :
    ∃ b, w.block? k = some b ∧ b.content = c.content :=
  content?_eq_some_iff.mp ((h k).trans (by rw [hc]; rfl))

theorem enteredOnce (h : w.Laid p loopEnd cs es)
    (hexits : ∀ c ∈ p.front ++ cs ++ p.loopEnds loopEnd ++ p.jumpBlocks es, 0 ∉ c.exits) :
    w.EnteredOnce := by
  rintro x ⟨b, hb, hx⟩
  obtain ⟨k, rfl⟩ := Int.eq_ofNat_of_zero_le (lt_of_block? hb).1
  have hc := (h k).symm.trans (content?_of_block? hb)
  obtain ⟨c, hc, hcb⟩ := Option.map_eq_some_iff.mp hc
  exact hexits c (List.mem_of_getElem? hc) (Block.exits_congr hcb ▸ hx)

theorem prologue (h : w.Laid p loopEnd cs es) (hn : 2 ≤ p.count) :
    ∃ b, w.block? 0 = some b ∧ b.insns = [p.store 0, .goto 1] := by
  have hlt : 0 < p.front.length := by rw [CasePlan.length_front hn]; omega
  obtain ⟨b, hb, hc⟩ := h.exists_block (CasePlan.getElem?_front hlt)
  exact ⟨b, hb, Block.insns_congr hc⟩

theorem back (h : w.Laid p loopEnd cs es) (hn : 2 ≤ p.count) (hlen : cs.length = p.count)
    (hdisp : p.dispatch = if loopEnd then 2 * (p.count : Int) else 1) :
    p.dispatch = 1 ∨ ∃ b, w.block? p.dispatch = some b ∧ b.insns = [.goto 1] := by
  cases loopEnd with
  | false => exact .inl hdisp
  | true =>
    obtain ⟨b, hb, hc⟩ := h.exists_block (CasePlan.getElem?_loopEnd hn hlen)
    have hser : p.dispatch = ((2 * p.count : Nat) : Int) := hdisp.trans (by simp)
    exact .inr ⟨b, hser ▸ hb, Block.insns_congr hc⟩

/-- Each edge that has a block of its own is found there. -/
theorem forwards (h : w.Laid p loopEnd cs es) (hn : 2 ≤ p.count) (hlen : cs.length = p.count)
    (hjump : p.firstJump = ((2 * p.count + (p.loopEnds loopEnd).length : Nat) : Int)) {j : Int}
    (hk : es[k]? = some j) : w.Forwards p (p.firstJump + k) j := by
  obtain ⟨b, hb, hc⟩ := h.exists_block (CasePlan.getElem?_jump hn hlen hk)
  refine ⟨b, ?_, (Block.insns_congr hc).trans (Block.insns_ofInsns _ _)⟩
  rw [hjump, ← Int.natCast_add]
  exact hb

/-- **Each block has its case.** -/
theorem case {fn : String} {bs : List Block} {b : Block} (h : w.Laid p loopEnd cs es)
    (hn : 2 ≤ p.count) (hlen : cs.length = p.count)
    (hjump : p.firstJump = ((2 * p.count + (p.loopEnds loopEnd).length : Nat) : Int))
    (hcs : p.caseBlocks fn 0 0 bs = .ok (cs, es)) (hb : bs[k]? = some b) :
    ∃ b', w.block? (p.caseSerial k) = some b' ∧ w.CaseOf p b b' := by
  obtain ⟨c, pre, mid, post, hc, hes, hm⟩ := CasePlan.makesCase_of_caseBlocks hcs hb
  obtain ⟨b', hb', hcb⟩ := h.exists_block (CasePlan.getElem?_case hn hc)
  have hins := Block.insns_congr hcb
  refine ⟨b', by rw [CasePlan.caseSerial, ← Int.natCast_add]; exact hb', ?_⟩
  cases hm with
  | leaving j hi hl _ => exact .leaving j (hins.trans hi) hl
  | returning t ht hr hi => exact .returning t ht hr (hins.trans hi)
  | branching t ht hcond hi hnx _ =>
    rw [Nat.zero_add] at hi hnx
    have htaken := h.forwards hn hlen hjump (k := pre.length) (j := t.d.block) (by simp [hes])
    have hnext := h.forwards hn hlen hjump (k := pre.length + 1) (j := b.next) (by simp [hes])
    rw [Int.natCast_add, ← Int.add_assoc] at hnext
    exact .branching t (p.firstJump + pre.length) ht hcond (hins.trans hi)
      ((Block.next_congr hcb).trans hnx) htaken hnext

end Laid

/-- **A flattening that succeeds is laid out as planned.** -/
theorem flattens_of_flatten (hf : f.Shaped) (hn : 2 ≤ f.blocks.length)
    (h : f.flatten opts = .ok g) : ∃ p v, f.Flattens g p v := by
  obtain ⟨p, v, bs, w, hcount, -, hdisp, hjump, hstate, huser, hconsts, hbs, hw, rfl⟩ :=
    exists_plan_of_flatten hn h
  obtain ⟨cs, es, hcs, rfl⟩ := CasePlan.blocks_eq hbs
  rw [← hcount] at hn hdisp hjump
  have hlen : cs.length = p.count := by rw [CasePlan.length_caseBlocks hcs, hcount]
  have hshape : ∀ c ∈ p.front ++ cs ++ p.loopEnds opts.loopEnd ++ p.jumpBlocks es,
      Plain c.body ∧ 0 ∉ c.exits := fun c =>
    CasePlan.shape_of_mem (by rw [hdisp]; split <;> omega) (by rw [hjump]; split <;> omega) hn
      hf.endsLast hcs
  have hfirst : p.firstJump = ((2 * p.count + (p.loopEnds opts.loopEnd).length : Nat) : Int) := by
    rw [hjump, CasePlan.loopEnds]
    split <;> simp
  obtain ⟨hwf, hat⟩ := ofBlocks_spec (fun c hc => (hshape c hc).1) hw
  have hlaid : Laid { w with maturity := f.maturity } p opts.loopEnd cs es := fun _ => hat
  refine ⟨p, v, hwf.withMaturity _, hlaid.enteredOnce fun c hc => (hshape c hc).2, hcount, hn,
    hstate, unused_of_userOf? huser, CasePlan.number_inj hconsts, hlaid.prologue hn, ?_,
    hlaid.back hn hlen hdisp, ?_⟩
  · intro i hi
    exact (hlaid (i + 1)).trans (by rw [CasePlan.getElem?_comparison hi]; rfl)
  · intro i b hb
    exact hlaid.case hn hlen hfirst hcs ((f.block?_natCast i).symm.trans hb)

end Func

end Deflatten

import Deflatten.Proofs.Editing.Edits

/-!
# Proofs/Editing/Compaction — dropping what cannot be reached

The serials that `Func.visited` lists are closed under edges (`mem_visited_of_edge`), because a
visit never runs out of fuel: each takes one serial off the stack, and only serials that were not
seen come on it.  So every target of a kept block is kept, compaction is a renumbering of the kept
blocks, and executions do not notice (`compact_spec`).
-/

namespace Deflatten

/-! ## Tables from lists -/

theorem Table.get?_foldl_insert {κ ν : Type} [DecidableEq κ] {bs : List (κ × ν)} {t : Table κ ν}
    {k : κ} {v : ν} (hnd : (bs.map Prod.fst).Nodup) :
    (bs.foldl (fun t b => t.insert b.1 b.2) t).get? k = some v ↔
      (k, v) ∈ bs ∨ (k ∉ bs.map Prod.fst ∧ t.get? k = some v) := by
  induction bs generalizing t with
  | nil => simp
  | cons b bs ih =>
    obtain ⟨hb, hnd⟩ := List.nodup_cons.mp hnd
    rw [List.foldl_cons, ih hnd, Table.get?_insert]
    obtain ⟨k', v'⟩ := b
    by_cases hk : k' = k
    · subst hk
      have hno : ∀ w, (k', w) ∉ bs := fun w hw => hb (List.mem_map.mpr ⟨(k', w), hw, rfl⟩)
      simp only [if_true, hno, hb, not_false_iff, true_and, false_or, Option.some.injEq,
        List.mem_cons, Prod.mk.injEq, List.map_cons, not_true, false_and, or_false]
      exact eq_comm
    · have hk' : k ≠ k' := fun h => hk h.symm
      simp [hk, hk']

/-- **A table from a list without repeated keys holds the pairs of the list.** -/
theorem Table.get?_ofList {κ ν : Type} [DecidableEq κ] {bs : List (κ × ν)} {k : κ} {v : ν}
    (hnd : (bs.map Prod.fst).Nodup) : (Table.ofList bs).get? k = some v ↔ (k, v) ∈ bs := by
  rw [Table.ofList, Table.get?_foldl_insert hnd]
  simp

namespace Func

variable {f : Func} {s t : Int} {b : Block}

/-! ## Reachable serials -/

/-- The successors that are written down for a serial. -/
def succsAt (f : Func) (s : Int) : List Int := (f.block? s).elim [] (·.succs)

/-- Every serial that is a successor somewhere, once. -/
def allSuccs (f : Func) : List Int := distinct (f.blocks.flatMap (·.succs))

theorem mem_allSuccs (h : t ∈ f.succsAt s) : t ∈ f.allSuccs := by
  unfold succsAt at h
  cases hb : f.block? s with
  | none => simp [hb] at h
  | some b =>
    rw [hb, Option.elim_some] at h
    exact mem_distinct.mpr (List.mem_flatMap.mpr ⟨b, mem_of_block? hb, h⟩)

/-- Seeing new serials leaves fewer to be seen. -/
theorem length_unseen {all seen fresh : List Int} (hall : all.Nodup) (hnd : fresh.Nodup)
    (hsub : ∀ x ∈ fresh, x ∈ all ∧ x ∉ seen) :
    (all.filter fun x => x ∉ seen ++ fresh).length + fresh.length ≤
      (all.filter fun x => x ∉ seen).length := by
  rw [← List.length_append]
  refine List.Nodup.length_le_of_subset ?_ ?_
  · refine List.nodup_append.mpr ⟨hall.filter _, hnd, ?_⟩
    rintro x hx y hy rfl
    simp only [List.mem_filter, List.mem_append, decide_eq_true_eq, not_or] at hx
    exact hx.2.2 hy
  · intro x hx
    rcases List.mem_append.mp hx with hx | hx
    · simp only [List.mem_filter, List.mem_append, decide_eq_true_eq, not_or] at hx ⊢
      exact ⟨hx.1, hx.2.1⟩
    · simpa using hsub x hx

/-- **A visit with fuel enough sees the successors of all it sees.**  What is seen has its successors
seen or is still on the stack, and the stack and the serials not yet seen bound the fuel. -/
theorem visit_closed {fuel : Nat} : ∀ {stack seen : List Int},
    (∀ s ∈ seen, s ∈ stack ∨ ∀ t ∈ f.succsAt s, t ∈ seen) →
    stack.length + (f.allSuccs.filter fun x => x ∉ seen).length ≤ fuel →
    seen ⊆ f.visit fuel stack seen ∧
      ∀ s ∈ f.visit fuel stack seen, ∀ t ∈ f.succsAt s, t ∈ f.visit fuel stack seen := by
  induction fuel with
  | zero =>
    intro stack seen hinv hfuel
    obtain rfl : stack = [] := List.eq_nil_of_length_eq_zero (by omega)
    exact ⟨List.Subset.refl _, fun s hs => (hinv s hs).resolve_left (by simp)⟩
  | succ fuel ih =>
    intro stack seen hinv hfuel
    cases stack with
    | nil => exact ⟨List.Subset.refl _, fun s hs => (hinv s hs).resolve_left (by simp)⟩
    | cons s stack =>
      rw [visit]
      have hfresh : ∀ x, x ∈ (distinct (f.succsAt s)).filter (fun t => t ∉ seen) ↔
          x ∈ f.succsAt s ∧ x ∉ seen := by
        intro x
        simp
      have hnd : ((distinct (f.succsAt s)).filter (fun t => t ∉ seen)).Nodup :=
        (nodup_distinct _).filter _
      have hless := length_unseen (nodup_distinct _) hnd fun x hx =>
        ⟨mem_allSuccs ((hfresh x).mp hx).1, ((hfresh x).mp hx).2⟩
      have hinv' : ∀ x ∈ seen ++ (distinct (f.succsAt s)).filter (fun t => t ∉ seen),
          x ∈ ((distinct (f.succsAt s)).filter (fun t => t ∉ seen)).reverse ++ stack ∨
            ∀ t ∈ f.succsAt x, t ∈ seen ++ (distinct (f.succsAt s)).filter (fun t => t ∉ seen) := by
        intro x hx
        rcases List.mem_append.mp hx with hx | hx
        · rcases hinv x hx with hst | hsucc
          · rcases List.mem_cons.mp hst with rfl | hst
            · refine .inr fun t ht => ?_
              by_cases hts : t ∈ seen
              · exact List.mem_append.mpr (.inl hts)
              · exact List.mem_append.mpr (.inr ((hfresh t).mpr ⟨ht, hts⟩))
            · exact .inl (List.mem_append.mpr (.inr hst))
          · exact .inr fun t ht => List.mem_append.mpr (.inl (hsucc t ht))
        · exact .inl (List.mem_append.mpr (.inl (List.mem_reverse.mpr hx)))
      obtain ⟨hsub, hclosed⟩ := ih hinv' (by
        simp only [List.length_append, List.length_reverse, List.length_cons, allSuccs]
          at hless hfuel ⊢
        omega)
      exact ⟨fun x hx => hsub (List.mem_append.mpr (.inl hx)), hclosed⟩

/-- What a visit sees can be reached: a property of the first serials that edges hand on. -/
theorem forall_visit {P : Int → Prop} (hP : ∀ s t, P s → t ∈ f.succsAt s → P t) {fuel : Nat} :
    ∀ {stack seen : List Int}, (∀ s ∈ stack, P s) → (∀ s ∈ seen, P s) →
      ∀ s ∈ f.visit fuel stack seen, P s := by
  induction fuel with
  | zero => exact fun _ hseen => hseen
  | succ fuel ih =>
    intro stack seen hstack hseen
    cases stack with
    | nil => exact hseen
    | cons s stack =>
      have hfresh : ∀ x ∈ (distinct (f.succsAt s)).filter (fun t => t ∉ seen), P x := by
        intro x hx
        exact hP s x (hstack s (by simp)) (mem_distinct.mp (List.mem_filter.mp hx).1)
      rw [visit]
      refine ih (fun x hx => ?_) fun x hx => ?_
      · rcases List.mem_append.mp hx with hx | hx
        · exact hfresh x (List.mem_reverse.mp hx)
        · exact hstack x (by simp [hx])
      · rcases List.mem_append.mp hx with hx | hx
        · exact hseen x hx
        · exact hfresh x hx

theorem length_distinct_le (xs : List Int) : (distinct xs).length ≤ xs.length := by
  induction xs with
  | nil => exact Nat.le_refl _
  | cons x xs ih =>
    simp only [distinct, List.length_cons]
    have := List.length_filter_le (fun y => y ≠ x) (distinct xs)
    omega

/-- The entry can be reached, and so can every successor. -/
theorem visited_closed (hne : f.blocks ≠ []) : 0 ∈ f.visited ∧
    ∀ s ∈ f.visited, ∀ t ∈ f.succsAt s, t ∈ f.visited := by
  have hbound : [(0 : Int)].length + (f.allSuccs.filter fun x => x ∉ [(0 : Int)]).length ≤
      1 + (f.blocks.flatMap (·.succs)).length := by
    have h₁ := List.length_filter_le (fun x => x ∉ [(0 : Int)]) f.allSuccs
    have h₂ := length_distinct_le (f.blocks.flatMap (·.succs))
    unfold allSuccs at *
    simp only [List.length_singleton]
    omega
  have hempty : f.blocks.isEmpty = false := by simpa using hne
  simp only [visited, hempty, Bool.false_eq_true, if_false]
  have hinv : ∀ s ∈ [(0 : Int)], s ∈ [(0 : Int)] ∨ ∀ t ∈ f.succsAt s, t ∈ [(0 : Int)] :=
    fun s hs => .inl hs
  obtain ⟨hsub, hclosed⟩ := visit_closed hinv hbound
  exact ⟨hsub (by simp), hclosed⟩

/-- **What the entry has and edges hand on, all that can be reached has.** -/
theorem forall_visited (hf : f.Verified) {P : Int → Prop} (h₀ : f.blocks ≠ [] → P 0)
    (hP : ∀ {s t}, P s → f.Edge s t → P t) (hs : s ∈ f.visited) : P s := by
  unfold visited at hs
  split at hs
  · cases hs
  · next hempty =>
    have h₀ := h₀ (by simpa using hempty)
    refine forall_visit (P := P) (fun s t h ht => ?_) (by simpa using h₀) (by simpa using h₀) s hs
    unfold succsAt at ht
    cases hb : f.block? s with
    | none => simp [hb] at ht
    | some b =>
      rw [hb, Option.elim_some, hf.succs_eq hb] at ht
      exact hP h ⟨b, hb, ht⟩

/-- Every serial that can be reached is a block. -/
theorem exists_of_mem_visited (hf : f.Verified) (hs : s ∈ f.visited) :
    ∃ b, f.block? s = some b := by
  refine forall_visited hf (P := fun s => ∃ b, f.block? s = some b) (fun hne => ?_)
    (fun _ he => hf.exists_of_edge he) hs
  have hpos := List.length_pos_iff.mpr hne
  exact exists_block? (Int.le_refl 0) (by omega)

/-- No look-up fails. -/
theorem Verified.reachable_eq (hf : f.Verified) : f.reachable = .ok f.visited := by
  obtain ⟨bs, hbs⟩ := exists_mapM_getBlock fun s => exists_of_mem_visited hf (s := s)
  rw [reachable, hbs]
  rfl

theorem mem_visited_of_edge (hf : f.Verified) (hs : s ∈ f.visited) (he : f.Edge s t) :
    t ∈ f.visited := by
  obtain ⟨b, hb, ht⟩ := he
  have hne : f.blocks ≠ [] := List.ne_nil_of_mem (mem_of_block? hb)
  refine (visited_closed hne).2 s hs t ?_
  rw [succsAt, hb, Option.elim_some, hf.succs_eq hb]
  exact ht

/-! ## The renumbering -/

/-- The blocks that can be reached. -/
def kept (f : Func) : List Block := f.blocks.filter fun b => b.serial ∈ f.visited

/-- Their new serials. -/
def remap (f : Func) : Renumbering :=
  Table.ofList (f.kept.zipIdx.map fun (b, i) => (b.serial, (i : Int)))

/-- The new serial of an old one. -/
def renumber (f : Func) (s : Int) : Int :=
  if s = noBlock then noBlock else (f.remap.get? s).getD 0

@[simp] theorem renumber_noBlock (f : Func) : f.renumber noBlock = noBlock := if_pos rfl

theorem block?_of_mem_kept (hf : f.Shaped) (hb : b ∈ f.kept) :
    f.block? b.serial = some b ∧ b.serial ∈ f.visited := by
  obtain ⟨hb, hr⟩ := List.mem_filter.mp hb
  obtain ⟨s, hs⟩ := exists_block?_of_mem hb
  exact ⟨by rw [hf.placed hs, hs], by simpa using hr⟩

theorem mem_kept (hf : f.Shaped) (hb : f.block? s = some b) (hs : s ∈ f.visited) : b ∈ f.kept :=
  List.mem_filter.mpr ⟨mem_of_block? hb, by simpa [hf.placed hb] using hs⟩

theorem pairwise_serials (hf : f.Shaped) : (f.blocks.map Block.serial).Pairwise (· < ·) := by
  rw [List.pairwise_iff_getElem]
  intro i j hi hj hij
  have hser : ∀ k (hk : k < f.blocks.length), f.blocks[k].serial = k := fun k hk =>
    hf.placed ((f.block?_natCast k).trans (List.getElem?_eq_getElem hk))
  rw [List.getElem_map, List.getElem_map, hser, hser]
  omega

theorem nodup_kept (hf : f.Shaped) : (f.kept.map Block.serial).Nodup :=
  ((pairwise_serials hf).sublist (List.filter_sublist.map _)).imp fun h => Int.ne_of_lt h

/-- **The new serial of a kept block is its position among them.** -/
theorem get?_remap (hf : f.Shaped) {n : Int} :
    f.remap.get? s = some n ↔ ∃ (i : Nat) (b : Block), f.kept[i]? = some b ∧ b.serial = s ∧ n = i := by
  have hkeys : (f.kept.zipIdx.map fun (b, i) => (b.serial, (i : Int))).map Prod.fst =
      f.kept.map Block.serial := by
    rw [List.map_map, ← List.zipIdx_map_fst 0 f.kept, List.map_map, List.zipIdx_map_fst]
    rfl
  rw [remap, Table.get?_ofList (hkeys ▸ nodup_kept hf)]
  simp only [List.mem_map, Prod.exists, List.mem_zipIdx_iff_getElem?, Prod.mk.injEq]
  constructor
  · rintro ⟨b, i, hi, rfl, rfl⟩
    exact ⟨i, b, hi, rfl, rfl⟩
  · rintro ⟨i, b, hi, rfl, rfl⟩
    exact ⟨b, i, hi, rfl, rfl⟩

theorem renumber_of_kept (hf : f.Shaped) {i : Nat} (hi : f.kept[i]? = some b) :
    f.renumber b.serial = i := by
  obtain ⟨hb, -⟩ := block?_of_mem_kept hf (List.mem_of_getElem? hi)
  rw [renumber, if_neg (ne_noBlock (lt_of_block? hb).1), (get?_remap hf).mpr ⟨i, b, hi, rfl, rfl⟩]
  rfl

/-- A serial that can be reached has a new one. -/
theorem exists_kept (hf : f.Verified) (hs : s ∈ f.visited) :
    ∃ (i : Nat) (b : Block), f.kept[i]? = some b ∧ b.serial = s ∧ f.block? s = some b ∧
      f.renumber s = i := by
  obtain ⟨b, hb⟩ := exists_of_mem_visited hf hs
  obtain ⟨i, hi⟩ := List.mem_iff_getElem?.mp (mem_kept hf.toShaped hb hs)
  have hser := hf.placed hb
  exact ⟨i, b, hi, hser, hb, hser ▸ renumber_of_kept hf.toShaped hi⟩

theorem newSerial_of_mem (hf : f.Verified) (hs : s ∈ f.visited) (fn : String) :
    newSerial fn f.remap s = .ok (f.renumber s) := by
  obtain ⟨i, b, hi, hser, hb, hn⟩ := exists_kept hf hs
  rw [newSerial, if_neg (ne_noBlock (lt_of_block? hb).1),
    (get?_remap hf.toShaped).mpr ⟨i, b, hi, hser, rfl⟩, hn]

/-- **A block whose targets all have new serials is renumbered**, and loses its fall-through if a jump
or a return ends it. -/
theorem renumberBlock_spec {fn : String} {remap : Renumbering} {φ : Int → Int}
    (h₀ : φ noBlock = noBlock) (hφ : ∀ s ∈ b.exits, newSerial fn remap s = .ok (φ s)) :
    ∃ b', renumberBlock fn remap b = (b', none) ∧ b.Retargets φ b' ∧
      (b.falls = false → b'.next = noBlock) ∧ b'.serial = (remap.get? b.serial).getD 0 := by
  unfold renumberBlock
  cases ht : b.terminator? with
  | none =>
    have hnext : newSerial fn remap b.next = .ok (φ b.next) := by
      by_cases hn : b.next = noBlock
      · simp [newSerial, hn, h₀]
      · exact hφ _ (by simp [Block.exits_none ht, hn])
    simp only [ht, Option.any_none, Bool.false_eq_true, if_false, hnext]
    exact ⟨_, rfl, Block.retargets_of_none ht rfl rfl, by simp [Block.falls, ht], rfl⟩
  | some t =>
    rcases t.op.cases_of_endsBlock (Block.endsBlock_of_terminator? ht) with hr | hg | hc
    · have hjump : t.op.isJump = false := by rw [hr]; rfl
      simp only [hjump, Bool.false_eq_true, if_false]
      simp only [ht, Option.any_some, hr, beq_self_eq_true, Bool.or_true, if_true]
      refine ⟨_, rfl, Block.retargets_of_insns ht ?_ fun hc => ?_, fun _ => rfl, rfl⟩
      · rw [Insn.retarget_of_ret hr]
        exact Block.insns_eq_append ht
      · exact absurd hr (t.op.ne_of_isConditional hc).1
    · have hjump : t.op.isJump = true := by rw [hg]; rfl
      have htgt := hφ t.d.block (by simp [Block.exits_goto ht hg])
      have hins := Block.insns_mapTail ht fun i => i.withTarget (φ t.d.block)
      have hterm : (b.mapTail fun i => i.withTarget (φ t.d.block)).terminator? =
          some (t.withTarget (φ t.d.block)) :=
        Block.terminator?_of_append hins (by simpa using Block.endsBlock_of_terminator? ht)
      simp only [hjump, if_true, htgt]
      simp only [hterm, Option.any_some, Insn.op_withTarget, hg, beq_self_eq_true, Bool.true_or,
        if_true]
      refine ⟨_, rfl, Block.retargets_of_insns ht ?_ fun hc => ?_, fun _ => rfl, by simp⟩
      · rw [Insn.retarget_of_isJump hjump]
        exact hins
      · exact absurd hg (t.op.ne_of_isConditional hc).2
    · have hjump := Opcode.isJump_of_isConditional hc
      obtain ⟨hr, hg⟩ := t.op.ne_of_isConditional hc
      have htgt := hφ t.d.block ((Block.mem_exits_conditional ht hc).mpr (.inl rfl))
      have hnext := hφ b.next ((Block.mem_exits_conditional ht hc).mpr (.inr rfl))
      have hins := Block.insns_mapTail ht fun i => i.withTarget (φ t.d.block)
      have hterm : (b.mapTail fun i => i.withTarget (φ t.d.block)).terminator? =
          some (t.withTarget (φ t.d.block)) :=
        Block.terminator?_of_append hins (by simpa using Block.endsBlock_of_terminator? ht)
      have hleaves : (t.op == .goto || t.op == .ret) = false := by simp [hg, hr]
      simp only [hjump, if_true, htgt, hterm, Option.any_some, Insn.op_withTarget, hleaves,
        Bool.false_eq_true, if_false, Block.next_mapTail, hnext]
      refine ⟨_, rfl, Block.retargets_of_insns ht ?_ fun _ => rfl, by simp [Block.falls, ht, hc],
        by simp⟩
      rw [Insn.retarget_of_isJump hjump]
      exact hins

theorem renumberBlocks_spec {fn : String} {remap : Renumbering} {Q : Block → Block → Prop}
    {bs : List Block} (h : ∀ b ∈ bs, ∃ b', renumberBlock fn remap b = (b', none) ∧ Q b b') :
    ∃ bs', renumberBlocks fn remap bs = (bs', none) ∧ bs'.length = bs.length ∧
      ∀ (i : Nat) (b' : Block), bs'[i]? = some b' → ∃ b, bs[i]? = some b ∧ Q b b' := by
  induction bs with
  | nil => exact ⟨[], rfl, rfl, by simp⟩
  | cons b bs ih =>
    obtain ⟨b', hb', hq⟩ := h b (by simp)
    obtain ⟨bs', hbs', hlen, hall⟩ := ih fun c hc => h c (by simp [hc])
    refine ⟨b' :: bs', by simp [renumberBlocks, hb', hbs'], by simp [hlen], ?_⟩
    intro i c hc
    cases i with
    | zero =>
      obtain rfl : b' = c := by simpa using hc
      exact ⟨b, rfl, hq⟩
    | succ i => simpa using hall i c (by simpa using hc)

/-! ## Compaction -/

/-- **The blocks of `g` are the kept blocks of `f`**, in order and with their targets renumbered. -/
structure Compacts (f g : Func) : Prop where
  name_eq : g.name = f.name
  wellFormed : g.WellFormed
  /-- As many blocks as are kept. -/
  length_eq : g.blocks.length = f.kept.length
  /-- Each is the kept block at its place. -/
  retargets : ∀ {i : Nat} {b b'}, f.kept[i]? = some b → g.block? i = some b' →
    b.Retargets f.renumber b'
  /-- One that a jump or a return ends leads nowhere else. -/
  leaves : ∀ {i : Nat} {b b'}, f.kept[i]? = some b → g.block? i = some b' → b.falls = false →
    b'.next = noBlock

theorem mem_visited_of_kept (hf : f.Verified) (hb : b ∈ f.kept) (hs : s ∈ b.exits) :
    s ∈ f.visited := by
  obtain ⟨hb, hr⟩ := block?_of_mem_kept hf.toShaped hb
  exact mem_visited_of_edge hf hr ⟨b, hb, hs⟩

theorem renumber_bounds (hf : f.Verified) (hs : s ∈ f.visited) :
    0 ≤ f.renumber s ∧ f.renumber s < f.kept.length := by
  obtain ⟨i, b, hi, -, -, hn⟩ := exists_kept hf hs
  have hlt := (List.getElem?_eq_some_iff.mp hi).1
  omega

theorem renumber_ne_noBlock (hf : f.Verified) (hb : b ∈ f.kept) :
    ∀ s ∈ b.exits, f.renumber s ≠ noBlock := fun _ hs =>
  ne_noBlock (renumber_bounds hf (mem_visited_of_kept hf hb hs)).1

/-- The kept blocks, renumbered, are a function. -/
theorem shaped_renumbered (hf : f.Verified) {bs : List Block} (hlen : bs.length = f.kept.length)
    (hall : ∀ (i : Nat) (b' : Block), bs[i]? = some b' → ∃ b, f.kept[i]? = some b ∧
      b.Retargets f.renumber b' ∧ (b.falls = false → b'.next = noBlock) ∧
      b'.serial = (f.remap.get? b.serial).getD 0) :
    (f.withBlocks bs).Shaped := by
  have hat : ∀ {s b'}, (f.withBlocks bs).block? s = some b' → ∃ b, f.kept[s.toNat]? = some b ∧
      b.Retargets f.renumber b' ∧ b'.serial = s := by
    intro s b' hb'
    obtain ⟨b, hb, hr, -, hser⟩ := hall s.toNat b' (block?_toNat hb')
    have h₀ := (lt_of_block? hb').1
    rw [(get?_remap hf.toShaped).mpr ⟨_, b, hb, rfl, rfl⟩, Option.getD_some] at hser
    exact ⟨b, hb, hr, by omega⟩
  refine ⟨fun hb' => (hat hb').choose_spec.2.2, fun hb' => ?_⟩
  obtain ⟨b, hb, hr, -⟩ := hat hb'
  have hmem := List.mem_of_getElem? hb
  refine hr.fits (hf.fits (block?_of_mem_kept hf.toShaped hmem).1) f.renumber_noBlock
    fun s hs => ?_
  rw [blocks_withBlocks, hlen]
  exact renumber_bounds hf (mem_visited_of_kept hf hmem hs)

/-- **Compaction succeeds.** -/
theorem compact_spec (hf : f.Verified) : ∃ g, compact f = .ok f.remap g ∧ f.Compacts g := by
  obtain ⟨bs, hbs, hlen, hall⟩ := renumberBlocks_spec fun b hb =>
    renumberBlock_spec f.renumber_noBlock fun s hs =>
      newSerial_of_mem hf (mem_visited_of_kept hf hb hs) f.name
  have hshaped := shaped_renumbered hf hlen hall
  have hat : ∀ {i : Nat} {b b'}, f.kept[i]? = some b →
      (f.withBlocks bs).rewired.block? i = some b' →
      b.Retargets f.renumber b' ∧ (b.falls = false → b'.next = noBlock) := by
    intro i b b' hb hb'
    obtain ⟨b₁, hb₁, hc⟩ := exists_of_content? ((f.withBlocks bs).content?_rewired i).symm hb'
    obtain ⟨b₂, hb₂, hr, hleaves, -⟩ :=
      hall i b₁ (((f.withBlocks bs).block?_natCast i).symm.trans hb₁)
    obtain rfl := Option.mem_unique hb hb₂
    exact ⟨hr.congr_right hc.symm, fun h => (Block.next_congr hc).symm.trans (hleaves h)⟩
  refine ⟨(f.withBlocks bs).rewired, ?_, rfl, hshaped.wellFormed, by simpa using hlen,
    fun hb hb' => (hat hb hb').1, fun hb hb' => (hat hb hb').2⟩
  simp only [remap, kept] at hbs ⊢
  simp only [compact, hf.reachable_eq, hbs, hshaped.rebuildEdges]

namespace Compacts

/-- A block that can be reached is there under its new serial. -/
theorem exists_block (h : f.Compacts g) (hf : f.Verified) (hs : s ∈ f.visited)
    (hb : f.block? s = some b) : ∃ b', g.block? (f.renumber s) = some b' ∧ b ∈ f.kept ∧
      b.Retargets f.renumber b' := by
  obtain ⟨i, b₁, hi, -, hb₁, hn⟩ := exists_kept hf hs
  obtain rfl := Option.mem_unique hb₁ hb
  have hlt := (List.getElem?_eq_some_iff.mp hi).1
  obtain ⟨b', hb'⟩ := exists_block? (Int.natCast_nonneg i) (by rw [h.length_eq]; omega)
  exact ⟨b', hn ▸ hb', List.mem_of_getElem? hi, h.retargets hi hb'⟩

theorem haltsIn (h : f.Compacts g) (hf : f.Verified) {m : Machine} {k n : Nat} {o : Halt}
    {cs : List CallEvent} (hs : s ∈ f.visited) (hh : f.HaltsIn k m s n o cs) :
    g.HaltsIn k m (f.renumber s) n o cs := by
  induction hh with
  | stops hb hv =>
    obtain ⟨b', hb', hmem, hr⟩ := h.exists_block hf hs hb
    refine .stops hb' ?_
    rw [hr.visit_eq f.renumber_noBlock (renumber_ne_noBlock hf hmem), hv]
    rfl
  | goes hb hv _ ih =>
    obtain ⟨b', hb', hmem, hr⟩ := h.exists_block hf hs hb
    refine .goes hb' ?_ (ih (mem_visited_of_edge hf hs (.of_visit hb hv)))
    rw [hr.visit_eq f.renumber_noBlock (renumber_ne_noBlock hf hmem), hv]
    rfl

theorem renumber_zero (hf : f.Verified) (hne : f.blocks ≠ []) : f.renumber 0 = 0 := by
  obtain ⟨i, b, hi, hser, hb, hn⟩ := exists_kept hf (visited_closed hne).1
  obtain ⟨b₀, bs, hbs⟩ := List.exists_cons_of_ne_nil hne
  have hkept : f.kept[0]? = some b := by
    have hb₀ : b₀ = b := by simpa [block?, hbs] using hb
    have hmem : b.serial ∈ f.visited := hser ▸ (visited_closed hne).1
    simp [kept, hbs, hb₀, hmem]
  simpa [hser] using renumber_of_kept hf.toShaped hkept

/-- **Executions do not notice.** -/
theorem refines (h : f.Compacts g) (hf : f.Verified) : f.Refines g := by
  rintro m n v cs ⟨k, n', hn', hh⟩
  obtain ⟨b, hb⟩ := hh.exists_block
  have hne : f.blocks ≠ [] := List.ne_nil_of_mem (mem_of_block? hb)
  have hg := h.haltsIn hf (visited_closed hne).1 hh
  rw [renumber_zero hf hne] at hg
  exact ⟨k, n', hn', hg⟩

theorem enteredOnce (h : f.Compacts g) (hf : f.Verified) (h₀ : f.EnteredOnce) : g.EnteredOnce := by
  rintro p ⟨b', hb', hs⟩
  have hp := lt_of_block? hb'
  obtain ⟨b, hb⟩ : ∃ b, f.kept[p.toNat]? = some b := ⟨_, List.getElem?_eq_getElem (by
    have := h.length_eq
    omega)⟩
  have hmem := List.mem_of_getElem? hb
  have hr := h.retargets hb ((Int.toNat_of_nonneg hp.1).symm ▸ hb')
  obtain ⟨s, hs, hφ⟩ :=
    (hr.mem_exits f.renumber_noBlock (renumber_ne_noBlock hf hmem)).mp hs
  obtain ⟨hblk, -⟩ := block?_of_mem_kept hf.toShaped hmem
  have hne : f.blocks ≠ [] := List.ne_nil_of_mem (mem_of_block? hblk)
  -- the serials that come to 0 and the entry are at one place among the kept ones
  obtain ⟨i, b₁, hi, hser, -, hn⟩ := exists_kept hf (mem_visited_of_kept hf hmem hs)
  obtain ⟨j, b₂, hj, hser₂, -, hn₂⟩ := exists_kept hf (visited_closed hne).1
  rw [renumber_zero hf hne] at hn₂
  obtain rfl : i = j := by omega
  obtain rfl := Option.mem_unique hi hj
  have hs₀ : s = 0 := hser.symm.trans hser₂
  exact h₀ _ ⟨b, hblk, hs₀ ▸ hs⟩

theorem preserves (h : f.Compacts g) (hf : f.Verified) (h₀ : f.EnteredOnce) : f.Preserves g :=
  ⟨h.wellFormed, h.enteredOnce hf h₀, h.refines hf⟩

end Compacts

/-! ## Nothing to renumber -/

/-- The blocks that can be reached come before those that cannot. -/
def ReachableFirst (f : Func) : Prop :=
  ∀ {s r : Int}, s ∈ f.visited → 0 ≤ r → r < s → r ∈ f.visited

theorem getElem?_filter_of_forall {α : Type} {P : α → Bool} : ∀ {l : List α} {i : Nat},
    (∀ j x, j ≤ i → l[j]? = some x → P x = true) → (l.filter P)[i]? = l[i]?
  | [], _, _ => rfl
  | y :: l, i, h => by
    rw [List.filter_cons_of_pos (h 0 y (Nat.zero_le _) rfl)]
    cases i with
    | zero => rfl
    | succ i =>
      exact getElem?_filter_of_forall fun j x hj hx => h (j + 1) x (by omega) (by simpa using hx)

/-- **The blocks that are kept keep their serials.** -/
theorem ReachableFirst.getElem?_kept (h : f.ReachableFirst) (hf : f.Verified) {i : Nat}
    (hs : (i : Int) ∈ f.visited) : f.kept[i]? = f.blocks[i]? := by
  refine getElem?_filter_of_forall fun j x hj hx => ?_
  have hx : f.block? j = some x := (f.block?_natCast j).trans hx
  rw [hf.placed hx, decide_eq_true_iff]
  rcases Nat.lt_or_eq_of_le hj with hlt | rfl
  · exact h hs (by omega) (by omega)
  · exact hs

theorem ReachableFirst.renumber (h : f.ReachableFirst) (hf : f.Verified) (hs : s ∈ f.visited) :
    f.renumber s = s := by
  obtain ⟨b, hb⟩ := exists_of_mem_visited hf hs
  obtain ⟨i, rfl⟩ := Int.eq_ofNat_of_zero_le (lt_of_block? hb).1
  have hkept := (h.getElem?_kept hf hs).trans ((f.block?_natCast i).symm.trans hb)
  rw [← hf.placed hb]
  exact (renumber_of_kept hf.toShaped hkept).trans (hf.placed hb).symm

/-- **A block that can be reached is as it was**, under the same serial. -/
theorem Compacts.exists_same (h : f.Compacts g) (hf : f.Verified) (hfirst : f.ReachableFirst)
    (hs : s ∈ f.visited) (hb : f.block? s = some b) :
    ∃ b', g.block? s = some b' ∧ b.Retargets id b' := by
  obtain ⟨b', hb', hmem, hr⟩ := h.exists_block hf hs hb
  rw [hfirst.renumber hf hs] at hb'
  exact ⟨b', hb', hr.fixed f.renumber_noBlock fun x hx =>
    hfirst.renumber hf (mem_visited_of_edge hf hs ⟨b, hb, hx⟩)⟩

/-- **Every block comes from one that can be reached.** -/
theorem Compacts.exists_of_block? (h : f.Compacts g) (hf : f.Verified) {b' : Block}
    (hb' : g.block? s = some b') :
    ∃ r b, f.block? r = some b ∧ r ∈ f.visited ∧ f.renumber r = s ∧ b.Retargets f.renumber b' := by
  have hs := lt_of_block? hb'
  obtain ⟨i, rfl⟩ := Int.eq_ofNat_of_zero_le hs.1
  have hlen := h.length_eq
  have hkept : f.kept[i]? = some (f.kept.get ⟨i, by omega⟩) := List.getElem?_eq_getElem _
  obtain ⟨hb, hreach⟩ := block?_of_mem_kept hf.toShaped (List.mem_of_getElem? hkept)
  exact ⟨_, _, hb, hreach, renumber_of_kept hf.toShaped hkept, h.retargets hkept hb'⟩

end Func

end Deflatten

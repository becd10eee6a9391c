import Mathlib.Algebra.BigOperators.Group.List.Basic
import Mathlib.Algebra.Order.BigOperators.Group.List
import Mathlib.Algebra.Order.Ring.Nat
import Deflatten.Flattening.Samples
import Deflatten.Proofs.Dispatch.Regions
import Deflatten.Proofs.Editing.Compaction

/-!
# Proofs/Dispatch/Discovery — how the blocks of a region are found

`Region.Discovers` is the search as a relation: a step takes a successor of an internal block that
was found before and files it as internal or as an exit.  Growth is such a search, its bound on the
steps is enough, and it leaves no successor behind (`grow_discovers`).  What holds of a region after
an exploration is read off the relation (`Region.Orderly`, `Region.explore_orderly`); in particular
no exploration of a verified function fails (`Region.explore_spec`).
-/

namespace Deflatten

open Samples (block branching falling function lit reg)

namespace Region

variable {f : Func} {entry father i : BlockInfo} {found is xs : List BlockInfo} {d : Region}
  {b : Block} {s : Int} {stack : List (BlockInfo × List Int)} {fuel : Nat}

/-! ## Searches -/

/-- **A search for the blocks of a region**: the blocks found so far, in order, and which of them
are internal and which are exits. -/
inductive Discovers (f : Func) (entry : BlockInfo) :
    (found internal exits : List BlockInfo) → Prop
  /-- The entry is found first. -/
  | entry : Discovers f entry [entry] [entry] []
  /-- A successor of an internal block, not met before, is internal if it belongs to that block and
  an exit if it does not. -/
  | found {found is xs : List BlockInfo} {father : BlockInfo} {s : Int} {b : Block}
      (h : Discovers f entry found is xs) (hfather : father ∈ is) (hs : s ∈ father.block.succs)
      (hnew : ∀ i ∈ found, i.place ≠ s) (hb : f.block? s = some b) :
      Discovers f entry (found ++ [father.child b s])
        (if belongs father (father.child b s) then is ++ [father.child b s] else is)
        (if belongs father (father.child b s) then xs else xs ++ [father.child b s])

namespace Discovers

/-- What is found is internal or an exit. -/
theorem perm (h : Discovers f entry found is xs) : found.Perm (is ++ xs) := by
  induction h with
  | entry => exact .refl _
  | found _ _ _ _ _ ih =>
    refine (ih.append_right _).trans ?_
    split
    · rw [List.append_assoc, List.append_assoc]
      exact List.perm_append_comm.append_left _
    · rw [List.append_assoc]

/-- Internal blocks and exits are listed in the order they were found in. -/
theorem sublist (h : Discovers f entry found is xs) : is.Sublist found ∧ xs.Sublist found := by
  induction h with
  | entry => exact ⟨.refl _, List.nil_sublist _⟩
  | found _ _ _ _ _ ih =>
    split
    · exact ⟨ih.1.append (.refl _), ih.2.trans (List.sublist_append_left ..)⟩
    · exact ⟨ih.1.trans (List.sublist_append_left ..), ih.2.append (.refl _)⟩

/-- **No block is found twice.** -/
theorem nodup_places (h : Discovers f entry found is xs) : (found.map BlockInfo.place).Nodup := by
  induction h with
  | entry => simp
  | found _ _ _ hnew _ ih =>
    rw [List.map_append, List.nodup_append]
    refine ⟨ih, by simp, fun a ha b hb => ?_⟩
    obtain ⟨j, hj, rfl⟩ := List.mem_map.mp ha
    rw [List.map_singleton, List.mem_singleton] at hb
    exact hb ▸ hnew j hj

/-- Blocks are found where they stand. -/
theorem placed (h : Discovers f entry found is xs)
    (hentry : f.block? entry.place = some entry.block) :
    ∀ i ∈ found, f.block? i.place = some i.block := by
  induction h with
  | entry => simpa using hentry
  | found _ _ _ _ hb ih =>
    intro i hi
    rcases List.mem_append.mp hi with hi | hi
    · exact ih i hi
    · obtain rfl := List.mem_singleton.mp hi
      exact hb

theorem head?_internal (h : Discovers f entry found is xs) : is.head? = some entry := by
  induction h with
  | entry => rfl
  | found _ _ _ _ _ ih =>
    split
    · rw [List.head?_append, ih, Option.some_or]
    · exact ih

theorem head?_found (h : Discovers f entry found is xs) : found.head? = some entry := by
  induction h with
  | entry => rfl
  | found _ _ _ _ _ ih => rw [List.head?_append, ih, Option.some_or]

/-- **Each block but the entry was found from an internal one before it**, and is internal itself
exactly if it belongs to that one. -/
theorem exists_father (h : Discovers f entry found is xs) {k : Nat}
    (hk : found[k + 1]? = some i) :
    ∃ j father, j ≤ k ∧ found[j]? = some father ∧ father ∈ is ∧ i.place ∈ father.block.succs ∧
      i = father.child i.block i.place ∧ (i ∈ is ↔ belongs father i = true) := by
  induction h with
  | entry => simp at hk
  | @found found is xs father s b h hfather hs hnew hb ih =>
    -- a block that was found before stays what it was
    have hmem : ∀ j : BlockInfo, j ∈ is →
        j ∈ if belongs father (father.child b s) then is ++ [father.child b s] else is := by
      intro j hj
      split
      · exact List.mem_append_left _ hj
      · exact hj
    have hold : ∀ {j : BlockInfo}, j ∈ found → ((j ∈ if belongs father (father.child b s)
        then is ++ [father.child b s] else is) ↔ j ∈ is) := by
      intro j hj
      refine ⟨fun hin => ?_, hmem j⟩
      split at hin
      · rcases List.mem_append.mp hin with hin | hin
        · exact hin
        · obtain rfl := List.mem_singleton.mp hin
          exact absurd rfl (hnew _ hj)
      · exact hin
    rcases Nat.lt_or_ge (k + 1) found.length with hlt | hge
    · rw [List.getElem?_append_left hlt] at hk
      obtain ⟨j, father', hj, hfound, hint, hsucc, hi, hiff⟩ := ih hk
      exact ⟨j, father', hj, by rwa [List.getElem?_append_left (by omega)], hmem _ hint, hsucc, hi,
        (hold (List.mem_of_getElem? hk)).trans hiff⟩
    · rw [List.getElem?_append_right hge] at hk
      obtain ⟨hk0, rfl⟩ : k + 1 - found.length = 0 ∧ father.child b s = i := by
        simpa [List.getElem?_singleton, and_comm] using hk
      obtain ⟨j, hj⟩ := List.mem_iff_getElem?.mp (h.sublist.1.subset hfather)
      have hlt := (List.getElem?_eq_some_iff.mp hj).1
      refine ⟨j, father, by omega, by rwa [List.getElem?_append_left hlt], hmem _ hfather, hs, rfl,
        ?_⟩
      split
      · next hbel => exact iff_of_true (by simp) hbel
      · next hbel =>
        exact iff_of_false (fun hin => hnew _ (h.sublist.1.subset hin) rfl) hbel

theorem eq_entry_or_child (h : Discovers f entry found is xs) (hi : i ∈ found) :
    i = entry ∨ ∃ p : BlockInfo, i = p.child i.block i.place := by
  obtain ⟨k, hk⟩ := List.mem_iff_getElem?.mp hi
  cases k with
  | zero => exact .inl (Option.some.inj (by rw [← hk, ← h.head?_found, List.head?_eq_getElem?]))
  | succ k =>
    obtain ⟨-, p, -, -, -, -, hi, -⟩ := h.exists_father hk
    exact .inr ⟨p, hi⟩

end Discovers

/-! ## Growth as a search -/

theorem isInternal_iff : d.isInternal s = true ↔ ∃ i ∈ d.internal, i.serial = s := by
  simp [isInternal]

theorem isExit_iff : d.isExit s = true ↔ ∃ i ∈ d.exits.map Exit.info, i.place = s := by
  simp [isExit]

/-- **What a stack still has to look at**: the successors of internal blocks that were not
classified. -/
structure Pending (stack : List (BlockInfo × List Int)) (d : Region) : Prop where
  /-- What stands on the stack are successors of internal blocks. -/
  frames : ∀ x ∈ stack, x.1 ∈ d.internal ∧ x.2 ⊆ x.1.block.succs
  /-- A successor of an internal block is classified or stands on the stack. -/
  closed : ∀ i ∈ d.internal, ∀ s ∈ i.block.succs,
    d.isInternal s = true ∨ d.isExit s = true ∨ ∃ x ∈ stack, s ∈ x.2

/-- The steps that a stack takes, if nothing is pushed. -/
def stackWeight (stack : List (BlockInfo × List Int)) : Nat :=
  (stack.map fun x => x.2.length + 1).sum

/-- The steps that the blocks take which are not internal yet. -/
def restWeight (f : Func) (d : Region) : Nat :=
  ((f.blocks.filter fun b => !d.isInternal b.serial).map fun b => b.succs.length + 1).sum

theorem nodup_blocks (hf : f.Shaped) : f.blocks.Nodup :=
  (List.pairwise_map.mp (Func.pairwise_serials hf)).imp fun h heq => by simp [heq] at h

/-- A block that becomes internal takes its steps with it. -/
theorem restWeight_extend (hf : f.Shaped) (hb : f.block? s = some b) (hs : d.isInternal s = false)
    (hi : i.serial = s) :
    restWeight f (d.extend [i] []) + (b.succs.length + 1) = restWeight f d := by
  have hnd := nodup_blocks hf
  have hsame : ∀ b' ∈ f.blocks, (b' = b ↔ b'.serial = s) := by
    intro b' hb'
    obtain ⟨s', hs'⟩ := Func.exists_block?_of_mem hb'
    refine ⟨fun h => h ▸ hf.placed hb, fun h => ?_⟩
    rw [hf.placed hs'] at h
    exact Option.mem_unique hs' (h ▸ hb)
  have herase : (f.blocks.filter fun b => !(d.extend [i] []).isInternal b.serial) =
      (f.blocks.filter fun b => !d.isInternal b.serial).erase b := by
    rw [List.Nodup.erase_eq_filter (hnd.filter _), List.filter_filter]
    refine List.filter_congr fun b' hb' => ?_
    have hext : (d.extend [i] []).isInternal b'.serial =
        (d.isInternal b'.serial || decide (b' = b)) := by
      simp [extend, isInternal, hi, hsame b' hb', eq_comm, Bool.beq_eq_decide_eq]
    rw [hext]
    by_cases h : b' = b <;> simp [h]
  have hmem : b ∈ f.blocks.filter fun b => !d.isInternal b.serial :=
    List.mem_filter.mpr ⟨Func.mem_of_block? hb, by simp [hf.placed hb, hs]⟩
  rw [restWeight, restWeight, herase, Nat.add_comm]
  exact List.sum_map_erase (fun b => b.succs.length + 1) hmem

@[simp] theorem extend_nil (d : Region) : d.extend [] [] = d := by simp [extend]

/-- The top of the stack goes on behind a serial that is classified by now. -/
theorem Pending.advance {ss : List Int} (hp : Pending ((father, s :: ss) :: stack) d)
    (ints outs : List BlockInfo)
    (hs : (d.extend ints outs).isInternal s = true ∨ (d.extend ints outs).isExit s = true) :
    (∀ x ∈ (father, ss) :: stack, x.1 ∈ (d.extend ints outs).internal ∧ x.2 ⊆ x.1.block.succs) ∧
      ∀ i ∈ d.internal, ∀ t ∈ i.block.succs, (d.extend ints outs).isInternal t = true ∨
        (d.extend ints outs).isExit t = true ∨ ∃ x ∈ (father, ss) :: stack, t ∈ x.2 := by
  constructor
  · intro x hx
    rcases List.mem_cons.mp hx with rfl | hx
    · obtain ⟨hint, hsub⟩ := hp.frames (father, s :: ss) (by simp)
      exact ⟨List.mem_append_left _ hint, fun t ht => hsub (by simp [ht])⟩
    · obtain ⟨hint, hsub⟩ := hp.frames x (by simp [hx])
      exact ⟨List.mem_append_left _ hint, hsub⟩
  · intro i hi t ht
    rcases hp.closed i hi t ht with h | h | ⟨x, hx, htx⟩
    · exact .inl (by simp_all [extend, isInternal])
    · exact .inr (.inl (by simp_all [extend, isExit]))
    · rcases List.mem_cons.mp hx with rfl | hx
      · rcases List.mem_cons.mp htx with rfl | htx
        · exact hs.imp_right .inl
        · exact .inr (.inr ⟨(father, ss), by simp, htx⟩)
      · exact .inr (.inr ⟨x, by simp [hx], htx⟩)

/-- **A search under way**: what was found, and what is still to be looked at. -/
structure Searching (f : Func) (entry : BlockInfo) (found : List BlockInfo)
    (stack : List (BlockInfo × List Int)) (d : Region) : Prop where
  /-- The blocks were found by a search. -/
  search : Discovers f entry found d.internal (d.exits.map Exit.info)
  pending : Pending stack d

namespace Searching

variable {ss : List Int}

/-- A block without further successors is done with. -/
theorem pop (h : Searching f entry found ((i, []) :: stack) d) : Searching f entry found stack d :=
  ⟨h.search, fun x hx => h.pending.frames x (by simp [hx]), fun j hj s hs => by
    simpa using h.pending.closed j hj s hs⟩

/-- A successor that was met before is passed over. -/
theorem skip (h : Searching f entry found ((father, s :: ss) :: stack) d)
    (hs : d.isInternal s = true ∨ d.isExit s = true) :
    Searching f entry found ((father, ss) :: stack) d := by
  have hadv := h.pending.advance [] [] (by simpa using hs)
  rw [extend_nil] at hadv
  exact ⟨h.search, hadv.1, hadv.2⟩

/-- A successor that was not met before is a block, and a new one. -/
theorem exists_block (h : Searching f entry found ((father, s :: ss) :: stack) d) (hf : f.Verified)
    (hentry : f.block? entry.place = some entry.block) (hs : d.Unseen s) :
    ∃ b, f.block? s = some b ∧ ∀ i ∈ found, i.place ≠ s := by
  obtain ⟨hfather, hsub⟩ := h.pending.frames (father, s :: ss) (by simp)
  have hplaced := h.search.placed hentry
  have hfound := hplaced father (h.search.sublist.1.subset hfather)
  obtain ⟨b, hb⟩ : ∃ b, f.block? s = some b :=
    hf.exists_of_edge ⟨_, hfound, by rw [← hf.succs_eq hfound]; exact hsub (by simp)⟩
  refine ⟨b, hb, fun i hi hplace => ?_⟩
  rcases List.mem_append.mp (h.search.perm.mem_iff.mp hi) with hi' | hi'
  · have := isInternal_iff.mpr ⟨i, hi', (hf.placed (hplaced i hi)).trans hplace⟩
    exact absurd this (by simp [hs.1])
  · have := isExit_iff.mpr ⟨i, hi', hplace⟩
    exact absurd this (by simp [hs.2])

/-- A new block that belongs becomes internal and is looked into first. -/
theorem internal (h : Searching f entry found ((father, s :: ss) :: stack) d) (hf : f.Shaped)
    (hb : f.block? s = some b) (hnew : ∀ i ∈ found, i.place ≠ s)
    (hbel : belongs father (father.child b s) = true) :
    Searching f entry (found ++ [father.child b s])
      ((father.child b s, b.succs) :: (father, ss) :: stack) (d.extend [father.child b s] []) := by
  obtain ⟨hfather, hsub⟩ := h.pending.frames (father, s :: ss) (by simp)
  have hchild : (father.child b s).serial = s := hf.placed hb
  have hstep := h.search.found hfather (hsub (by simp)) hnew hb
  rw [hbel, if_pos rfl, if_pos rfl] at hstep
  obtain ⟨hframes, hclosed⟩ := h.pending.advance [father.child b s] [] (.inl (isInternal_iff.mpr
    ⟨_, List.mem_append_right _ (List.mem_singleton_self _), hchild⟩))
  refine ⟨by simpa [extend] using hstep, fun x hx => ?_, fun i hi t ht => ?_⟩
  · rcases List.mem_cons.mp hx with rfl | hx
    · exact ⟨List.mem_append_right _ (List.mem_singleton_self _), fun t ht => ht⟩
    · exact hframes x hx
  · rcases List.mem_append.mp hi with hi | hi
    · exact (hclosed i hi t ht).imp_right (.imp_right (.imp fun x hx => ⟨by simp [hx.1], hx.2⟩))
    · obtain rfl := List.mem_singleton.mp hi
      exact .inr (.inr ⟨_, List.mem_cons_self, ht⟩)

/-- A new block that does not belong becomes an exit. -/
theorem exit (h : Searching f entry found ((father, s :: ss) :: stack) d)
    (hb : f.block? s = some b) (hnew : ∀ i ∈ found, i.place ≠ s)
    (hbel : belongs father (father.child b s) = false) :
    Searching f entry (found ++ [father.child b s]) ((father, ss) :: stack)
      (d.extend [] [father.child b s]) := by
  obtain ⟨hfather, hsub⟩ := h.pending.frames (father, s :: ss) (by simp)
  have hstep := h.search.found hfather (hsub (by simp)) hnew hb
  rw [hbel, if_neg (by simp), if_neg (by simp)] at hstep
  obtain ⟨hframes, hclosed⟩ := h.pending.advance [] [father.child b s] (.inr (isExit_iff.mpr
    ⟨father.child b s, by simp [extend], rfl⟩))
  exact ⟨by simpa [extend] using hstep, hframes, fun i hi => hclosed i (by simpa [extend] using hi)⟩

end Searching

theorem stackWeight_cons (father : BlockInfo) (ss : List Int)
    (stack : List (BlockInfo × List Int)) :
    stackWeight ((father, ss) :: stack) = ss.length + 1 + stackWeight stack := by
  simp [stackWeight]

/-- **Growth is a search that leaves nothing behind**, given a step for each successor of a block
that it may meet. -/
theorem grow_discovers (hf : f.Verified) (hentry : f.block? entry.place = some entry.block)
    (fuel : Nat) : ∀ {stack : List (BlockInfo × List Int)} {d : Region} {found : List BlockInfo},
      Searching f entry found stack d → stackWeight stack + restWeight f d ≤ fuel →
      ∃ found' d', grow f fuel stack d = (d', none) ∧ Searching f entry found' [] d' := by
  induction fuel with
  | zero =>
    intro stack d found h hle
    cases stack with
    | nil => exact ⟨found, d, grow_nil .., h⟩
    | cons x stack => simp [stackWeight] at hle
  | succ fuel ih =>
    intro stack d found h hle
    match stack with
    | [] => exact ⟨found, d, grow_nil .., h⟩
    | (i, []) :: stack =>
      rw [stackWeight_cons] at hle
      rw [grow]
      exact ih h.pop (by omega)
    | (father, s :: ss) :: stack =>
      rw [stackWeight_cons, List.length_cons] at hle
      by_cases hseen : d.Unseen s
      · obtain ⟨b, hb, hnew⟩ := h.exists_block hf hentry hseen
        cases hbel : belongs father (father.child b s) with
        | true =>
          -- the steps of the new block are taken from those that were left
          have := restWeight_extend hf.toShaped hb hseen.1 (i := father.child b s) (hf.placed hb)
          rw [grow_internal hseen hb hbel]
          refine ih (h.internal hf.toShaped hb hnew hbel) ?_
          rw [stackWeight_cons, stackWeight_cons]
          omega
        | false =>
          have hrest : restWeight f (d.extend [] [father.child b s]) = restWeight f d := by
            simp [restWeight, isInternal, extend]
          rw [grow_exit hseen hb hbel]
          refine ih (h.exit hb hnew hbel) ?_
          rw [stackWeight_cons]
          omega
      · have hclass : d.isInternal s = true ∨ d.isExit s = true := by
          by_contra hno
          exact hseen ⟨by simp_all, by simp_all⟩
        rw [grow, if_pos (by simpa using hclass)]
        refine ih (h.skip hclass) ?_
        rw [stackWeight_cons]
        omega

/-! ## Judgement -/

/-- **A region that is believed** has its exits paired, and under a strict configuration nothing but
its entry can be entered from outside. -/
theorem judge_accepts {cfg : Config} {blk : Int} (h : (judge cfg f blk d).verdict = .ok true) :
    (cfg.strictExternalFathers = true → d.enteredFromOutside = []) ∧
      pairExits { d with entropy := Deflatten.entropy d.values d.cmpSize } f =
        .ok (judge cfg f blk d).region := by
  unfold judge at h ⊢
  dsimp only at h ⊢
  split at h
  · cases h
  · next hentropy =>
    split at h
    · cases h
    · next hstrict =>
      rw [if_neg hentropy, if_neg hstrict]
      split at h
      · cases h
      · next d' hd' =>
        simp only [hd', and_true]
        intro hcfg
        simpa [hcfg, enteredFromOutside, isInternal] using hstrict

/-- A region that is entered at its entry only: the internal blocks have internal predecessors. -/
theorem isInternal_of_enteredFromOutside (h : d.enteredFromOutside = []) :
    ∀ i ∈ d.internal.tail, ∀ p ∈ i.block.preds, d.isInternal p = true := by
  rw [enteredFromOutside, List.map_eq_nil_iff, List.filter_eq_nil_iff] at h
  intro i hi p hp
  by_contra hno
  exact h i hi (List.any_eq_true.mpr ⟨p, hp, by simp [hno]⟩)

theorem mem_selectorsOf {resolved : List (UInt64 × Option Int)} (h : d.resolveAll f = .ok resolved)
    {v : UInt64} :
    v ∈ selectorsOf resolved s ↔ v ∈ d.values ∧ d.resolve? f v = .ok (some s) := by
  have hmem : (v, some s) ∈ resolved ↔ v ∈ d.values ∧ d.resolve? f v = .ok (some s) := by
    rw [mem_iff_of_mapM_eq_ok h]
    simp only [map_eq_ok_iff, Prod.mk.injEq]
    constructor
    · rintro ⟨_, hv, _, hres, rfl, rfl⟩
      exact ⟨hv, hres⟩
    · rintro ⟨hv, hres⟩
      exact ⟨v, hv, some s, hres, rfl, rfl⟩
  rw [← hmem]
  simp [selectorsOf]

/-- Exits of different serials get each its own constants. -/
theorem selectors_pairAll {resolved : List (UInt64 × Option Int)} {exits : List Exit}
    (hnd : (exits.map fun x => x.info.serial).Nodup) :
    ∀ x ∈ pairAll resolved exits, x.selectors = selectorsOf resolved x.info.serial := by
  induction exits with
  | nil => simp [pairAll]
  | cons y ys ih =>
    obtain ⟨hy, hys⟩ := List.nodup_cons.mp hnd
    have hshadow : (ys.any fun z => z.info.serial == y.info.serial) = false := by
      simp only [List.any_eq_false, beq_iff_eq]
      exact fun z hz heq => hy (List.mem_map.mpr ⟨z, hz, heq⟩)
    intro x hx
    rw [pairAll, hshadow] at hx
    rcases List.mem_cons.mp hx with rfl | hx
    · rfl
    · exact ih hys x hx

/-- Resolution sees the blocks of a region and its state. -/
theorem resolve?_congr {d' : Region} (hi : d'.internal = d.internal)
    (hx : d'.exits.map Exit.info = d.exits.map Exit.info) (hs : d'.state? = d.state?) (v : UInt64) :
    d'.resolve? f v = d.resolve? f v := by
  have hint : ∀ s, d'.isInternal s = d.isInternal s := fun s => by simp only [isInternal, hi]
  have hexit : ∀ s, d'.isExit s = d.isExit s := fun s => by
    rw [Bool.eq_iff_iff, isExit_iff, isExit_iff, hx]
  have hwalk : ∀ fuel e path cur, d'.walk? f fuel e path cur = d.walk? f fuel e path cur := by
    intro fuel
    induction fuel with
    | zero => exact fun _ _ _ => rfl
    | succ fuel ih => exact fun e path cur => by simp only [walk?, hint, hexit, ih]
  simp only [resolve?, resolvePath?, entry?, hs, hi, hwalk]

theorem resolve?_pairExits {d' : Region} (h : d.pairExits f = .ok d') (v : UInt64) :
    d'.resolve? f v = d.resolve? f v := by
  obtain ⟨resolved, -, rfl⟩ := pairExits_eq_ok_iff.mp h
  have hi : { d with exits := pairAll resolved d.exits }.internal = d.internal := rfl
  exact resolve?_congr hi (map_info_pairAll ..) rfl v

/-! ## Explorations -/

/-- Whether a block belongs is a matter of what it inherits and how it ends. -/
theorem belongs_child_iff : belongs father (father.child b s) = true ↔
    (∀ v ∈ b.free, v ∈ father.assumed) ∧
      (b.insns = [] ∨ ∃ t, b.tail? = some t ∧ t.op.isFlatteningJump = true) := by
  have htail : (b.tail?.all fun t => t.op.isFlatteningJump) = true ↔
      b.insns = [] ∨ ∃ t, b.tail? = some t ∧ t.op.isFlatteningJump = true := by
    cases ht : b.tail? with
    | none => simpa using List.getLast?_eq_none_iff.mp ht
    | some t =>
      have hne : b.insns ≠ [] := fun h => by simp [Block.tail?, h] at ht
      simp [hne]
  rw [← htail]
  simp [belongs, BlockInfo.needsOnly, BlockInfo.child, BlockInfo.ofBlock]

/-- **A region in order**, its blocks having been found as listed. -/
structure Orderly (f : Func) (entry : BlockInfo) (found : List BlockInfo) (d : Region) : Prop where
  /-- The list is the search that made the region. -/
  search : Discovers f entry found d.internal (d.exits.map Exit.info)
  /-- What is found is recorded as internal or as an exit, each in the order of discovery. -/
  recorded : found.Perm (d.internal ++ d.exits.map Exit.info) ∧ d.internal.Sublist found ∧
    (d.exits.map Exit.info).Sublist found
  /-- The entry is found first, comes first among the internal blocks and has no father. -/
  first : found.head? = some entry ∧ d.internal.head? = some entry ∧ entry.father? = none
  /-- What is found is what stands in the function. -/
  placed : ∀ i ∈ found, i.place = i.serial ∧ f.block? i.serial = some i.block
  /-- No block is recorded twice. -/
  nodup : ((d.internal ++ d.exits.map Exit.info).map BlockInfo.serial).Nodup
  /-- No serial is both internal and an exit. -/
  disjoint : ∀ s, ¬ (d.isInternal s = true ∧ d.isExit s = true)
  /-- Internal blocks lead to internal blocks and exits. -/
  closed : ∀ i ∈ d.internal, ∀ s ∈ i.block.succs, d.isInternal s = true ∨ d.isExit s = true
  /-- Every block but the entry has an internal father that was found before it and leads to it.
  What is set on the way to its end is what is set on the way to the father's, and what it sets
  itself.  It is internal if it inherits nothing else and ends, if it has an instruction at all, in
  a conditional jump; and an exit otherwise. -/
  father : ∀ k i, found[k + 1]? = some i → ∃ j p, j ≤ k ∧ found[j]? = some p ∧ p ∈ d.internal ∧
    i.father? = some p.serial ∧ i.serial ∈ p.block.succs ∧
    (∀ v, v ∈ i.assumed ↔ v ∈ p.assumed ∨ v ∈ i.block.defs) ∧
    (i ∈ d.internal ↔ (∀ v ∈ i.block.free, v ∈ p.assumed) ∧
      (i.block.insns = [] ∨ ∃ t, i.block.tail? = some t ∧ t.op.isFlatteningJump = true))
  /-- The constants are those of the internal blocks, in order. -/
  values : d.values = (d.internal.filterMap fun i => i.block.comparison?).map Comparison.value

/-- **A search that leaves nothing behind makes a region in order.** -/
theorem Discovers.orderly (h : Discovers f entry found d.internal (d.exits.map Exit.info))
    (hf : f.Shaped) (hp : Pending [] d) (hentry : f.block? entry.place = some entry.block)
    (hfather : entry.father? = none) (hcmp : entry.comparison? = entry.block.comparison?) :
    Orderly f entry found d := by
  have hserial : ∀ i ∈ found, i.serial = i.place := fun i hi => hf.placed (h.placed hentry i hi)
  have hmem : ∀ i, i ∈ found ↔ i ∈ d.internal ∨ i ∈ d.exits.map Exit.info := fun i => by
    rw [h.perm.mem_iff, List.mem_append]
  have hnd : ((d.internal ++ d.exits.map Exit.info).map BlockInfo.serial).Nodup := by
    rw [(h.perm.map _).symm.nodup_iff, List.map_congr_left hserial]
    exact h.nodup_places
  refine ⟨h, ⟨h.perm, h.sublist⟩, ⟨h.head?_found, h.head?_internal, hfather⟩, fun i hi => ?_, hnd,
    ?_, fun i hi s hs => by simpa using hp.closed i hi s hs, fun k i hk => ?_, ?_⟩
  · exact ⟨(hserial i hi).symm, hserial i hi ▸ h.placed hentry i hi⟩
  · rintro s ⟨hint, hexit⟩
    obtain ⟨i, hi, rfl⟩ := isInternal_iff.mp hint
    obtain ⟨x, hx, hxs⟩ := isExit_iff.mp hexit
    rw [← hserial x ((hmem x).mpr (.inr hx))] at hxs
    rw [List.map_append, List.nodup_append] at hnd
    exact hnd.2.2 _ (List.mem_map_of_mem hi) _ (List.mem_map_of_mem hx) hxs.symm
  · obtain ⟨j, p, hj, hfound, hint, hsucc, hi, hiff⟩ := h.exists_father hk
    have hser := hserial i (List.mem_of_getElem? hk)
    refine ⟨j, p, hj, hfound, hint, ?_, hser ▸ hsucc, fun v => ?_, ?_⟩
    · rw [hi]
      rfl
    · conv_lhs => rw [hi]
      exact mem_adjoinAll
    · rw [hiff, hi]
      exact belongs_child_iff
  · rw [Region.values, List.map_filterMap]
    refine List.filterMap_congr fun i hi => ?_
    rcases h.eq_entry_or_child ((hmem i).mpr (.inl hi)) with rfl | ⟨p, hp⟩
    · rw [hcmp]
    · rw [hp]
      rfl

theorem Orderly.congr {d' : Region} (h : Orderly f entry found d) (hi : d'.internal = d.internal)
    (hx : d'.exits.map Exit.info = d.exits.map Exit.info) : Orderly f entry found d' := by
  have hint : ∀ s, d'.isInternal s = d.isInternal s := fun s => by simp only [isInternal, hi]
  have hexit : ∀ s, d'.isExit s = d.isExit s := fun s => by
    rw [Bool.eq_iff_iff, isExit_iff, isExit_iff, hx]
  have hvalues : d'.values = d.values := by simp only [Region.values, hi]
  refine ⟨hi ▸ hx ▸ h.search, hi ▸ hx ▸ h.recorded, hi ▸ h.first, h.placed, hi ▸ hx ▸ h.nodup, ?_,
    ?_, hi ▸ h.father, hvalues ▸ hi ▸ h.values⟩
  · simpa only [hint, hexit] using h.disjoint
  · simpa only [hi, hint, hexit] using h.closed

namespace Orderly

theorem blocks (h : Orderly f entry found d) (x : Int) (hx : d.isInternal x = true) :
    ∃ b, f.block? x = some b := by
  obtain ⟨i, hi, rfl⟩ := isInternal_iff.mp hx
  exact ⟨i.block, (h.placed i (h.recorded.2.1.subset hi)).2⟩

theorem entrySerial_eq (h : Orderly f entry found d) : d.entrySerial = entry.serial := by
  simp [entrySerial, entry?, h.first.2.1]

theorem not_isExit_entrySerial (h : Orderly f entry found d) :
    d.isExit d.entrySerial = false := by
  have hint : d.isInternal d.entrySerial = true :=
    isInternal_iff.mpr ⟨entry, List.mem_of_head? h.first.2.1, h.entrySerial_eq.symm⟩
  exact Bool.eq_false_iff.mpr fun hx => h.disjoint _ ⟨hint, hx⟩

/-- A region in order whose entry branches is rooted. -/
theorem rooted (h : Orderly f entry found d) (hbr : entry.block.IsBranch) : d.Rooted f := by
  obtain ⟨hplace, hb⟩ := h.placed entry (List.mem_of_head? h.first.1)
  have hser := h.entrySerial_eq
  exact ⟨⟨entry, h.first.2.1, hplace.trans hser.symm⟩, ⟨entry.block, hser ▸ hb, hbr⟩,
    h.not_isExit_entrySerial, h.blocks⟩

end Orderly

/-- A block that may start a region compares something. -/
theorem exists_comparison_of_admits {cfg : Config} {hub : Int} {viaHub : Bool}
    (h : admits cfg f hub b = .ok (some viaHub)) : ∃ c, b.comparison? = some c := by
  cases hc : b.comparison? with
  | some c => exact ⟨c, rfl⟩
  | none => simp [admits, Func.isCandidateEntry, hc, Except.map] at h

theorem entryInfo_eq_ok {hub last : Int} (h : entryInfo f hub last s b = .ok entry) :
    ∃ assumed, entry = { BlockInfo.ofBlock b s none [] with assumed := assumed } := by
  unfold entryInfo at h
  dsimp only at h
  split at h
  · split at h
    · cases h
    · exact ⟨_, (Except.ok.inj h).symm⟩
  · exact ⟨_, (Except.ok.inj h).symm⟩

theorem growthBound_eq (f : Func) :
    growthBound f = (f.blocks.map fun b => b.succs.length + 1).sum + 1 := by
  simp [growthBound, List.length_flatMap, List.sum_map_add]

/-- **The bound on the steps of a growth is enough** from every block that is internal already. -/
theorem weight_le_growthBound (hf : f.Shaped) (hb : f.block? s = some b)
    (hs : d.isInternal s = true) (entry : BlockInfo) :
    stackWeight [(entry, b.succs)] + restWeight f d ≤ growthBound f := by
  have hsub : (f.blocks.filter fun b' => !d.isInternal b'.serial).Sublist (f.blocks.erase b) := by
    rw [(nodup_blocks hf).erase_eq_filter]
    refine List.monotone_filter_right _ fun b' hb' => ?_
    have hne : b' ≠ b := by
      rintro rfl
      simp [hf.placed hb, hs] at hb'
    simpa using hne
  have hle := (hsub.map fun b => b.succs.length + 1).sum_le_sum fun _ _ => Nat.zero_le _
  have hall := List.sum_map_erase (fun b => b.succs.length + 1) (Func.mem_of_block? hb)
  rw [growthBound_eq]
  simp only [stackWeight, restWeight, List.map_cons, List.map_nil, List.sum_cons,
    List.sum_nil]
  omega

/-- **Exploration from a block that may start a region judges a region in order.** -/
theorem exists_explore (hf : f.Verified) {cfg : Config} {hub last : Int}
    (hlast : last = noBlock ∨ ∃ b, f.block? last = some b) (hb : f.block? s = some b)
    {viaHub : Bool} (hadm : admits cfg f hub b = .ok (some viaHub)) :
    ∃ entry found d, entry.block = b ∧ Orderly f entry found d ∧
      explore cfg f hub last s b = judge cfg f b.serial d := by
  obtain ⟨c, hc⟩ := exists_comparison_of_admits hadm
  obtain ⟨entry, hentry, hplace, hblock⟩ := entryInfo_spec (s := s) hub hlast b
  obtain ⟨assumed, hinfo⟩ := entryInfo_eq_ok hentry
  have hat : f.block? entry.place = some entry.block := by rw [hplace, hblock, hb]
  have hserial : entry.serial = s := by rw [BlockInfo.serial, hblock, hf.placed hb]
  have hpending : Pending [(entry, b.succs)] (seed hub last viaHub entry c) := by
    refine ⟨fun x hx => ?_, fun i hi t ht => ?_⟩
    · obtain rfl := List.mem_singleton.mp hx
      exact ⟨by simp [seed], by rw [hblock]; exact List.Subset.refl _⟩
    · obtain rfl := List.mem_singleton.mp hi
      exact .inr (.inr ⟨_, List.mem_singleton_self _, hblock ▸ ht⟩)
  obtain ⟨found, d, hgrow, hfound, hclosed⟩ := grow_discovers hf hat (growthBound f)
    ⟨.entry, hpending⟩
    (weight_le_growthBound hf.toShaped hb (by simp [isInternal, seed, hserial]) entry)
  refine ⟨entry, found, d, hblock, ?_, explore_eq_judge hadm hc hentry hgrow⟩
  exact hfound.orderly hf.toShaped hclosed hat (by rw [hinfo]; rfl) (by rw [hinfo]; rfl)

/-- **Exploring from a block does not fail, and what is believed is rooted there.** -/
theorem explore_spec (hf : f.Verified) (cfg : Config) (hub : Int) {last : Int}
    (hlast : last = noBlock ∨ ∃ b, f.block? last = some b) (hb : f.block? s = some b) :
    ∃ r, (explore cfg f hub last s b).verdict = .ok r ∧
      (r = true → (explore cfg f hub last s b).region.Rooted f) := by
  obtain ⟨candidate, hcand⟩ := Func.isCandidateEntry_spec hf hb
  obtain ⟨via, hvia⟩ : ∃ via, admits cfg f hub b = .ok via := by
    simp [admits, hcand, Except.map]
  cases via with
  | none => exact ⟨false, by simp [explore, hvia], by simp⟩
  | some viaHub =>
    obtain ⟨c, hc⟩ := exists_comparison_of_admits hvia
    obtain ⟨entry, found, d, rfl, hord, heq⟩ := exists_explore hf hlast hb hvia
    obtain ⟨hint, -, hexits⟩ := judge_region cfg f entry.block.serial d
    obtain ⟨r, hr⟩ := exists_verdict_judge hord.blocks cfg entry.block.serial
    rw [heq]
    exact ⟨r, hr, fun _ => (hord.congr hint hexits).rooted (Block.isBranch_of_comparison? hc)⟩

/-- **Every exploration leaves a region in order**, believed or not.  If it is believed, each exit
is selected by the constants that lead to it, and under a strict configuration the internal blocks
but the entry are entered from internal blocks only. -/
theorem explore_orderly (hf : f.verify = .ok ()) (cfg : Config) {last : Int} {viaHub : Bool}
    (hlast : f.lastBeforeHub (f.guessHub cfg.minPredecessors) = .ok last)
    (hb : f.block? s = some b)
    (hadm : admits cfg f (f.guessHub cfg.minPredecessors) b = .ok (some viaHub)) :
    let x := explore cfg f (f.guessHub cfg.minPredecessors) last s b
    ∃ believed entry found, x.verdict = .ok believed ∧ entry.block = b ∧
      Orderly f entry found x.region ∧
      (believed = true → cfg.strictExternalFathers = true →
        ∀ i ∈ x.region.internal.tail, ∀ p ∈ i.block.preds, x.region.isInternal p = true) ∧
      (believed = true → ∀ y ∈ x.region.exits, ∀ v,
        v ∈ y.selectors ↔ v ∈ x.region.values ∧
          x.region.resolve? f v = .ok (some y.info.serial)) := by
  have hver := Func.verify_eq_ok_iff.mp hf
  obtain ⟨entry, found, d, hblock, hord, heq⟩ :=
    exists_explore hver (Func.lastBeforeHub_cases hver hlast) hb hadm
  obtain ⟨hint, -, hexits⟩ := judge_region cfg f b.serial d
  obtain ⟨r, hr⟩ := exists_verdict_judge hord.blocks cfg b.serial
  dsimp only
  rw [heq]
  refine ⟨r, entry, found, hr, hblock, hord.congr hint hexits, ?_, ?_⟩
  · rintro rfl hstrict
    have houtside := isInternal_of_enteredFromOutside ((judge_accepts hr).1 hstrict)
    simpa only [isInternal, hint] using houtside
  · rintro rfl y hy v
    have hnd : (d.exits.map fun x => x.info.serial).Nodup := by
      have := hord.nodup
      rw [List.map_append, List.nodup_append, List.map_map] at this
      exact this.2.1
    have hpair := (judge_accepts hr).2
    rw [resolve?_pairExits hpair]
    obtain ⟨resolved, hres, hregion⟩ := pairExits_eq_ok_iff.mp hpair
    rw [← hregion] at hy ⊢
    rw [selectors_pairAll hnd y hy, mem_selectorsOf hres]
    rfl

/-- Two comparisons and an empty block that leads back to the first of them. -/
def switchback : Func := function "switchback" [
  block 0 [.mov (lit 0x3c3c3c3c) (reg 1), .goto 1],
  branching 1 .jz (reg 1) (lit 0x5a5a5a5a) 3 2,
  branching 2 .jz (reg 1) (lit 0x3c3c3c3c) 5 4,
  block 3 [.ret (lit 7)],
  falling 4 [] 1,
  block 5 [.mov (lit 0x5a5a5a5a) (reg 1), .goto 1]]

theorem explore_orderly_switchback : switchback.verify = .ok () ∧
    switchback.lastBeforeHub (switchback.guessHub 4) = .ok noBlock ∧
    ∃ b, switchback.block? 1 = some b ∧
      admits {} switchback (switchback.guessHub 4) b = .ok (some false) ∧
      let x := explore {} switchback (switchback.guessHub 4) noBlock 1 b
      x.verdict.toOption = some true ∧
      ∃ entry found, entry.block = b ∧ Orderly switchback entry found x.region ∧
        (∀ i ∈ x.region.internal.tail, ∀ p ∈ i.block.preds, x.region.isInternal p = true) ∧
        ∀ y ∈ x.region.exits, ∀ v, v ∈ y.selectors ↔
          v ∈ x.region.values ∧ x.region.resolve? switchback v = .ok (some y.info.serial) := by
  have hbelieved : (switchback.block? 1).map (fun b =>
      (explore {} switchback (switchback.guessHub 4) noBlock 1 b).verdict.toOption) =
        some (some true) := by decide +kernel
  obtain ⟨b, hb, hverdict⟩ := Option.map_eq_some_iff.mp hbelieved
  have hadm : admits {} switchback (switchback.guessHub 4) b = .ok (some false) := by
    obtain rfl := Option.some.inj hb
    rfl
  refine ⟨rfl, rfl, b, hb, hadm, hverdict, ?_⟩
  obtain ⟨_, entry, found, hr, hblock, h, hpreds, hsel⟩ :=
    explore_orderly (f := switchback) rfl {} rfl hb hadm
  obtain rfl := Option.mem_unique (congrArg Except.toOption hr) hverdict
  exact ⟨entry, found, hblock, h, hpreds rfl rfl, hsel rfl⟩

end Region

end Deflatten

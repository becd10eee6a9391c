import Mathlib.Logic.Relation
import Deflatten.Proofs.Editing.Threading
import Deflatten.Proofs.Execution.Lockstep

/-!
# Proofs/Editing/JumpChains — where chains of jumps end, and that threading leaves none

A block that holds a jump and nothing else hops (`Func.Hops`).  Hops lead from a serial to a block
that does not hop, or to a cycle of hops, and `Func.Arrives` names the first such place;
`Func.finalTarget` computes it (`arrives_finalTarget`).

    s → r → … → t          an edit replaces the target of a hop by a place further along the chain

Threading edits blocks in place while later walks already read the edited ones.  That does no harm:
every edit leaves all final targets where they were (`Shortens.arrives`), so each block ends up
aimed at the final targets of the function it was in, in whatever order the blocks are taken.
-/

namespace Deflatten

/-! ## Hops -/

namespace Block

variable {φ : Int → Int} {b b' : Block} {t : Int}

/-- Where a block jumps that does nothing else. -/
def hop? (b : Block) : Option Int :=
  match b.insns with
  | [i] => if i.op = .goto then some i.d.block else none
  | _ => none

theorem hop?_eq_some_iff : b.hop? = some t ↔ ∃ i, b.insns = [i] ∧ i.op = .goto ∧ i.d.block = t := by
  unfold hop?
  split
  · next i hi => simp [hi]
  · next hno =>
    refine iff_of_false (by simp) ?_
    rintro ⟨i, hi, -⟩
    exact hno i hi

theorem hop?_congr (h : b'.insns = b.insns) : b'.hop? = b.hop? := by
  simp only [hop?, h]

/-- The parts of a block that holds one jump. -/
theorem parts_of_goto {i : Insn} (hi : b.insns = [i]) (hg : i.op = .goto) :
    b.body = [] ∧ b.terminator? = some i := by
  have hends : i.op.endsBlock = true := by rw [hg]; rfl
  have hi : b.insns = [] ++ [i] := hi
  exact ⟨body_of_append hi hends, terminator?_of_append hi hends⟩

/-- **A block that is aimed elsewhere hops there.** -/
theorem Retargets.hop? (h : Retargets φ b b') : b'.hop? = b.hop?.map φ := by
  refine Option.ext fun t => ?_
  rw [Option.map_eq_some_iff, hop?_eq_some_iff]
  constructor
  · rintro ⟨i', hi', hg', rfl⟩
    obtain ⟨hbody', hterm'⟩ := parts_of_goto hi' hg'
    obtain ⟨i, ht, rfl⟩ := Option.map_eq_some_iff.mp (h.terminator_eq.symm.trans hterm')
    have hg : i.op = .goto := by simpa using hg'
    have hi : b.insns = [i] := by rw [insns_eq_append ht, ← h.body_eq, hbody', List.nil_append]
    refine ⟨i.d.block, hop?_eq_some_iff.mpr ⟨i, hi, hg, rfl⟩, ?_⟩
    rw [Insn.retarget_of_isJump (by rw [hg]; rfl), Insn.block_withTarget]
  · rintro ⟨r, hr, rfl⟩
    obtain ⟨i, hi, hg, rfl⟩ := hop?_eq_some_iff.mp hr
    obtain ⟨hbody, hterm⟩ := parts_of_goto hi hg
    have hterm' : b'.terminator? = some (i.retarget φ) := by rw [h.terminator_eq, hterm]; rfl
    refine ⟨i.retarget φ, ?_, by simpa using hg, ?_⟩
    · rw [insns_eq_append hterm', h.body_eq, hbody, List.nil_append]
    · rw [Insn.retarget_of_isJump (by rw [hg]; rfl), Insn.block_withTarget]

end Block

namespace Func

variable {f g : Func} {r s t u x y : Int} {b b' : Block} {fuel k j : Nat} {seen : List Int}

/-- **The block at `s` holds a jump to `t` and nothing else.** -/
def Hops (f : Func) (s t : Int) : Prop := ∃ b, f.block? s = some b ∧ b.hop? = some t

theorem Hops.unique (h : f.Hops s t) (h' : f.Hops s u) : t = u := by
  obtain ⟨b, hb, ht⟩ := h
  obtain ⟨b', hb', hu⟩ := h'
  obtain rfl := Option.mem_unique hb hb'
  exact Option.mem_unique ht hu

/-- **Hops lead from `s` back to it.** -/
def OnCycle (f : Func) (s : Int) : Prop := Relation.TransGen f.Hops s s

/-- Where hops lead from a cycle is on it. -/
theorem OnCycle.hops (h : f.OnCycle s) (hst : f.Hops s t) : f.OnCycle t := by
  obtain ⟨r, hsr, hrs⟩ := Relation.TransGen.head'_iff.mp h
  obtain rfl := hst.unique hsr
  exact .tail' hrs hst

/-- So many hops lead from `s` to `t`, the first time it is met. -/
inductive Meets (f : Func) (t : Int) : Nat → Int → Prop
  | here : Meets f t 0 t
  | hops {s r : Int} {k : Nat} (hne : s ≠ t) (h : f.Hops s r) (rest : Meets f t k r) :
    Meets f t (k + 1) s

theorem Meets.unique (h : f.Meets t k s) (h' : f.Meets t j s) : k = j := by
  induction h generalizing j with
  | here =>
    cases h' with
    | here => rfl
    | hops hne _ _ => exact absurd rfl hne
  | hops hne hh _ ih =>
    cases h' with
    | here => exact absurd rfl hne
    | hops _ hh' rest' =>
      obtain rfl := hh.unique hh'
      exact congrArg (· + 1) (ih rest')

theorem exists_meets (h : Relation.ReflTransGen f.Hops s t) : ∃ k, f.Meets t k s := by
  induction h using Relation.ReflTransGen.head_induction_on with
  | refl => exact ⟨0, .here⟩
  | head hh _ ih =>
    obtain ⟨k, hk⟩ := ih
    rename_i s r _
    by_cases hst : s = t
    · exact ⟨0, hst ▸ .here⟩
    · exact ⟨k + 1, .hops hst hh hk⟩

/-! ## The walk -/

theorem threadEnd_of_mem (hs : s ∈ seen) : f.threadEnd (fuel + 1) seen s = s := by
  simp [threadEnd, hs]

theorem threadEnd_of_hops (hs : s ∉ seen) (h : f.Hops s t) :
    f.threadEnd (fuel + 1) seen s = f.threadEnd fuel (s :: seen) t := by
  obtain ⟨b, hb, ht⟩ := h
  obtain ⟨i, hi, hg, rfl⟩ := Block.hop?_eq_some_iff.mp ht
  simp [threadEnd, hs, hb, hi, hg]

theorem threadEnd_of_rests (h : ¬ ∃ t, f.Hops s t) : f.threadEnd (fuel + 1) seen s = s := by
  rw [threadEnd]
  split
  · rfl
  split
  · next i hi =>
    split
    · next hg =>
      cases hb : f.block? s with
      | none => simp [hb] at hi
      | some b =>
        have hi : b.insns = [i] := by simpa [hb] using hi
        exact absurd ⟨_, b, hb, Block.hop?_eq_some_iff.mpr ⟨i, hi, hg, rfl⟩⟩ h
    · rfl
  · rfl

/-- **A walk under way**: the blocks passed are different ones, and with the fuel left they are more
than there are. -/
structure Walking (f : Func) (fuel : Nat) (seen : List Int) : Prop where
  nodup : seen.Nodup
  /-- What was passed are blocks. -/
  inside : ∀ x ∈ seen, ∃ b, f.block? x = some b
  /-- The fuel suffices for the others. -/
  enough : f.blocks.length < fuel + seen.length

theorem Walking.start (f : Func) : f.Walking (f.blocks.length + 1) [] :=
  ⟨List.nodup_nil, by simp, by simp⟩

/-- A walk does not run out of fuel. -/
theorem Walking.exists_fuel (h : f.Walking fuel seen) : ∃ n, fuel = n + 1 := by
  have hsub : seen ⊆ (List.range f.blocks.length).map Int.ofNat := fun x hx => by
    obtain ⟨b, hb⟩ := h.inside x hx
    obtain ⟨h₀, hlt⟩ := lt_of_block? hb
    exact List.mem_map.mpr ⟨x.toNat, by simp; omega, by simp; omega⟩
  have hle : seen.length ≤ f.blocks.length := by simpa using h.nodup.length_le_of_subset hsub
  have := h.enough
  exact ⟨fuel - 1, by omega⟩

theorem Walking.hops (h : f.Walking (fuel + 1) seen) (hs : s ∉ seen) (hst : f.Hops s t) :
    f.Walking fuel (s :: seen) := by
  refine ⟨List.nodup_cons.mpr ⟨hs, h.nodup⟩, fun x hx => ?_, ?_⟩
  · rcases List.mem_cons.mp hx with rfl | hx
    · obtain ⟨b, hb, -⟩ := hst
      exact ⟨b, hb⟩
    · exact h.inside x hx
  · have := h.enough
    simp only [List.length_cons]
    omega

/-- **A walk that is bound to meet `t` again ends there.**  A block passed on the way has more hops
in front of it than the one the walk stands at, and a block passed before is not come to again, so
none is met before `t`. -/
theorem threadEnd_of_meets (h : f.Meets t k s) (hw : f.Walking fuel seen) (ht : t ∈ seen)
    (hseen : ∀ x ∈ seen, x = t ∨ (∃ j, k < j ∧ f.Meets t j x) ∨
      ¬ Relation.ReflTransGen f.Hops s x) : f.threadEnd fuel seen s = t := by
  induction h generalizing fuel seen with
  | here =>
    obtain ⟨fuel, rfl⟩ := hw.exists_fuel
    exact threadEnd_of_mem ht
  | @hops s r k hne hh rest ih =>
    obtain ⟨fuel, rfl⟩ := hw.exists_fuel
    have hs : s ∉ seen := by
      intro hs
      obtain rfl | ⟨j, hj, hm⟩ | hno := hseen s hs
      · exact hne rfl
      · have := hm.unique (.hops hne hh rest)
        omega
      · exact hno .refl
    rw [threadEnd_of_hops hs hh]
    refine ih (hw.hops hs hh) (List.mem_cons_of_mem _ ht) fun x hx => ?_
    rcases List.mem_cons.mp hx with rfl | hx
    · exact .inr (.inl ⟨k + 1, by omega, .hops hne hh rest⟩)
    · obtain rfl | ⟨j, hj, hm⟩ | hno := hseen x hx
      · exact .inl rfl
      · exact .inr (.inl ⟨j, by omega, hm⟩)
      · exact .inr (.inr fun hrx => hno (.head hh hrx))

/-- A walk from a block on a cycle comes back to it. -/
theorem OnCycle.threadEnd (h : f.OnCycle s) (hw : f.Walking fuel seen)
    (hseen : ∀ x ∈ seen, ¬ Relation.ReflTransGen f.Hops s x) : f.threadEnd fuel seen s = s := by
  obtain ⟨fuel, rfl⟩ := hw.exists_fuel
  obtain ⟨r, hsr, hrs⟩ := Relation.TransGen.head'_iff.mp h
  obtain ⟨k, hmeets⟩ := exists_meets hrs
  have hs : s ∉ seen := fun hs => hseen s hs .refl
  rw [threadEnd_of_hops hs hsr]
  refine threadEnd_of_meets hmeets (hw.hops hs hsr) (by simp) fun x hx => ?_
  rcases List.mem_cons.mp hx with rfl | hx
  · exact .inl rfl
  · exact .inr (.inr fun hrx => hseen x hx (.head hsr hrx))

/-! ## Where chains end -/

/-- **The chain of hops from `s` ends at `t`**: at the first block that does not hop or is on a
cycle. -/
inductive Arrives (f : Func) : Int → Int → Prop
  /-- At a block that does not hop. -/
  | rests {s : Int} (h : ¬ ∃ t, f.Hops s t) : Arrives f s s
  /-- On a cycle. -/
  | circles {s : Int} (h : f.OnCycle s) : Arrives f s s
  /-- Further along. -/
  | hops {s r t : Int} (h : f.Hops s r) (hc : ¬ f.OnCycle s) (rest : Arrives f r t) : Arrives f s t

theorem Arrives.unique (h : f.Arrives s t) (h' : f.Arrives s u) : t = u := by
  induction h with
  | rests hno =>
    cases h' with
    | rests _ => rfl
    | circles _ => rfl
    | hops hh _ _ => exact absurd ⟨_, hh⟩ hno
  | circles hc =>
    cases h' with
    | rests _ => rfl
    | circles _ => rfl
    | hops _ hc' _ => exact absurd hc hc'
  | hops hh hc _ ih =>
    cases h' with
    | rests hno => exact absurd ⟨_, hh⟩ hno
    | circles hc' => exact absurd hc' hc
    | hops hh' _ rest' =>
      obtain rfl := hh.unique hh'
      exact ih rest'

theorem Arrives.final (h : f.Arrives s t) : (¬ ∃ u, f.Hops t u) ∨ f.OnCycle t := by
  induction h with
  | rests hno => exact .inl hno
  | circles hc => exact .inr hc
  | hops _ _ _ ih => exact ih

/-- **An end is its own end.** -/
theorem Arrives.self (h : f.Arrives s t) : f.Arrives t t := h.final.elim .rests .circles

theorem Arrives.reflTransGen (h : f.Arrives s t) : Relation.ReflTransGen f.Hops s t := by
  induction h with
  | rests _ => exact .refl
  | circles _ => exact .refl
  | hops hh _ _ ih => exact .head hh ih

/-- **The walk ends where the chain does.** -/
theorem arrives_threadEnd (hw : f.Walking fuel seen)
    (hseen : ∀ x ∈ seen, ¬ Relation.ReflTransGen f.Hops s x) :
    f.Arrives s (f.threadEnd fuel seen s) := by
  induction fuel generalizing s seen with
  | zero =>
    obtain ⟨n, hn⟩ := hw.exists_fuel
    cases hn
  | succ fuel ih =>
    have hs : s ∉ seen := fun hs => hseen s hs .refl
    by_cases hno : ∃ r, f.Hops s r
    · obtain ⟨r, hh⟩ := hno
      by_cases hc : f.OnCycle s
      · rw [hc.threadEnd hw hseen]
        exact .circles hc
      · rw [threadEnd_of_hops hs hh]
        refine .hops hh hc (ih (hw.hops hs hh) fun x hx hrx => ?_)
        rcases List.mem_cons.mp hx with rfl | hx
        · exact hc (.head' hh hrx)
        · exact hseen x hx (.head hh hrx)
    · rw [threadEnd_of_rests hno]
      exact .rests hno

theorem arrives_finalTarget (f : Func) (s : Int) : f.Arrives s (f.finalTarget s) :=
  arrives_threadEnd (.start f) (by simp)

theorem Arrives.finalTarget_eq (h : f.Arrives s t) : f.finalTarget s = t :=
  (f.arrives_finalTarget s).unique h

theorem arrives_self_iff : f.Arrives s s ↔ f.finalTarget s = s :=
  ⟨Arrives.finalTarget_eq, fun h => by simpa [h] using f.arrives_finalTarget s⟩

@[simp] theorem finalTarget_finalTarget (f : Func) (s : Int) :
    f.finalTarget (f.finalTarget s) = f.finalTarget s :=
  (f.arrives_finalTarget s).self.finalTarget_eq

/-! ## Shortened chains -/

/-- **The hops of `g` are those of `f`**, each to where it went or to the end of the chain from
there. -/
structure Shortens (f g : Func) : Prop where
  /-- What hops in `f` hops in `g`. -/
  hops : ∀ {s t}, f.Hops s t → g.Hops s t ∨ g.Hops s (f.finalTarget t)
  /-- What hops in `g` hops in `f`. -/
  exists_hops : ∀ {s t}, g.Hops s t → ∃ r, f.Hops s r ∧ (t = r ∨ t = f.finalTarget r)

namespace Shortens

theorem transGen (h : f.Shortens g) (hst : g.Hops s t) : Relation.TransGen f.Hops s t := by
  obtain ⟨r, hsr, rfl | rfl⟩ := h.exists_hops hst
  · exact .single hsr
  · exact .head' hsr (f.arrives_finalTarget r).reflTransGen

/-- **Cycles stay as they are**: every block on one is its own final target. -/
theorem hops_of_onCycle (h : f.Shortens g) (hc : f.OnCycle s) (hst : f.Hops s t) : g.Hops s t := by
  have ht : f.finalTarget t = t := (Arrives.circles (hc.hops hst)).finalTarget_eq
  rcases h.hops hst with hg | hg
  · exact hg
  · rwa [ht] at hg

theorem onCycle_iff (h : f.Shortens g) : g.OnCycle s ↔ f.OnCycle s := by
  constructor
  · intro hc
    exact Relation.TransGen.closed (fun _ _ hst => h.transGen hst) _ _ hc
  · intro hc
    -- all blocks on the way round are on the cycle
    have key : ∀ {t}, Relation.TransGen f.Hops s t →
        Relation.TransGen g.Hops s t ∧ f.OnCycle t := by
      intro t ht
      induction ht with
      | single hst => exact ⟨.single (h.hops_of_onCycle hc hst), hc.hops hst⟩
      | tail _ hst ih => exact ⟨.tail ih.1 (h.hops_of_onCycle ih.2 hst), ih.2.hops hst⟩
    exact (key hc).1

theorem rests_iff (h : f.Shortens g) : (¬ ∃ t, g.Hops s t) ↔ ¬ ∃ t, f.Hops s t := by
  refine not_congr ⟨fun ⟨t, hst⟩ => ?_, fun ⟨t, hst⟩ => ?_⟩
  · obtain ⟨r, hsr, -⟩ := h.exists_hops hst
    exact ⟨r, hsr⟩
  · exact (h.hops hst).elim (fun hg => ⟨_, hg⟩) fun hg => ⟨_, hg⟩

/-- **Chains end where they did.** -/
theorem arrives (h : f.Shortens g) (ha : f.Arrives s t) : g.Arrives s t := by
  induction ha with
  | rests hno => exact .rests (h.rests_iff.mpr hno)
  | circles hc => exact .circles (h.onCycle_iff.mpr hc)
  | @hops s r t hsr hc rest ih =>
    have hc' : ¬ g.OnCycle s := fun hg => hc (h.onCycle_iff.mp hg)
    rcases h.hops hsr with hg | hg
    · exact .hops hg hc' ih
    · rw [rest.finalTarget_eq] at hg
      exact .hops hg hc' ih.self

theorem finalTarget_eq (h : f.Shortens g) : g.finalTarget = f.finalTarget :=
  funext fun s => (h.arrives (f.arrives_finalTarget s)).finalTarget_eq

end Shortens

/-- **Blocks that are the same or aimed at their final targets** shorten chains. -/
theorem shortens_of_blocks (hlen : g.blocks.length = f.blocks.length)
    (h : ∀ {s b b'}, f.block? s = some b → g.block? s = some b' →
      b'.insns = b.insns ∨ b.Retargets f.finalTarget b') : f.Shortens g := by
  refine ⟨fun {s t} ⟨b, hb, ht⟩ => ?_, fun {s t} ⟨b', hb', ht⟩ => ?_⟩
  · obtain ⟨b', hb'⟩ := exists_block? (lt_of_block? hb).1 (hlen ▸ (lt_of_block? hb).2)
    rcases h hb hb' with hi | hr
    · exact .inl ⟨b', hb', (Block.hop?_congr hi).trans ht⟩
    · exact .inr ⟨b', hb', by rw [hr.hop?, ht]; rfl⟩
  · obtain ⟨b, hb⟩ := exists_block? (lt_of_block? hb').1 (hlen ▸ (lt_of_block? hb').2)
    rcases h hb hb' with hi | hr
    · exact ⟨t, ⟨b, hb, (Block.hop?_congr hi).symm.trans ht⟩, .inl rfl⟩
    · rw [hr.hop?, Option.map_eq_some_iff] at ht
      obtain ⟨r, hbr, rfl⟩ := ht
      exact ⟨r, ⟨b, hb, hbr⟩, .inr rfl⟩

/-! ## Threading block after block -/

theorem finalTarget_threadBlock {n : Nat} (hb : f.block? s = some b)
    (h : f.threadBlock b = .ok (b', n)) :
    (f.modifyBlock s fun _ => b').finalTarget = f.finalTarget := by
  refine Shortens.finalTarget_eq
    (shortens_of_blocks (length_blocks_modifyBlock ..) fun {x c c'} hc hc' => ?_)
  rcases cases_modifyBlock hb hc' with ⟨rfl, rfl⟩ | ⟨-, hc''⟩
  · obtain rfl := Option.mem_unique hb hc
    exact .inr (threadBlock_spec h).1
  · obtain rfl := Option.mem_unique hc hc''
    exact .inl rfl

/-- **Each block that was taken is aimed at the final targets**, those of the function it was in;
the others are as they were. -/
theorem block?_threadBlocks {is : List Nat} {n : Nat} (h : threadBlocks is f = .ok (g, n))
    (hnd : is.Nodup) (hb : f.block? s = some b) :
    ∃ b', g.block? s = some b' ∧
      (s.toNat ∈ is → b.Retargets f.finalTarget b') ∧ (s.toNat ∉ is → b' = b) := by
  induction is generalizing f b n with
  | nil =>
    obtain ⟨rfl, -⟩ := Prod.mk.inj (Except.ok.inj h)
    exact ⟨b, hb, by simp, fun _ => rfl⟩
  | cons i is ih =>
    obtain ⟨hi, hnd⟩ := List.nodup_cons.mp hnd
    rcases threadBlocks_cons h with ⟨hno, h⟩ | ⟨c, c', k, r, hc, hc', h, -⟩
    · obtain ⟨b', hb', hin, hout⟩ := ih h hnd hb
      have hne : s.toNat ≠ i := by
        rintro rfl
        rw [Int.toNat_of_nonneg (lt_of_block? hb).1, hb] at hno
        cases hno
      exact ⟨b', hb', fun h => hin (by simpa [hne] using h), fun h => hout (by simp_all)⟩
    · have hfinal := finalTarget_threadBlock hc hc'
      by_cases hs : s.toNat = i
      · obtain rfl : (i : Int) = s := by have := (lt_of_block? hb).1; omega
        obtain rfl := Option.mem_unique hc hb
        obtain ⟨b', hb', -, hout⟩ := ih (b := c') h hnd (by simp [block?_modifyBlock, hc])
        obtain rfl := hout (by simpa using hi)
        exact ⟨_, hb', fun _ => (threadBlock_spec hc').1, fun h => absurd (by simp) h⟩
      · have hne : s ≠ i := by omega
        obtain ⟨b', hb', hin, hout⟩ := ih (b := b) h hnd (by simp [block?_modifyBlock, hne, hb])
        rw [hfinal] at hin
        exact ⟨b', hb', fun h => hin (by simpa [hs] using h), fun h => hout (by simp_all)⟩

end Func

end Deflatten

import Deflatten.Proofs.Editing.Compaction
import Deflatten.Proofs.Editing.DeadStores
import Deflatten.Proofs.Editing.Edits
import Deflatten.Proofs.Editing.Outcomes
import Deflatten.Proofs.Editing.Threading
import Deflatten.Flattening.Samples
import Mathlib.Data.List.Sort

/-!
# Proofs/Editing/Mutations — every change keeps functions in order

A `Mutation` is a call of one of the changes with its arguments.  On a function in order it leaves a
function in order, and if it fails it leaves the function that was there (`Mutation.keeps`): all but
`Func.appendBlock` look before they write, and that one takes its block out again, after which the
edges are written as they were, since they follow from the instructions (`SameCode.blocks_rewired`).
-/

namespace Deflatten

open Samples (lit reg sum)

namespace Block

/-- The block without its edges. -/
def bare (b : Block) : Block := { b with preds := [], succs := [] }

theorem exits_bare (b : Block) : b.bare.exits = b.exits := exits_congr rfl

/-- **A block that a redirection gives fits** where its new target is. -/
theorem Fits.redirect? {b b' : Block} {n : Nat} {old new : Int} (hb : b.Fits n)
    (h : b.redirect? old new = some b') (hnew : 0 ≤ new ∧ new < n) :
    b'.serial = b.serial ∧ b'.Fits n := by
  by_cases hold : old ∈ b.exits
  · obtain ⟨b₁, hb₁, hser, hret⟩ := redirect?_of_mem new hold
    obtain rfl := Option.mem_unique h hb₁
    exact ⟨hser, hret.fits hb (Func.moved_noBlock hb hold) (Func.moved_mem hb hnew)⟩
  · -- all that is left is a block that went nowhere, and `old` is no block
    unfold Block.redirect? at h
    cases ht : b.terminator? with
    | none =>
      simp only [ht, Option.ite_none_right_eq_some, Option.some.injEq] at h
      obtain ⟨-, rfl⟩ := h
      have ht' : { b with next := new : Block }.terminator? = none := ht
      refine ⟨rfl, hb.plain, by simp [ht'], by simp [ht'], fun s hs => ?_⟩
      rw [exits_none ht', if_neg (ne_noBlock hnew.1), List.mem_singleton] at hs
      exact hs ▸ hnew
    | some t =>
      simp only [ht] at h
      split at h
      · next hg =>
        rw [Option.ite_none_right_eq_some] at h
        exact absurd (by simp [exits_goto ht hg, h.1]) hold
      · split at h
        · next hc =>
          rw [Option.ite_none_right_eq_some] at h
          exact absurd ((mem_exits_conditional ht hc).mpr (h.1.imp Eq.symm Eq.symm)) hold
        · cases h

end Block

namespace Func

variable {f g : Func} {b : Block} {s : Int}

/-! ## Edges follow from the rest -/

/-- **The name, the stage and the blocks are what they were**, but perhaps for the edges. -/
structure SameCode (f g : Func) : Prop where
  name_eq : g.name = f.name
  maturity_eq : g.maturity = f.maturity
  /-- The same blocks, edges apart. -/
  bare_eq : g.blocks.map Block.bare = f.blocks.map Block.bare

/-- **The function that was there**: its name, its stage and its blocks, each with its
instructions, its fall-through and its edges. -/
structure Restores (f g : Func) : Prop where
  name_eq : g.name = f.name
  maturity_eq : g.maturity = f.maturity
  blocks_eq : g.blocks = f.blocks

/-- Each block lists the blocks that have it as a successor, in strictly ascending order. -/
def Listed (f : Func) : Prop :=
  ∀ {s b}, f.block? s = some b → b.preds.Pairwise (· < ·) ∧
    ∀ p, p ∈ b.preds ↔ ∃ t, f.block? p = some t ∧ s ∈ t.succs

theorem Restores.refl (f : Func) : f.Restores f := ⟨rfl, rfl, rfl⟩

theorem sameCode_mapBlocks {h : Nat → Block → Block} (hb : ∀ i b, (h i b).bare = b.bare) :
    f.SameCode (f.mapBlocks h) := by
  refine ⟨rfl, rfl, List.ext_getElem? fun i => ?_⟩
  cases hi : f.blocks[i]? <;> simp [hi, hb]

/-- **Rebuilding writes edges only**, also where it fails. -/
theorem sameCode_rebuildEdges (f : Func) :
    (∀ g, rebuildEdges f = .ok () g → f.SameCode g) ∧
      ∀ e g, rebuildEdges f = .error e g → f.SameCode g := by
  unfold rebuildEdges
  refine ⟨fun g h => ?_, fun e g h => ?_⟩ <;> split at h
  · cases h
  · split at h <;> cases h
    exact sameCode_mapBlocks fun _ _ => rfl
  · cases h
    refine sameCode_mapBlocks fun i b => ?_
    split <;> rfl
  · split at h <;> cases h
    exact sameCode_mapBlocks fun _ _ => rfl

theorem SameCode.getElem?_bare (h : f.SameCode g) (i : Nat) :
    g.blocks[i]?.map Block.bare = f.blocks[i]?.map Block.bare := by
  simpa using congrArg (·[i]?) h.bare_eq

/-- **Edges that follow from the instructions are the same for the same instructions.** -/
theorem SameCode.blocks_rewired (h : f.SameCode g) : g.rewired.blocks = f.rewired.blocks := by
  have hexits : g.blocks.map Block.exits = f.blocks.map Block.exits := by
    simpa [Function.comp_def, Block.exits_bare] using congrArg (List.map Block.exits) h.bare_eq
  refine List.ext_getElem? fun i => ?_
  simp only [rewired, withEdges, blocks_mapBlocks, List.getElem?_mapIdx, hexits]
  have hi := h.getElem?_bare i
  cases hf : f.blocks[i]? with
  | none => simp_all
  | some b =>
    obtain ⟨b', hg, hbare⟩ : ∃ b', g.blocks[i]? = some b' ∧ b'.bare = b.bare := by
      simpa [hf] using hi
    simp only [hg, Option.map_some, List.getElem?_map, hf, Option.getD_some]
    exact congrArg some (congrArg (fun c : Block => { c with
      preds := holders (f.blocks.map Block.exits) i, succs := b.exits }) hbare)

theorem SameCode.shaped (h : f.SameCode g) (hf : f.Shaped) : g.Shaped := by
  have hlen : g.blocks.length = f.blocks.length := by simpa using congrArg List.length h.bare_eq
  have hblk : ∀ {s b'}, g.block? s = some b' → ∃ b, f.block? s = some b ∧ b'.bare = b.bare := by
    intro s b' hb'
    have hi := h.getElem?_bare s.toNat
    rw [block?_toNat hb', Option.map_some, eq_comm, Option.map_eq_some_iff] at hi
    obtain ⟨b, hb, hbare⟩ := hi
    exact ⟨b, by simpa [block?, (lt_of_block? hb').1] using hb, hbare.symm⟩
  refine ⟨fun hb' => ?_, fun hb' => ?_⟩ <;> obtain ⟨b, hb, hbare⟩ := hblk hb'
  · rw [← hf.placed hb]
    exact (congrArg Block.serial hbare :)
  · exact hlen ▸ (hf.fits hb).congr (congrArg Block.content hbare :)

/-- **A function in order has the edges that rebuilding writes.** -/
theorem WellFormed.rewired_eq (hf : f.WellFormed) : f.rewired = f := by
  have hblocks : f.rewired.blocks = f.blocks := by
    refine List.ext_getElem? fun i => ?_
    have hi := block?_rewired f i
    rw [block?_natCast, block?_natCast, Int.toNat_natCast] at hi
    rw [hi]
    cases hb : f.blocks[i]? with
    | none => rfl
    | some b =>
      have hbi : f.block? i = some b := (f.block?_natCast i).trans hb
      have hpreds : holders (f.blocks.map Block.exits) i = b.preds := by
        refine (pairwise_holders _ _).eq_of_mem_iff (hf.ascending hbi) fun p => ?_
        rw [hf.mem_preds hbi, mem_holders]
        constructor
        · rintro ⟨j, l, rfl, hl, hs⟩
          obtain ⟨t, ht, rfl⟩ := by simpa using hl
          exact ⟨t, (f.block?_natCast j).trans ht, hs⟩
        · rintro ⟨t, ht, hs⟩
          have := (lt_of_block? ht).1
          exact ⟨p.toNat, t.exits, by omega, by simp [block?_toNat ht], hs⟩
      simp [hb, hpreds, ← hf.succs_eq hbi]
  cases f with
  | mk name maturity body =>
    cases body with
    | none => rfl
    | some bs => exact congrArg (fun bs => { name, maturity, body := some bs : Func }) hblocks

/-- **Rebuilding restores a function in order** from one with the same instructions. -/
theorem WellFormed.rebuildEdges_of_sameCode (hf : f.WellFormed) (h : f.SameCode g) :
    ∃ g', rebuildEdges g = .ok () g' ∧ f.Restores g' :=
  ⟨g.rewired, (h.shaped hf.toShaped).rebuildEdges, h.name_eq, h.maturity_eq,
    h.blocks_rewired.trans (congrArg blocks hf.rewired_eq)⟩

theorem WellFormed.congr (hf : f.WellFormed) (h : g.blocks = f.blocks) : g.WellFormed := by
  have hblock : ∀ s, g.block? s = f.block? s := fun s => by simp only [block?, h]
  refine ⟨⟨⟨?_, ?_⟩, ?_, ?_⟩, ?_⟩ <;>
    intro s b hb <;> rw [hblock] at hb
  · exact hf.placed hb
  · exact h ▸ hf.fits hb
  · exact hf.succs_eq hb
  · simpa [Edge, hblock] using hf.mem_preds hb
  · exact hf.ascending hb

/-- **What `verify` and the order of predecessors come to.** -/
theorem wellFormed_iff : f.WellFormed ↔ f.verify = .ok () ∧ f.Listed := by
  rw [verify_eq_ok_iff]
  refine ⟨fun h => ⟨h.toVerified, fun hb => ⟨h.ascending hb, fun p => ?_⟩⟩,
    fun ⟨hv, hl⟩ => ⟨hv, fun hb => (hl hb).1⟩⟩
  rw [h.mem_preds hb]
  exact exists_congr fun t => and_congr_right fun ht => by rw [h.succs_eq ht]

end Func

/-! ## Calls -/

/-- **A call that keeps functions in order**: after it the function is in order, and if it fails it
is the function that was there. -/
abbrev Edit.Keeps {α : Type} (x : Edit α) (f : Func) : Prop :=
  Concludes x f (fun _ g => g.WellFormed) fun _ g => f.Restores g

section Keeps

variable {f g : Func} {α β : Type}

/-- What looks for something that it does not find has written nothing. -/
theorem Edit.keeps_ofExcept_bind {x : Except FlowError α} {k : α → Edit β}
    (hk : ∀ a, x = .ok a → (k a).Keeps f) : Edit.Keeps (Edit.ofExcept x >>= k) f :=
  concludes_ofExcept_bind (fun _ _ => .refl f) hk

namespace Func

theorem keeps_redirect (hf : f.WellFormed) (src old new : Int) : (redirect src old new).Keeps f := by
  refine concludes_get_bind
    (Edit.keeps_ofExcept_bind fun b hb => Edit.keeps_ofExcept_bind fun t ht => ?_)
  cases hr : b.redirect? old new with
  | none => exact concludes_throw (.refl f)
  | some b' =>
    obtain ⟨hser, hfit⟩ := (hf.fits (block?_of_getBlock hb)).redirect? hr
      (lt_of_block? (block?_of_getBlock ht))
    obtain ⟨g, -, hg, halt, -⟩ := hf.alters (block?_of_getBlock hb) hser hfit
    exact concludes_set_bind (concludes_of_ok hg halt.wellFormed)

theorem keeps_appendGoto (hf : f.WellFormed) (serial target : Int) :
    (appendGoto serial target).Keeps f := by
  refine concludes_get_bind
    (Edit.keeps_ofExcept_bind fun b hb => Edit.keeps_ofExcept_bind fun t ht => ?_)
  cases hterm : b.terminator? with
  | some i => exact concludes_throw (.refl f)
  | none =>
    have hb := block?_of_getBlock hb
    have hp : Plain b.insns := Block.body_eq_insns hterm ▸ (hf.fits hb).plain
    obtain ⟨g, -, hg, halt, -⟩ := hf.alters hb
      (show { b.withInsns (b.insns ++ [.goto target]) with next := noBlock : Block }.serial =
        b.serial from rfl) (fits_of_goto rfl hp (lt_of_block? (block?_of_getBlock ht)))
    refine concludes_set_bind (concludes_of_ok (Eq.trans ?_ hg) halt.wellFormed)
    exact congrArg rebuildEdges (modifyBlock_congr hb rfl)

theorem keeps_duplicate (hf : f.WellFormed) (serial : Int) : (duplicate serial).Keeps f := by
  refine concludes_get_bind (Edit.keeps_ofExcept_bind fun b hb => ?_)
  obtain ⟨g, -, hg, hext, -⟩ := hf.extends (b := { b.copy with serial := f.blocks.length }) rfl
    (((hf.fits (block?_of_getBlock hb)).mono (Nat.le_succ _)).congr rfl)
  exact concludes_set_bind ((concludes_of_ok hg hext.wellFormed).map (fun _ => (f.blocks.length : Int))
    fun _ _ => id)

/-- **A block that cannot be added is taken out again.** -/
theorem keeps_appendBlock (hf : f.WellFormed) {is : List Insn} (hp : Plain is.dropLast) :
    (appendBlock is).Keeps f := by
  have hends : (f.withBlocks (f.blocks ++ [Block.ofInsns f.blocks.length is])).EndsLast := by
    intro b hb
    rcases List.mem_append.mp hb with hb | hb
    · exact hf.endsLast b hb
    · obtain rfl := List.mem_singleton.mp hb
      rwa [← Block.plain_dropLast_iff, Block.insns_ofInsns]
  cases hr : rebuildEdges (f.withBlocks (f.blocks ++ [Block.ofInsns f.blocks.length is])) with
  | ok u g =>
    obtain ⟨hs, rfl⟩ := (rebuildEdges_eq_ok_iff hends).mp hr
    exact concludes_of_ok (a := (f.blocks.length : Int)) (by simp only [appendBlock, hr]) hs.wellFormed
  | error e g =>
    have hcode := (sameCode_rebuildEdges _).2 e g hr
    have hbare : g.blocks.dropLast.map Block.bare = f.blocks.map Block.bare := by
      rw [List.map_dropLast, hcode.bare_eq]
      simp
    have hsame : f.SameCode (g.withBlocks g.blocks.dropLast) :=
      ⟨hcode.name_eq, hcode.maturity_eq, hbare⟩
    obtain ⟨g', hg', hrest⟩ := hf.rebuildEdges_of_sameCode hsame
    exact concludes_of_error (e := e) (by simp only [appendBlock, hr, hg']) hrest

theorem keeps_compact (hf : f.WellFormed) : compact.Keeps f := by
  obtain ⟨g, hg, hc⟩ := compact_spec hf.toVerified
  exact concludes_of_ok hg hc.wellFormed

theorem keeps_threadJumps (hf : f.WellFormed) : threadJumps.Keeps f := by
  obtain ⟨n, g, hg, -, hor⟩ := threadJumps_spec hf.toShaped
  exact concludes_of_ok hg (hor.elim (fun h => h ▸ hf) id)

end Func

end Keeps

/-! ## Sequences of calls -/

/-- **A call of a change**, with its arguments. -/
inductive Mutation where
  /-- Moves an edge. -/
  | redirect (src old new : Int)
  /-- Ends a block in a jump. -/
  | appendGoto (serial target : Int)
  /-- Copies a block. -/
  | duplicate (serial : Int)
  /-- Adds a block. -/
  | appendBlock (is : List Insn)
  /-- Drops what is unreachable. -/
  | compact
  /-- Moves edges past jumps to jumps. -/
  | threadJumps
  /-- Drops stores that nothing reads. -/
  | eliminateDeadStores

namespace Mutation

/-- The call, its result aside. -/
def apply : Mutation → Edit Unit
  | redirect src old new => Func.redirect src old new
  | appendGoto serial target => Func.appendGoto serial target
  | duplicate serial => (fun _ => ()) <$> Func.duplicate serial
  | appendBlock is => (fun _ => ()) <$> Func.appendBlock is
  | compact => (fun _ => ()) <$> Func.compact
  | threadJumps => (fun _ => ()) <$> Func.threadJumps
  | eliminateDeadStores => do let r ← Edit.ofExcept (← get).eliminateDeadStores; set r.1

/-- A block to add has jumps and returns in its last place only. -/
def Proper : Mutation → Prop
  | appendBlock is => Plain is.dropLast
  | _ => True

/-- The function a call leaves, whether it fails or not. -/
def leaves (c : Mutation) (f : Func) : Func :=
  match c.apply f with
  | .ok _ g => g
  | .error _ g => g

/-- **Every call keeps functions in order.** -/
theorem keeps {c : Mutation} {f : Func} (hf : f.WellFormed) (hc : c.Proper) : c.apply.Keeps f := by
  cases c with
  | redirect src old new => exact Func.keeps_redirect hf src old new
  | appendGoto serial target => exact Func.keeps_appendGoto hf serial target
  | duplicate serial => exact (Func.keeps_duplicate hf serial).map _ fun _ _ => id
  | appendBlock is => exact (Func.keeps_appendBlock hf hc).map _ fun _ _ => id
  | compact => exact (Func.keeps_compact hf).map _ fun _ _ => id
  | threadJumps => exact (Func.keeps_threadJumps hf).map _ fun _ _ => id
  | eliminateDeadStores =>
    exact concludes_get_bind (Edit.keeps_ofExcept_bind fun _ h =>
      Func.eliminateDeadStores_induct (I := Func.WellFormed) .swept hf h)

theorem wellFormed_leaves {c : Mutation} {f : Func} (hf : f.WellFormed) (hc : c.Proper) :
    (c.leaves f).WellFormed := by
  have hk := keeps hf hc
  unfold leaves
  cases hx : c.apply f with
  | ok u g => exact hk.of_eq_ok hx
  | error e g => exact hf.congr (hk.of_eq_error hx).blocks_eq

end Mutation

namespace Func

/-- The function after calls in turn, going on after one that fails. -/
def after (f : Func) (cs : List Mutation) : Func := cs.foldl (fun f c => c.leaves f) f

theorem WellFormed.after {cs : List Mutation} {f : Func} (hf : f.WellFormed)
    (hcs : ∀ c ∈ cs, c.Proper) : (f.after cs).WellFormed := by
  induction cs generalizing f with
  | nil => exact hf
  | cons c cs ih =>
    obtain ⟨hc, hcs⟩ := List.forall_mem_cons.mp hcs
    exact ih (Mutation.wellFormed_leaves hf hc) hcs

/-- **Changes keep functions in order, and one that fails changes nothing.**  After any calls the
function is verified and lists its predecessors in ascending order; a call that fails then leaves the
function that was there. -/
theorem inOrder_after {f : Func} (hv : f.verify = .ok ()) (hl : f.Listed) {cs : List Mutation}
    (hcs : ∀ c ∈ cs, c.Proper) :
    ((f.after cs).verify = .ok () ∧ (f.after cs).Listed) ∧
      ∀ c : Mutation, c.Proper → ∀ e g, c.apply (f.after cs) = .error e g →
        (f.after cs).Restores g := by
  have hf := (wellFormed_iff.mpr ⟨hv, hl⟩).after hcs
  exact ⟨wellFormed_iff.mp hf, fun c hc _ _ => (Mutation.keeps hf hc).of_eq_error⟩

/-- A copy is made and used, a block that does not exist is to end in a jump, and what is unused is
dropped. -/
def someCalls : List Mutation :=
  [.duplicate 2, .redirect 1 2 4, .appendGoto 9 0, .appendBlock [.goto 3], .threadJumps, .compact,
    .eliminateDeadStores]

theorem inOrder_after_sum :
    ((sum.after someCalls).verify = .ok () ∧ (sum.after someCalls).Listed) ∧
      ∃ e g, (Mutation.appendBlock [.branch .jz (reg 1) (lit 0) 0]).apply
          (sum.after someCalls) = .error e g ∧
        (sum.after someCalls).Restores g := by
  have hv : sum.verify = .ok () := by decide
  have hl : sum.Listed :=
    (wellFormed_iff.mp ((verify_eq_ok_iff.mp hv).wellFormed rfl)).2
  have hproper : ∀ c ∈ someCalls, c.Proper := by
    simp [someCalls, Mutation.Proper, Plain]
  obtain ⟨hin, hfail⟩ := inOrder_after hv hl hproper
  refine ⟨hin, ?_⟩
  cases hc : (Mutation.appendBlock [.branch .jz (reg 1) (lit 0) 0]).apply
      (sum.after someCalls) with
  | ok u g =>
    have hfails : (match (Mutation.appendBlock
        [.branch .jz (reg 1) (lit 0) 0]).apply (sum.after someCalls) with
      | .ok _ _ => false
      | .error _ _ => true) = true := by decide +kernel
    rw [hc] at hfails
    cases hfails
  | error e g => exact ⟨e, g, rfl, hfail _ (by simp [Mutation.Proper, Plain]) e g hc⟩

end Func

end Deflatten

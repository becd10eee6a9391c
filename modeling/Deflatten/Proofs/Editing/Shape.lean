import Deflatten.Microcode.Edit
import Deflatten.Proofs.Editing.Outcomes
import Deflatten.Proofs.Execution.Adequacy

/-!
# Proofs/Editing/Shape — functions whose edges follow from their instructions

What a block does is its `content`; where it can go are its `exits`.  `Func.Shaped` asks that blocks
stand where they say and that their exits are blocks, `Func.Verified` that the edges written down are
the exits, and `Func.WellFormed` that predecessors are listed in ascending order besides.

`Func.verify` decides `Verified` (`verify_eq_ok_iff`), and rebuilding the edges of a shaped function
makes it well formed without changing what it does (`rebuildEdges_eq_ok_iff`, `Shaped.wellFormed`).
-/

namespace Deflatten

theorem ne_noBlock {s : Int} (h : 0 ≤ s) : s ≠ noBlock := by
  unfold noBlock
  omega

namespace Block

/-! ## Contents and exits -/

/-- **What a block does**: its instructions and its fall-through. -/
def content (b : Block) : List Insn × Int := (b.insns, b.next)

/-- **Where control may go from a block.** -/
def exits (b : Block) : List Int :=
  match b.terminator? with
  | none => if b.next = noBlock then [] else [b.next]
  | some t =>
    if t.op = .ret then []
    else if t.op = .goto then [t.d.block]
    else if t.d.block = b.next then [b.next] else [b.next, t.d.block]

/-- A block that can stand in a function of `n` blocks. -/
structure Fits (n : Nat) (b : Block) : Prop where
  /-- Nothing but the terminator ends the block. -/
  plain : Plain b.body
  /-- A jump names a block. -/
  aims : ∀ t, b.terminator? = some t → t.op ≠ .ret → t.d.kind = .block
  /-- A conditional jump has somewhere to fall through to. -/
  falls : ∀ t, b.terminator? = some t → t.op.isConditional = true → b.next ≠ noBlock
  /-- Control stays inside. -/
  inside : ∀ s ∈ b.exits, 0 ≤ s ∧ s < n

/-- A block whose jumps can be taken in a function of `n` blocks, whatever stands in front of its
terminator. -/
structure Lands (n : Nat) (b : Block) : Prop where
  aims : ∀ t, b.terminator? = some t → t.op ≠ .ret → t.d.kind = .block
  falls : ∀ t, b.terminator? = some t → t.op.isConditional = true → b.next ≠ noBlock
  inside : ∀ s ∈ b.exits, 0 ≤ s ∧ s < n

variable {b b' : Block} {n : Nat} {m m' : Machine} {c : Nat} {s : Int}

theorem fits_iff : b.Fits n ↔ Plain b.body ∧ b.Lands n :=
  ⟨fun h => ⟨h.plain, h.aims, h.falls, h.inside⟩, fun ⟨hp, h⟩ => ⟨hp, h.aims, h.falls, h.inside⟩⟩

theorem insns_congr (h : b'.content = b.content) : b'.insns = b.insns := congrArg Prod.fst h

theorem next_congr (h : b'.content = b.content) : b'.next = b.next := congrArg Prod.snd h

theorem terminator?_congr (h : b'.content = b.content) : b'.terminator? = b.terminator? := by
  simp only [terminator?, tail?, insns_congr h]

theorem body_congr (h : b'.content = b.content) : b'.body = b.body := by
  simp only [body, terminator?_congr h, insns_congr h]

theorem exits_congr (h : b'.content = b.content) : b'.exits = b.exits := by
  simp only [exits, terminator?_congr h, show b'.next = b.next from congrArg Prod.snd h]

theorem visit_of_content (h : b'.content = b.content) (m : Machine) : b'.visit m = b.visit m :=
  visit_congr (congrArg Prod.fst h) (congrArg Prod.snd h) m

theorem Fits.congr (hb : b.Fits n) (h : b'.content = b.content) : b'.Fits n where
  plain := body_congr h ▸ hb.plain
  aims := terminator?_congr h ▸ hb.aims
  falls := by
    rw [terminator?_congr h, show b'.next = b.next from congrArg Prod.snd h]
    exact hb.falls
  inside := exits_congr h ▸ hb.inside

theorem Fits.mono {n' : Nat} (hb : b.Fits n) (h : n ≤ n') : b.Fits n' :=
  { hb with inside := fun s hs => by have := hb.inside s hs; omega }

theorem Fits.noBlock_not_mem (h : b.Fits n) : noBlock ∉ b.exits := fun hs =>
  ne_noBlock (h.inside _ hs).1 rfl

section Kinds

variable {t : Insn}

theorem exits_none (ht : b.terminator? = none) :
    b.exits = if b.next = noBlock then [] else [b.next] := by
  simp only [exits, ht]

theorem exits_ret (ht : b.terminator? = some t) (h : t.op = .ret) : b.exits = [] := by
  simp only [exits, ht, h, if_true]

theorem exits_goto (ht : b.terminator? = some t) (h : t.op = .goto) : b.exits = [t.d.block] := by
  simp [exits, ht, h]

theorem exits_of_goto {is : List Insn} (hi : b.insns = is ++ [.goto s]) : b.exits = [s] :=
  exits_goto (terminator?_of_append hi rfl) rfl

theorem exits_conditional (ht : b.terminator? = some t) (h : t.op.isConditional = true) :
    b.exits = if t.d.block = b.next then [b.next] else [b.next, t.d.block] := by
  obtain ⟨hr, hg⟩ := t.op.ne_of_isConditional h
  simp only [exits, ht, hr, hg, if_false]

theorem mem_exits_conditional (ht : b.terminator? = some t) (h : t.op.isConditional = true) :
    s ∈ b.exits ↔ s = t.d.block ∨ s = b.next := by
  rw [exits_conditional ht h]
  split <;> simp_all [or_comm]

end Kinds

/-- **Control leaves by an exit**, or runs past a block that never falls through. -/
theorem mem_exits_of_leave (h : b.leave m = .toward s) :
    s ∈ b.exits ∨ b.terminator? = none ∧ b.next = noBlock ∧ s = noBlock := by
  cases ht : b.terminator? with
  | none =>
    rw [leave_none ht] at h
    obtain rfl := Leaving.toward.inj h
    by_cases hn : b.next = noBlock
    · exact .inr ⟨rfl, hn, hn⟩
    · exact .inl (by simp [exits_none ht, hn])
  | some t =>
    refine .inl ?_
    rcases t.op.cases_of_endsBlock (endsBlock_of_terminator? ht) with hr | hg | hc
    · rw [leave_ret ht hr] at h
      cases h
    · rw [leave_goto ht hg] at h
      obtain rfl := Leaving.toward.inj h
      simp [exits_goto ht hg]
    · obtain ⟨taken, htest⟩ := t.op.test?_of_isConditional hc (m.value t.l) (m.value t.r)
        (max t.l.size t.r.size)
      rw [leave_conditional ht htest] at h
      obtain rfl := Leaving.toward.inj h
      rw [mem_exits_conditional ht hc]
      cases taken <;> simp

/-- **Control goes along an exit.** -/
theorem mem_exits_of_visit (h : b.visit m = .goes m' c s) : s ∈ b.exits := by
  obtain ⟨-, hl, hs, -⟩ := visit_eq_goes.mp h
  exact (mem_exits_of_leave hl).resolve_right fun hoff => hs hoff.2.2

/-- A block that returns has no exits. -/
theorem exits_of_leave_ret {v : UInt64} (h : b.leave m = .ret v) : b.exits = [] := by
  cases ht : b.terminator? with
  | none => cases (leave_none ht m).symm.trans h
  | some t =>
    rcases t.op.cases_of_endsBlock (endsBlock_of_terminator? ht) with hr | hg | hc
    · exact exits_ret ht hr
    · cases (leave_goto ht hg m).symm.trans h
    · obtain ⟨taken, htest⟩ := t.op.test?_of_isConditional hc (m.value t.l) (m.value t.r)
        (max t.l.size t.r.size)
      cases (leave_conditional ht htest).symm.trans h

/-! ## Successors as they are computed -/

theorem targets_eq_ok_iff {fn : String} {ss : List Int} :
    b.targets fn = .ok ss ↔ ss = b.exits ∧
      (∀ t, b.terminator? = some t → t.op ≠ .ret → t.d.kind = .block) ∧
      (∀ t, b.terminator? = some t → t.op.isConditional = true → b.next ≠ noBlock) := by
  unfold targets
  cases ht : b.terminator? with
  | none =>
    simp only [exits_none ht, Except.ok.injEq, reduceCtorEq, false_implies, implies_true, and_true]
    exact eq_comm
  | some t =>
    simp only [Option.some.injEq, forall_eq']
    rcases t.op.cases_of_endsBlock (endsBlock_of_terminator? ht) with hr | hg | hc
    · simp [hr, exits_ret ht hr, Opcode.isConditional, eq_comm]
    · by_cases hk : t.d.kind = .block <;>
        simp [hg, exits_goto ht hg, hk, Opcode.isConditional, eq_comm]
    · obtain ⟨hr, hg⟩ := t.op.ne_of_isConditional hc
      rw [exits_conditional ht hc]
      by_cases hk : t.d.kind = .block
      · by_cases hn : b.next = noBlock
        · simp [hr, hg, hk, hn, hc]
        · simp only [hr, hg, hk, hn, hc, ne_eq, not_true, not_false_iff, if_false,
            Except.ok.injEq, forall_const, and_true]
          exact eq_comm
      · simp [hr, hk]

end Block

namespace Func

variable {f g : Func} {b b' : Block} {s p : Int}

/-- What the block at a serial does. -/
def content? (f : Func) (s : Int) : Option (List Insn × Int) := (f.block? s).map Block.content

/-- **An edge**: control may go from `p` to `s`. -/
def Edge (f : Func) (p s : Int) : Prop := ∃ b, f.block? p = some b ∧ s ∈ b.exits

/-- Nothing goes back to the entry. -/
def EnteredOnce (f : Func) : Prop := ∀ p, ¬ f.Edge p 0

/-! ## Look-up -/

theorem block?_natCast (f : Func) (i : Nat) : f.block? i = f.blocks[i]? := by
  simp [block?]

theorem exists_block? (h₀ : 0 ≤ s) (h : s < f.blocks.length) : ∃ b, f.block? s = some b := by
  unfold block?
  rw [if_pos h₀]
  exact ⟨_, List.getElem?_eq_getElem (by omega)⟩

theorem block?_toNat (h : f.block? s = some b) : f.blocks[s.toNat]? = some b := by
  have := (lt_of_block? h).1
  simpa [block?, this] using h

theorem hasSerial_iff : f.hasSerial s = true ↔ 0 ≤ s ∧ s < f.blocks.length := by
  simp [hasSerial]

/-- Each block of the list is the one at its position. -/
theorem exists_block?_of_mem (h : b ∈ f.blocks) : ∃ s : Int, f.block? s = some b := by
  obtain ⟨i, hi⟩ := List.mem_iff_getElem?.mp h
  exact ⟨i, (f.block?_natCast i).trans hi⟩

theorem getBlock_of_block? (h : f.block? s = some b) : f.getBlock s = .ok b := by
  simp [getBlock, h]

theorem block?_of_getBlock (hb : f.getBlock s = .ok b) : f.block? s = some b := by
  unfold getBlock at hb
  split at hb
  · next hs => rw [hs, Except.ok.inj hb]
  · cases hb

theorem getBlock_eq_ok_iff : f.getBlock s = .ok b ↔ f.block? s = some b :=
  ⟨block?_of_getBlock, getBlock_of_block?⟩

/-- Blocks are looked up in turn without an error if and only if each of them is there. -/
theorem mapM_getBlock_eq_ok_iff {path : List Int} {bs : List Block} :
    path.mapM f.getBlock = .ok bs ↔ path.map f.block? = bs.map some := by
  rw [mapM_eq_ok_iff]
  induction path generalizing bs with
  | nil => cases bs <;> simp
  | cons s path ih => cases bs <;> simp [getBlock_eq_ok_iff, ih]

theorem exists_mapM_getBlock {path : List Int} (h : ∀ s ∈ path, ∃ b, f.block? s = some b) :
    ∃ bs, path.mapM f.getBlock = .ok bs :=
  exists_mapM_eq_ok fun s hs => (h s hs).imp fun _ => getBlock_of_block?

theorem content?_eq_some_iff {x : List Insn × Int} :
    f.content? s = some x ↔ ∃ b, f.block? s = some b ∧ b.content = x := by
  simp [content?]

theorem content?_of_block? (h : f.block? s = some b) : f.content? s = some b.content := by
  simp [content?, h]

/-- Where the contents are the same there is a block with the same content. -/
theorem exists_of_content? (hc : g.content? s = f.content? p) (hb : f.block? p = some b) :
    ∃ b', g.block? s = some b' ∧ b'.content = b.content := by
  rw [content?_of_block? hb] at hc
  exact content?_eq_some_iff.mp hc

theorem block?_mapBlocks (f : Func) (h : Nat → Block → Block) (s : Int) :
    (f.mapBlocks h).block? s = (f.block? s).map (h s.toNat) := by
  unfold block?
  split
  · simp
  · rfl

theorem length_blocks_mapBlocks (f : Func) (h : Nat → Block → Block) :
    (f.mapBlocks h).blocks.length = f.blocks.length := by
  unfold mapBlocks blocks
  cases f.body <;> simp

theorem block?_modifyBlock (f : Func) (s : Int) (h : Block → Block) (x : Int) :
    (f.modifyBlock s h).block? x = if x = s then (f.block? x).map h else f.block? x := by
  unfold modifyBlock block?
  by_cases hs : 0 ≤ s
  · simp only [hs, if_true]
    by_cases hx : 0 ≤ x
    · have hbs : ({ f with body := f.body.map fun bs => bs.modify s.toNat h } : Func).blocks =
          f.blocks.modify s.toNat h := by
        unfold blocks
        cases f.body <;> simp
      have hsx : s.toNat = x.toNat ↔ x = s := by omega
      simp only [hx, if_true, hbs, List.getElem?_modify, hsx]
      split <;> simp
    · have : x ≠ s := by omega
      simp [hx, this]
  · by_cases hx : x = s
    · simp [hx, hs]
    · simp [hs, hx]

theorem exists_block?_modifyBlock {x : Int} {h : Block → Block} (hb : ∃ b, f.block? s = some b) :
    ∃ b, (f.modifyBlock x h).block? s = some b := by
  obtain ⟨b, hb⟩ := hb
  rw [block?_modifyBlock, hb]
  split
  · exact ⟨h b, rfl⟩
  · exact ⟨b, rfl⟩

theorem content?_modifyBlock_of_ne {x : Int} {h : Block → Block} (hx : s ≠ x) :
    (f.modifyBlock x h).content? s = f.content? s := by
  rw [content?, block?_modifyBlock, if_neg hx, content?]

/-- What is put in the place of a block need only be right for that block. -/
theorem modifyBlock_congr {u v : Block → Block} (hb : f.block? s = some b) (h : u b = v b) :
    f.modifyBlock s u = f.modifyBlock s v := by
  have hbs := block?_toNat hb
  unfold modifyBlock blocks at *
  cases hbody : f.body with
  | none => rfl
  | some bs =>
    rw [hbody] at hbs
    have hmod : bs.modify s.toNat u = bs.modify s.toNat v := by
      refine List.ext_getElem? fun i => ?_
      rw [List.getElem?_modify, List.getElem?_modify]
      by_cases hi : s.toNat = i
      · subst hi
        simp only [Option.getD_some] at hbs
        simp [hbs, h]
      · simp [hi]
    simp only [Option.map_some, hmod]

theorem modifyBlock_self (hb : f.block? s = some b) : (f.modifyBlock s fun _ => b) = f := by
  refine (modifyBlock_congr (u := fun _ => b) (v := id) hb rfl).trans ?_
  cases f
  simp [modifyBlock]

theorem length_blocks_modifyBlock (f : Func) (s : Int) (h : Block → Block) :
    (f.modifyBlock s h).blocks.length = f.blocks.length := by
  unfold modifyBlock blocks
  split
  · cases f.body <;> simp
  · rfl

theorem block?_append (f : Func) (b : Block) (s : Int) :
    (f.withBlocks (f.blocks ++ [b])).block? s =
      if s = f.blocks.length then some b else f.block? s := by
  unfold block?
  simp only [blocks_withBlocks]
  by_cases hs : 0 ≤ s
  · simp only [hs, if_true]
    by_cases hl : s = f.blocks.length
    · simp [hl]
    · simp only [hl, if_false]
      by_cases hlt : s < f.blocks.length
      · rw [List.getElem?_append_left (by omega)]
      · rw [List.getElem?_eq_none (by simp; omega), List.getElem?_eq_none (by omega)]
  · have : s ≠ f.blocks.length := by omega
    simp [hs, this]

/-! ## Functions in order -/

/-- **Blocks stand where they say, and control stays inside.** -/
structure Shaped (f : Func) : Prop where
  /-- Each block is found under its serial. -/
  placed : ∀ {s b}, f.block? s = some b → b.serial = s
  fits : ∀ {s b}, f.block? s = some b → b.Fits f.blocks.length

/-- **The edges that are written down are the exits.** -/
structure Verified (f : Func) : Prop extends f.Shaped where
  /-- The successors are the exits. -/
  succs_eq : ∀ {s b}, f.block? s = some b → b.succs = b.exits
  /-- The predecessors are the blocks with an exit there. -/
  mem_preds : ∀ {s b}, f.block? s = some b → ∀ p, p ∈ b.preds ↔ f.Edge p s

/-- **A function in order**: predecessors are listed in ascending order besides. -/
structure WellFormed (f : Func) : Prop extends f.Verified where
  ascending : ∀ {s b}, f.block? s = some b → b.preds.Pairwise (· < ·)

theorem Shaped.endsLast (h : f.Shaped) : f.EndsLast := fun b hb => by
  obtain ⟨s, hs⟩ := exists_block?_of_mem hb
  exact (h.fits hs).plain

theorem Shaped.exists_of_edge (h : f.Shaped) (he : f.Edge p s) : ∃ b, f.block? s = some b := by
  obtain ⟨b, hb, hs⟩ := he
  obtain ⟨h₀, h₁⟩ := (h.fits hb).inside s hs
  exact exists_block? h₀ h₁

theorem Edge.of_visit {m m' : Machine} {c : Nat} (hb : f.block? p = some b)
    (hv : b.visit m = .goes m' c s) : f.Edge p s := ⟨b, hb, Block.mem_exits_of_visit hv⟩

/-- **An execution ends of itself or makes any number of visits.** -/
theorem Shaped.exists_reaches_or_haltsIn (h : f.Shaped) (hb : f.block? s = some b) (m : Machine)
    (k : Nat) : (∃ n m' s' b', f.Reaches m s k n m' s' ∧ f.block? s' = some b') ∨
      ∃ k' n o cs, f.HaltsIn k' m s n o cs := by
  induction k with
  | zero => exact .inl ⟨0, m, s, b, .here, hb⟩
  | succ k ih =>
    rcases ih with ⟨n, m', s', b', hr, hb'⟩ | hends
    · cases hv : b'.visit m' with
      | stops m₁ c o => exact .inr ⟨_, _, o, _, (HaltsIn.stops hb' hv).of_reaches hr⟩
      | goes m₁ c t =>
        obtain ⟨b₁, hb₁⟩ := h.exists_of_edge (Edge.of_visit hb' hv)
        exact .inl ⟨_, m₁, t, b₁, hr.goes hb' hv, hb₁⟩
    · exact .inr hends

theorem WellFormed.nodup_preds (h : f.WellFormed) (hb : f.block? s = some b) : b.preds.Nodup :=
  (h.ascending hb).imp fun hlt => Int.ne_of_lt hlt

/-! ## Checking -/

/-- **The successors of a block are its exits, if its jumps can be taken.** -/
theorem succsOf_eq_ok_iff_lands {ss : List Int} :
    f.succsOf b = .ok ss ↔ ss = b.exits ∧ b.Lands f.blocks.length := by
  have hfind : ∀ ts : List Int, (ts.find? fun s => !f.hasSerial s) = none ↔
      ∀ s ∈ ts, 0 ≤ s ∧ s < f.blocks.length := by
    intro ts
    simp [List.find?_eq_none, hasSerial_iff]
  unfold succsOf
  cases htg : b.targets f.name with
  | error e =>
    constructor
    · intro h
      cases h
    · rintro ⟨-, h⟩
      rw [Block.targets_eq_ok_iff.mpr ⟨rfl, h.aims, h.falls⟩] at htg
      cases htg
  | ok ts =>
    obtain ⟨rfl, haims, hfalls⟩ := Block.targets_eq_ok_iff.mp htg
    simp only [bind, Except.bind]
    split
    · next s hs =>
      constructor
      · intro h
        cases h
      · rintro ⟨-, h⟩
        rw [(hfind _).mpr h.inside] at hs
        cases hs
    · next hs =>
      constructor
      · intro h
        exact ⟨(Except.ok.inj h).symm, haims, hfalls, (hfind _).mp hs⟩
      · rintro ⟨rfl, -⟩
        rfl

theorem succsOf_eq_ok_iff (hp : Plain b.body) {ss : List Int} :
    f.succsOf b = .ok ss ↔ ss = b.exits ∧ b.Fits f.blocks.length := by
  rw [succsOf_eq_ok_iff_lands, Block.fits_iff, and_iff_right hp]

theorem verifyBlock_eq_ok_iff {i : Nat} :
    f.verifyBlock i b = .ok () ↔ b.serial = i ∧ b.succs = b.exits ∧ b.Fits f.blocks.length ∧
      (∀ s ∈ b.succs, ∃ t, f.block? s = some t ∧ b.serial ∈ t.preds) ∧
      (∀ p ∈ b.preds, ∃ t, f.block? p = some t ∧ b.serial ∈ t.succs) := by
  have hfind : ∀ (ts : List Int) (q : Block → List Int),
      (ts.find? fun s => !(f.block? s).any fun t => b.serial ∈ q t) = none ↔
        ∀ s ∈ ts, ∃ t, f.block? s = some t ∧ b.serial ∈ q t := by
    intro ts q
    simp [List.find?_eq_none, Option.any_eq_true]
  rw [← hfind b.succs Block.preds, ← hfind b.preds Block.succs]
  unfold verifyBlock
  by_cases hi : b.serial = i
  · by_cases hp : Plain b.body
    · have hend := (firstEarlyEnd?_eq_none_iff b).mpr hp
      cases hss : f.succsOf b with
      | error e =>
        have hfit : ¬ b.Fits f.blocks.length := fun h => by
          rw [(succsOf_eq_ok_iff hp).mpr ⟨rfl, h⟩] at hss
          cases hss
        simp [hi, hend, hfit, bind, Except.bind]
      | ok ss =>
        obtain ⟨rfl, hfit⟩ := (succsOf_eq_ok_iff hp).mp hss
        by_cases hs : b.exits = b.succs
        · simp only [hi, hend, hfit, hs, bind, Except.bind, pure, Except.pure, throw,
            throwThe, MonadExceptOf.throw, ne_eq, not_true, if_false, true_and]
          split <;> rename_i h₁ <;> simp only [h₁, reduceCtorEq, false_and, true_and]
          split <;> rename_i h₂ <;> simp only [h₂, reduceCtorEq]
        · have hs' : b.succs ≠ b.exits := fun h => hs h.symm
          simp [hi, hend, hs, hs', bind, Except.bind, throw, throwThe, MonadExceptOf.throw]
    · have hfit : ¬ b.Fits f.blocks.length := fun h => hp h.plain
      have hend : firstEarlyEnd? b.insns ≠ none := fun h => hp ((firstEarlyEnd?_eq_none_iff b).mp h)
      obtain ⟨ins, hins⟩ := Option.ne_none_iff_exists'.mp hend
      simp [hi, hins, hfit, bind, Except.bind, throw, throwThe, MonadExceptOf.throw]
  · simp [hi, bind, Except.bind, throw, throwThe, MonadExceptOf.throw]

theorem verifyFrom_eq_ok_iff {bs : List Block} {i : Nat} :
    f.verifyFrom i bs = .ok () ↔ ∀ j b, bs[j]? = some b → f.verifyBlock (i + j) b = .ok () := by
  induction bs generalizing i with
  | nil => simp [verifyFrom]
  | cons b bs ih =>
    unfold verifyFrom
    constructor
    · intro h j b' hj
      cases hb : f.verifyBlock i b with
      | error e =>
        rw [hb] at h
        cases h
      | ok u =>
        rw [hb] at h
        cases j with
        | zero =>
          obtain rfl : b = b' := by simpa using hj
          exact hb
        | succ j =>
          rw [Nat.add_comm j, ← Nat.add_assoc]
          exact ih.mp h j b' (by simpa using hj)
    · intro h
      have hb : f.verifyBlock i b = .ok () := h 0 b rfl
      rw [hb]
      refine ih.mpr fun j b' hj => ?_
      rw [Nat.add_assoc, Nat.add_comm 1]
      exact h (j + 1) b' (by simpa using hj)

/-- **What `verify` decides.** -/
theorem verify_eq_ok_iff : f.verify = .ok () ↔ f.Verified := by
  have hblk : f.verify = .ok () ↔ ∀ s b, f.block? s = some b → f.verifyBlock s.toNat b = .ok () := by
    unfold verify
    rw [verifyFrom_eq_ok_iff]
    constructor
    · intro h s b hb
      simpa using h s.toNat b (block?_toNat hb)
    · intro h j b hj
      simpa using h j b ((f.block?_natCast j).trans hj)
  rw [hblk]
  constructor
  · intro h
    have hall : ∀ {s b}, f.block? s = some b → b.serial = s ∧ b.succs = b.exits ∧
        b.Fits f.blocks.length ∧ (∀ x ∈ b.succs, ∃ t, f.block? x = some t ∧ b.serial ∈ t.preds) ∧
        (∀ p ∈ b.preds, ∃ t, f.block? p = some t ∧ b.serial ∈ t.succs) := by
      intro s b hb
      obtain ⟨hser, hrest⟩ := verifyBlock_eq_ok_iff.mp (h s b hb)
      have := (lt_of_block? hb).1
      exact ⟨by omega, hrest⟩
    refine ⟨⟨fun hb => (hall hb).1, fun hb => (hall hb).2.2.1⟩, fun hb => (hall hb).2.1, ?_⟩
    intro s b hb p
    obtain ⟨hser, -, -, -, hpreds⟩ := hall hb
    constructor
    · intro hp
      obtain ⟨t, ht, hst⟩ := hpreds p hp
      rw [(hall ht).2.1, hser] at hst
      exact ⟨t, ht, hst⟩
    · rintro ⟨t, ht, hst⟩
      obtain ⟨htser, hsuccs, -, hin, -⟩ := hall ht
      obtain ⟨b', hb', hp⟩ := hin s (hsuccs ▸ hst)
      obtain rfl := Option.mem_unique hb hb'
      exact htser ▸ hp
  · intro h s b hb
    have hser := h.placed hb
    have := (lt_of_block? hb).1
    refine verifyBlock_eq_ok_iff.mpr ⟨by omega, h.succs_eq hb, h.fits hb, ?_, ?_⟩
    · intro x hx
      rw [h.succs_eq hb] at hx
      obtain ⟨t, ht⟩ := h.exists_of_edge ⟨b, hb, hx⟩
      exact ⟨t, ht, hser ▸ (h.mem_preds ht s).mpr ⟨b, hb, hx⟩⟩
    · intro p hp
      obtain ⟨t, ht, hst⟩ := (h.mem_preds hb p).mp hp
      exact ⟨t, ht, by rwa [h.succs_eq ht, hser]⟩

/-! ## Rebuilding -/

theorem mem_holders {lists : List (List Int)} {x p : Int} :
    p ∈ holders lists x ↔ ∃ (i : Nat) (l : List Int), p = i ∧ lists[i]? = some l ∧ x ∈ l := by
  simp only [holders, List.mem_map, List.mem_filter, decide_eq_true_eq, Prod.exists,
    List.mem_zipIdx_iff_getElem?]
  constructor
  · rintro ⟨l, i, ⟨hi, hx⟩, rfl⟩
    exact ⟨i, l, rfl, hi, hx⟩
  · rintro ⟨i, l, rfl, hi, hx⟩
    exact ⟨l, i, ⟨hi, hx⟩, rfl⟩

theorem pairwise_holders (lists : List (List Int)) (x : Int) :
    (holders lists x).Pairwise (· < ·) := by
  have hidx : (lists.zipIdx.map Prod.snd).Pairwise (· < ·) := by
    rw [List.zipIdx_map_snd]
    exact List.pairwise_lt_range'
  have hsub : ((lists.zipIdx.filter fun l => x ∈ l.1).map Prod.snd).Pairwise (· < ·) :=
    hidx.sublist (List.filter_sublist.map _)
  unfold holders
  rw [List.pairwise_map] at hsub ⊢
  exact hsub.imp fun h => by omega

theorem firstMisplaced?_eq_none_iff {bs : List Block} {i : Nat} :
    firstMisplaced? i bs = none ↔
      ∀ (j : Nat) (b : Block), bs[j]? = some b → b.serial = (i : Int) + j := by
  induction bs generalizing i with
  | nil => simp [firstMisplaced?]
  | cons b bs ih =>
    unfold firstMisplaced?
    by_cases hb : b.serial = i
    · rw [if_pos hb, ih]
      constructor
      · intro h j b' hj
        cases j with
        | zero =>
          obtain rfl : b = b' := by simpa using hj
          simpa using hb
        | succ j =>
          have := h j b' (by simpa using hj)
          push_cast at this ⊢
          omega
      · intro h j b' hj
        have := h (j + 1) b' (by simpa using hj)
        push_cast at this ⊢
        omega
    · rw [if_neg hb]
      simp only [reduceCtorEq, false_iff, not_forall]
      exact ⟨0, b, rfl, by simpa using hb⟩

theorem succLists_eq_none_iff {bs : List Block} {lists : List (List Int)} :
    f.succLists bs = (lists, none) ↔
      lists = bs.map Block.exits ∧ ∀ b ∈ bs, b.Lands f.blocks.length := by
  induction bs generalizing lists with
  | nil => simp [succLists, eq_comm]
  | cons b bs ih =>
    unfold succLists
    cases h : f.succsOf b with
    | error e =>
      have hland : ¬ b.Lands f.blocks.length := fun hland => by
        rw [succsOf_eq_ok_iff_lands.mpr ⟨rfl, hland⟩] at h
        cases h
      simp [hland]
    | ok ss =>
      obtain ⟨rfl, hland⟩ := succsOf_eq_ok_iff_lands.mp h
      cases hrest : f.succLists bs with
      | mk rest e =>
        simp only [Prod.mk.injEq, List.map_cons, List.forall_mem_cons, hland, true_and]
        constructor
        · rintro ⟨rfl, rfl⟩
          obtain ⟨rfl, hall⟩ := ih.mp hrest
          exact ⟨rfl, hall⟩
        · rintro ⟨rfl, hall⟩
          rw [ih.mpr ⟨rfl, hall⟩] at hrest
          obtain ⟨rfl, rfl⟩ := Prod.mk.inj hrest
          exact ⟨rfl, rfl⟩

/-- Blocks stand where they say and their jumps can be taken, whatever stands in front of the
terminators. -/
structure Landed (f : Func) : Prop where
  placed : ∀ {s b}, f.block? s = some b → b.serial = s
  lands : ∀ {s b}, f.block? s = some b → b.Lands f.blocks.length

theorem shaped_iff : f.Shaped ↔ f.EndsLast ∧ f.Landed := by
  constructor
  · exact fun h => ⟨h.endsLast, h.placed, fun hb => (Block.fits_iff.mp (h.fits hb)).2⟩
  · rintro ⟨hp, h⟩
    exact ⟨h.placed, fun hb => Block.fits_iff.mpr ⟨hp _ (mem_of_block? hb), h.lands hb⟩⟩

/-- The function with the edges that its exits are. -/
def rewired (f : Func) : Func := f.withEdges (f.blocks.map Block.exits)

/-- **Rebuilding the edges succeeds where jumps can be taken, and writes the exits.** -/
theorem rebuildEdges_eq_ok_iff_landed :
    rebuildEdges f = .ok () g ↔ f.Landed ∧ g = f.rewired := by
  have hplaced : firstMisplaced? 0 f.blocks = none ↔
      ∀ {s b}, f.block? s = some b → b.serial = s := by
    rw [firstMisplaced?_eq_none_iff]
    constructor
    · intro h s b hb
      have := h s.toNat b (block?_toNat hb)
      have := (lt_of_block? hb).1
      push_cast at *
      omega
    · intro h j b hj
      have := h ((f.block?_natCast j).trans hj)
      push_cast at *
      omega
  have hlands : (∀ b ∈ f.blocks, b.Lands f.blocks.length) ↔
      ∀ {s b}, f.block? s = some b → b.Lands f.blocks.length := by
    constructor
    · exact fun h s b hb => h b (mem_of_block? hb)
    · intro h b hb
      obtain ⟨s, hs⟩ := exists_block?_of_mem hb
      exact h hs
  unfold rebuildEdges
  cases hm : firstMisplaced? 0 f.blocks with
  | some ms =>
    have hno : ¬ f.Landed := fun h => by
      rw [hplaced.mpr h.placed] at hm
      cases hm
    simp [hno]
  | none =>
    cases hs : f.succLists f.blocks with
    | mk lists e =>
      cases e with
      | some e =>
        have hno : ¬ f.Landed := fun h => by
          rw [succLists_eq_none_iff.mpr ⟨rfl, hlands.mpr h.lands⟩] at hs
          cases hs
        simp [hno]
      | none =>
        obtain ⟨rfl, hall⟩ := succLists_eq_none_iff.mp hs
        have hlanded : f.Landed := ⟨hplaced.mp hm, hlands.mp hall⟩
        simp only [EStateM.Result.ok.injEq, true_and, hlanded]
        exact eq_comm

theorem rebuildEdges_eq_ok_iff (hp : f.EndsLast) :
    rebuildEdges f = .ok () g ↔ f.Shaped ∧ g = f.rewired := by
  rw [rebuildEdges_eq_ok_iff_landed, shaped_iff, and_iff_right hp]

theorem Shaped.rebuildEdges (h : f.Shaped) : rebuildEdges f = .ok () f.rewired :=
  (rebuildEdges_eq_ok_iff h.endsLast).mpr ⟨h, rfl⟩

theorem block?_rewired (f : Func) (s : Int) : f.rewired.block? s = (f.block? s).map fun b =>
    { b with preds := holders (f.blocks.map Block.exits) s.toNat
             succs := (f.blocks.map Block.exits)[s.toNat]?.getD b.succs } :=
  block?_mapBlocks ..

@[simp] theorem content?_rewired (f : Func) (s : Int) : f.rewired.content? s = f.content? s := by
  unfold content?
  rw [block?_rewired]
  cases f.block? s <;> rfl

@[simp] theorem length_blocks_rewired (f : Func) : f.rewired.blocks.length = f.blocks.length := by
  simp [rewired, withEdges]

/-- A block that does what it did has the edges it had. -/
theorem edge_congr (h : g.content? p = f.content? p) : g.Edge p s ↔ f.Edge p s := by
  constructor
  · rintro ⟨b, hb, hs⟩
    obtain ⟨b', hb', hc⟩ := exists_of_content? h.symm hb
    exact ⟨b', hb', Block.exits_congr hc ▸ hs⟩
  · rintro ⟨b, hb, hs⟩
    obtain ⟨b', hb', hc⟩ := exists_of_content? h hb
    exact ⟨b', hb', Block.exits_congr hc ▸ hs⟩

theorem refines_of_content? (h : ∀ s, g.content? s = f.content? s) : f.Refines g := by
  rintro m n v cs ⟨k, n', hn', hh⟩
  refine ⟨k, n', hn', hh.congr fun {s b} hb => ?_⟩
  obtain ⟨b', hb', hc⟩ := exists_of_content? (h s) hb
  exact ⟨b', hb', Block.visit_of_content hc⟩

/-- The edges of a block after rebuilding. -/
theorem exists_of_block?_rewired (hb' : f.rewired.block? s = some b') : ∃ b, f.block? s = some b ∧
    b'.content = b.content ∧ b'.serial = b.serial ∧ b'.succs = b'.exits ∧
    b'.preds = holders (f.blocks.map Block.exits) s := by
  rw [block?_rewired, Option.map_eq_some_iff] at hb'
  obtain ⟨b, hb, rfl⟩ := hb'
  have := (lt_of_block? hb).1
  refine ⟨b, hb, rfl, rfl, ?_, ?_⟩
  · refine Eq.trans ?_ (show b.exits = _ from Block.exits_congr rfl)
    simp [block?_toNat hb]
  · rw [Int.toNat_of_nonneg this]

/-- The predecessors after rebuilding are the blocks with an exit there. -/
theorem mem_preds_rewired (hb' : f.rewired.block? s = some b') :
    p ∈ b'.preds ↔ f.rewired.Edge p s := by
  obtain ⟨b, hb, -, -, -, hpreds⟩ := exists_of_block?_rewired hb'
  rw [hpreds, mem_holders, edge_congr (f.content?_rewired p)]
  constructor
  · rintro ⟨i, l, rfl, hl, hs⟩
    obtain ⟨t, ht, rfl⟩ := by simpa using hl
    exact ⟨t, (f.block?_natCast i).trans ht, hs⟩
  · rintro ⟨t, ht, hs⟩
    have := (lt_of_block? ht).1
    exact ⟨p.toNat, t.exits, by omega, by simp [block?_toNat ht], hs⟩

/-- **A shaped function with its edges rebuilt is in order.** -/
theorem Shaped.wellFormed (h : f.Shaped) : f.rewired.WellFormed := by
  refine ⟨⟨⟨?_, ?_⟩, ?_, ?_⟩, ?_⟩
  · intro s b' hb'
    obtain ⟨b, hb, -, hser, -⟩ := exists_of_block?_rewired hb'
    rw [hser, h.placed hb]
  · intro s b' hb'
    obtain ⟨b, hb, hc, -⟩ := exists_of_block?_rewired hb'
    rw [length_blocks_rewired]
    exact (h.fits hb).congr hc
  · intro s b' hb'
    obtain ⟨b, -, -, -, hsuccs, -⟩ := exists_of_block?_rewired hb'
    exact hsuccs
  · exact fun hb' p => mem_preds_rewired hb'
  · intro s b' hb'
    obtain ⟨b, -, -, -, -, hpreds⟩ := exists_of_block?_rewired hb'
    rw [hpreds]
    exact pairwise_holders ..

/-- A verified function that rebuilding does not change is in order. -/
theorem Verified.wellFormed (h : f.Verified) (hr : Func.rebuildEdges f = .ok () f) :
    f.WellFormed := by
  obtain ⟨hs, hf⟩ := (rebuildEdges_eq_ok_iff h.endsLast).mp hr
  rw [hf]
  exact hs.wellFormed

/-- **A function from its blocks is in order**, and has them in their places. -/
theorem ofBlocks_spec {name : String} {bs : List Block} (hp : ∀ b ∈ bs, Plain b.body)
    (h : ofBlocks name bs = .ok f) : f.WellFormed ∧
      ∀ {k : Nat}, f.content? k = bs[k]?.map Block.content := by
  have hends : EndsLast { name := name, body := some bs } := hp
  unfold ofBlocks at h
  split at h
  · next w hw =>
    obtain rfl := Except.ok.inj h
    obtain ⟨hs, rfl⟩ := (rebuildEdges_eq_ok_iff hends).mp hw
    refine ⟨hs.wellFormed, fun {k} => ?_⟩
    rw [content?_rewired, content?, block?_natCast]
    rfl
  · cases h

theorem WellFormed.withMaturity (h : f.WellFormed) (m : Maturity) :
    WellFormed { f with maturity := m } :=
  ⟨⟨⟨h.placed, h.fits⟩, h.succs_eq, h.mem_preds⟩, h.ascending⟩

/-! ## What passes keep -/

/-- **`g` may stand in for `f`**: it is in order, nothing goes back to its entry, and it returns what
`f` returns. -/
structure Preserves (f g : Func) : Prop where
  wellFormed : g.WellFormed
  /-- Nothing goes back to the entry. -/
  enteredOnce : g.EnteredOnce
  /-- It does what `f` does. -/
  refines : f.Refines g

theorem Preserves.refl (hf : f.WellFormed) (h₀ : f.EnteredOnce) : f.Preserves f :=
  ⟨hf, h₀, .refl f⟩

theorem Preserves.trans {h : Func} (hfg : f.Preserves g) (hgh : g.Preserves h) : f.Preserves h :=
  ⟨hgh.wellFormed, hgh.enteredOnce, hfg.refines.trans hgh.refines⟩

end Func

end Deflatten

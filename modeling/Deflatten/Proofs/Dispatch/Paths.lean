import Deflatten.Proofs.Dispatch.Discovery
import Deflatten.Proofs.Dispatch.Removal
import Deflatten.Proofs.Editing.Relocation

/-!
# Proofs/Dispatch/Paths — the path that a value resolves to is the path that is executed

Resolution knows nothing but the state, an execution has a value for every variable.  What
resolution knows is true (`Env.Holds`), so from any machine with that state control passes exactly
the blocks of the path (`Func.Follows`) and comes to the exit, unless an instruction on the way is
undefined.

Terminators change nothing but where control goes.  So performing what the path carries, the bodies
of its blocks in a row, leaves the machine that passing the blocks leaves
(`Walks.completes_or_breaks`).
-/

namespace Deflatten

open Samples (block branching falling function lit reg)

/-! ## Passing blocks -/

namespace Func

/-- **Control passes exactly the blocks of a list**, in order, and comes to `t`: the interpreter
gets through each of them and is sent to the next.  With the steps left before and after. -/
inductive Follows (f : Func) : Machine → Nat → Int → List Int → Machine → Nat → Int → Prop
  /-- No block is passed. -/
  | here {m : Machine} {left : Nat} {s : Int} : Follows f m left s [] m left s
  /-- One block more. -/
  | goes {m m₁ m' : Machine} {left left₁ left' : Nat} {s s₁ t : Int} {q : List Int} {b : Block}
      (hb : f.block? s = some b) (hp : m.pass left b.next b.insns = .through m₁ left₁ s₁)
      (hn : s₁ ≠ noBlock) (rest : Follows f m₁ left₁ s₁ q m' left' t) :
      Follows f m left s (s :: q) m' left' t

variable {f : Func} {m m₁ m' : Machine} {left left₁ left' c : Nat} {s s₁ t x : Int}
  {b b₁ b' : Block}
  {q path : List Int}

/-! ## Runs along a path -/

/-- A run ends as it ends. -/
theorem Shaped.moved_self (hf : f.Shaped) (limit : Int) (left : Nat) (m : Machine)
    (hb : f.block? s = some b) :
    (f.runFrom limit left m s b).Moved (· = ·) (f.runFrom limit left m s b) := by
  have hself : Relocates id (fun s => ∃ b, f.block? s = some b) f f := by
    refine ⟨rfl, rfl, fun _ he => hf.exists_of_edge he, fun ⟨b, hb⟩ => ⟨b, b, hb, hb, rfl, ?_, ?_⟩⟩
    · cases b.terminator? <;> simp [Insn.retarget]
    · exact fun _ => rfl
  exact hself.moved_runFrom hf (fun _ => rfl) limit left m ⟨b, hb⟩ hb hb

/-- **A run ends as it does from where a visit leads.** -/
theorem Shaped.moved_of_goes (hf : f.Shaped) (limit : Int) (hb : f.block? s = some b)
    (hv : b.visit m = .goes m₁ c s₁) (hb₁ : f.block? s₁ = some b₁) (hc : c ≤ left) :
    (f.runFrom limit left m s b).Moved (· = ·) (f.runFrom limit (left - c) m₁ s₁ b₁) := by
  rcases hf.settles_or_drifts hb with hset | hdrift
  · rw [runFrom_of_goes hf.endsLast hset hb hv hb₁ hc]
    exact hf.moved_self limit _ m₁ hb₁
  · -- on the way to a circle both runs are given up, though perhaps not at one block
    obtain ⟨b₂, hb₂, he, hn, hnext⟩ := hdrift.exists_next
    obtain rfl := Option.mem_unique hb hb₂
    obtain ⟨rfl, rfl, rfl⟩ := Visit.goes.inj (hv.symm.trans (visit_of_empty he hn m))
    obtain ⟨blk, hrun⟩ := hdrift.runFrom hb limit left m₁
    obtain ⟨blk', hrun'⟩ := hnext.runFrom hb₁ limit (left - 0) m₁
    rw [hrun, hrun']
    exact ⟨rfl, .some .spins⟩

theorem Follows.moved (h : f.Follows m left s q m' left' t) (hf : f.Shaped) (limit : Int)
    (hb : f.block? s = some b) (hb' : f.block? t = some b') :
    (f.runFrom limit left m s b).Moved (· = ·) (f.runFrom limit left' m' t b') := by
  induction h generalizing b with
  | here =>
    obtain rfl := Option.mem_unique hb hb'
    exact hf.moved_self limit _ _ hb
  | @goes m m₁ m' left left₁ left' s s₁ t q c hc hp hn rest ih =>
    obtain rfl := Option.mem_unique hb hc
    obtain ⟨n, hle, rfl, hv⟩ :=
      (Machine.visit_of_pass (hf.fits hb).plain hp).resolve_left hn
    obtain ⟨b₁, hb₁⟩ := hf.exists_of_edge (Edge.of_visit hb hv)
    have htrans : ∀ x y z : Int, x = y → y = z → x = z := fun _ _ _ => Eq.trans
    exact .trans htrans (hf.moved_of_goes limit hb hv hb₁ hle) (ih hb₁ hb')

/-- **A run that follows a path to an undefined value ends there.** -/
theorem Follows.runFrom_of_undefined (h : f.Follows m left s q m₁ left₁ x) (hf : f.Shaped)
    (limit : Int) (hb : f.block? s = some b) (hb' : f.block? x = some b')
    (hp : m₁.pass left₁ b'.next b'.insns = .undefined m' left') :
    f.runFrom limit left m s b =
      ⟨{ calls := m'.calls, steps := limit.toNat - left' }, some (.undefined f.name x)⟩ := by
  obtain ⟨i, is, hi⟩ : ∃ i is, b'.insns = i :: is := by
    refine List.exists_cons_of_ne_nil fun hnil => ?_
    rw [hnil, Machine.pass] at hp
    cases hp
  have hmoved := h.moved hf limit hb hb'
  rw [runFrom_eq_conclude .here (rests_of_insns hb' hi) hb' hb' hi, hp] at hmoved
  have htrace := hmoved.trace_eq
  have herror := hmoved.error
  cases hrun : f.runFrom limit left m s b with
  | mk trace error? =>
    rw [hrun] at htrace herror
    cases herror with
    | some herror =>
      cases herror with
      | undefined hblk =>
        subst hblk
        exact congrArg (Ending.mk · _) htrace.symm

/-! ## Both ways to execute a path -/

/-- **Control passes the path and comes to `t`**, with the machine that performing what the path
carries leaves. -/
structure Completes (f : Func) (m : Machine) (left : Nat) (s : Int) (path : List Int) (m' : Machine)
    (t : Int) : Prop where
  /-- The blocks are passed, in order, and nothing else is. -/
  follows : f.Follows m left s path m' (left - f.pathLength path) t
  /-- The instructions that are carried, run in a row, leave the same machine. -/
  carried : ∃ is, f.carried path = .ok is ∧
    ∀ next, m.pass left next is = .through m' (left - is.length) next
  /-- A run from the start of the path ends as it does from `t`. -/
  run : ∀ {limit b b'}, f.block? s = some b → f.block? t = some b' →
    (f.runFrom limit left m s b).Moved (· = ·)
      (f.runFrom limit (left - f.pathLength path) m' t b')

/-- **Control stops at an undefined value in the block at `x`**, which is on the path, and so does
performing what the path carries, with the same machine. -/
structure Breaks (f : Func) (m : Machine) (left : Nat) (s : Int) (path : List Int) (m' : Machine)
    (x : Int) : Prop where
  /-- The blocks before it are passed, in order, and the run ends in it. -/
  follows : ∃ before after m₁ left₁ b left', path = before ++ x :: after ∧
    f.Follows m left s before m₁ left₁ x ∧ f.block? x = some b ∧
    m₁.pass left₁ b.next b.insns = .undefined m' left' ∧
    ∀ {limit b}, f.block? s = some b → f.runFrom limit left m s b =
      ⟨{ calls := m'.calls, steps := limit.toNat - left' }, some (.undefined f.name x)⟩
  /-- So does the row of instructions that are carried. -/
  carried : ∃ is left', f.carried path = .ok is ∧
    ∀ next, m.pass left next is = .undefined m' left'

end Func

theorem Machine.le_length_of_undefined {m m' : Machine} {is : List Insn} {n : Nat}
    (h : m.perform is = .undefined m' n) : n ≤ is.length := by
  induction is generalizing m n with
  | nil => cases h
  | cons i is ih =>
    unfold perform at h
    cases hs : m.step i with
    | next m₁ =>
      simp only [hs] at h
      cases h₁ : m₁.perform is with
      | done m₂ => simp [h₁] at h
      | undefined m₂ k =>
        rw [h₁, Performed.later_undefined] at h
        obtain ⟨rfl, rfl⟩ := Performed.undefined.inj h
        have := ih h₁
        simp only [List.length_cons]
        omega
    | _ =>
      simp only [hs] at h
      obtain ⟨-, rfl⟩ := Performed.undefined.inj h
      simp

namespace Region

variable {d : Region} {f : Func} {e : Env} {s t : Int} {q path path' : List Int} {m m' : Machine}
  {b : Block} {left : Nat}

/-! ## Walks are executions -/

/-- **Control goes the way of the walk or stops on it**, and performing what the walk carries does
likewise. -/
theorem Walks.follows_or_stops (hf : f.Shaped) (h : d.Walks f e s q t) (he : e.Holds m)
    (hl : f.pathLength q ≤ left) :
    (∃ m', m.perform (f.bodies q) = .done m' ∧
      f.Follows m left s q m' (left - f.pathLength q) t) ∨
    ∃ before x after m₁ left₁ b m' n left', q = before ++ x :: after ∧
      m.perform (f.bodies q) = .undefined m' n ∧ f.Follows m left s before m₁ left₁ x ∧
      f.block? x = some b ∧ m₁.pass left₁ b.next b.insns = .undefined m' left' := by
  induction h generalizing m left with
  | here => exact .inl ⟨m, rfl, .here⟩
  | @goes e s s' t q b hx hin hb hc rest ih =>
    have hplain := (hf.fits hb).plain
    rw [Func.pathLength_cons hb] at hl ⊢
    rw [Func.bodies_cons hb]
    cases hm : m.perform b.body with
    | undefined m₁ n =>
      have hn := Machine.le_length_of_undefined hm
      have hv : b.visit m = .stops m₁ n .undefined := Block.visit_eq_undefined.mpr hm
      have hle : (b.visit m).steps ≤ left := by
        have := b.length_body_le
        rw [hv, Visit.steps]
        omega
      have hpass := Machine.pass_eq_within hplain hle
      rw [hv] at hpass
      exact .inr ⟨[], s, q, m, left, b, m₁, n, left - n, rfl,
        Machine.perform_append_of_undefined _ hm, .here, hb, hpass⟩
    | done m₁ =>
      have hv := Block.visit_of_choose? (hf.fits hb) he hm hc
      have hs' := (Block.visit_eq_goes.mp hv).2.2.1
      have hpass : m.pass left b.next b.insns = .through m₁ (left - b.insns.length) s' := by
        rw [Machine.pass_eq_within hplain (by rw [hv, Visit.steps]; omega), hv]
        rfl
      have hperform := Machine.perform_append_of_done (f.bodies q) hm
      rcases ih (Block.holds_execBody he hplain hm)
          (show f.pathLength q ≤ left - b.insns.length by omega) with
        ⟨m', hm', hfol⟩ | ⟨before, x, after, m₂, left₂, c, m', n, left', rfl, hm', hfol, hc', hund⟩
      · refine .inl ⟨m', by rw [hperform, hm']; rfl, ?_⟩
        rw [← Nat.sub_sub]
        exact .goes hb hpass hs' hfol
      · exact .inr ⟨s :: before, x, after, m₂, left₂, c, m', _, left', rfl,
          by rw [hperform, hm']; rfl, .goes hb hpass hs' hfol, hc', hund⟩

theorem Walks.completes_or_breaks (hf : f.Shaped) (h : d.Walks f e s q t) (he : e.Holds m)
    (hl : f.pathLength q ≤ left) :
    (∃ m', f.Completes m left s q m' t) ∨ ∃ m' x, f.Breaks m left s q m' x := by
  have hlen := f.length_bodies_le q
  rcases h.follows_or_stops hf he hl with ⟨m', hm', hfol⟩ |
    ⟨before, x, after, m₁, left₁, b, m', n, left', hq, hm', hfol, hb, hund⟩
  · refine .inl ⟨m', hfol, ⟨_, h.carried, fun next => ?_⟩, fun hb hb' => hfol.moved hf _ hb hb'⟩
    have hpass := Machine.pass_append_of_done next [] hm' (hlen.trans hl)
    rwa [List.append_nil, Machine.pass] at hpass
  · refine .inr ⟨m', x, ⟨before, after, m₁, left₁, b, left', hq, hfol, hb, hund,
      fun hs => hfol.runFrom_of_undefined hf _ hs hb hund⟩, _, left - n, h.carried, fun next => ?_⟩
    have hn : n ≤ left := (Machine.le_length_of_undefined hm').trans (hlen.trans hl)
    have hpass := Machine.pass_append_of_undefined next [] (hf.plain_bodies q) hm' hn
    rwa [List.append_nil] at hpass

/-! ## Resolved paths -/

theorem Walks.isExit (h : d.Walks f e s q t) : d.isExit t = true := by
  induction h with
  | here hx => exact hx
  | goes _ _ _ _ _ ih => exact ih

/-- A walk passes no block twice. -/
theorem nodup_of_walk? {fuel : Nat} (h : d.walk? f fuel e path s = .ok (some (t, path')))
    (hnd : path.Nodup) : path'.Nodup := by
  induction fuel generalizing e path s with
  | zero => cases h
  | succ fuel ih =>
    unfold walk? at h
    split at h
    · obtain ⟨-, rfl⟩ := Prod.mk.inj (Option.some.inj (Except.ok.inj h))
      exact hnd
    · split at h
      · cases h
      · next hin =>
        obtain ⟨b, -, h⟩ := bind_eq_ok_iff.mp h
        dsimp only at h
        split at h
        · cases h
        · simp only [Bool.or_eq_true, decide_eq_true_eq, not_or] at hin
          refine ih h (List.nodup_append.mpr ⟨hnd, List.nodup_singleton s, ?_⟩)
          rintro x hx y hy rfl
          exact hin.2 (List.mem_singleton.mp hy ▸ hx)

theorem nodup_of_resolvePath? {v : UInt64} (h : d.resolvePath? f v = .ok (some (t, path))) :
    path.Nodup := by
  unfold resolvePath? at h
  split at h
  · exact nodup_of_walk? h List.nodup_nil
  · cases h

/-- A region with a state was explored to the end, so it is in order. -/
theorem exists_orderly_of_state? (hf : f.Verified) {cfg : Config} {hub last : Int} {v : Var}
    (hlast : last = noBlock ∨ ∃ b, f.block? last = some b) (hb : f.block? s = some b)
    (hstate : (explore cfg f hub last s b).region.state? = some v) :
    ∃ entry found, entry.block = b ∧
      Orderly f entry found (explore cfg f hub last s b).region := by
  obtain ⟨viaHub, hadm⟩ : ∃ viaHub, admits cfg f hub b = .ok (some viaHub) := by
    unfold explore at hstate
    split at hstate
    · cases hstate
    · cases hstate
    · cases hstate
    · next hadm _ => exact ⟨_, hadm⟩
  obtain ⟨entry, found, d, hblock, hord, heq⟩ := exists_explore hf hlast hb hadm
  obtain ⟨hint, -, hexits⟩ := judge_region cfg f b.serial d
  exact ⟨entry, found, hblock, heq ▸ hord.congr hint hexits⟩

/-- **What a value resolves to is what is executed**: from every machine that has the value for its
state, control that enters the region passes the blocks of the path, each once and all of them
internal, and comes to the exit, or stops on the path at an undefined value; and performing what the
path carries does the same. -/
theorem resolvePath?_agrees (hf : f.verify = .ok ()) (cfg : Config) {last : Int}
    (hlast : f.lastBeforeHub (f.guessHub cfg.minPredecessors) = .ok last)
    (hb : f.block? s = some b) {state : Var} {v : UInt64} {target : Int}
    (hstate : (explore cfg f (f.guessHub cfg.minPredecessors) last s b).region.state? = some state)
    (h : (explore cfg f (f.guessHub cfg.minPredecessors) last s b).region.resolvePath? f v =
      .ok (some (target, path))) :
    let d := (explore cfg f (f.guessHub cfg.minPredecessors) last s b).region
    path.Nodup ∧ path.head? = some d.entrySerial ∧ (∀ x ∈ path, d.isInternal x = true) ∧
      d.isExit target = true ∧
      ∀ m left, m.read state = v → f.pathLength path ≤ left →
        (∃ m', f.Completes m left d.entrySerial path m' target) ∨
          ∃ m' x, f.Breaks m left d.entrySerial path m' x := by
  have hver := Func.verify_eq_ok_iff.mp hf
  obtain ⟨entry, found, -, hord⟩ :=
    exists_orderly_of_state? hver (Func.lastBeforeHub_cases hver hlast) hb hstate
  obtain ⟨state', hstate', hwalk⟩ := walks_of_resolvePath? h
  obtain rfl := Option.mem_unique hstate hstate'
  refine ⟨nodup_of_resolvePath? h, ?_, fun x hx => (hwalk.mem x hx).1, hwalk.isExit,
    fun m left hm hl => hwalk.completes_or_breaks hver.toShaped (Env.holds_ofList_singleton hm) hl⟩
  -- the entry is no exit, so at least one block is passed
  cases hwalk with
  | here hx => exact absurd hx (by simp [hord.not_isExit_entrySerial])
  | goes _ _ _ _ _ => rfl

/-- Two comparisons of the state with a constant, the second of them after a call and on a state
that was changed. -/
def staircase : Func := function "staircase" [
  block 0 [.mov (lit 0x3c3c3c3c) (reg 1), .goto 1],
  branching 1 .jz (reg 1) (lit 0x5a5a5a5a) 3 2,
  falling 2 [.call (lit 0x1000) (reg 1) (reg 2),
    .binary .add (reg 1) (lit 1) (reg 1),
    .branch .jz (reg 1) (lit 0x3c3c3c3d) 5] 4,
  block 3 [.ret (lit 7)],
  block 4 [.ret (lit 9)],
  block 5 [.mov (lit 0x5a5a5a5a) (reg 1), .goto 1]]

theorem resolvePath?_agrees_staircase : staircase.verify = .ok () ∧
    staircase.lastBeforeHub (staircase.guessHub 4) = .ok noBlock ∧
    ∃ b, staircase.block? 1 = some b ∧
      let d := (explore {} staircase (staircase.guessHub 4) noBlock 1 b).region
      d.state? = some (.reg 1) ∧ d.resolvePath? staircase 0x3c3c3c3c = .ok (some (5, [1, 2])) ∧
      [(1 : Int), 2].Nodup ∧ [1, 2].head? = some d.entrySerial ∧
      (∀ x ∈ [1, 2], d.isInternal x = true) ∧ d.isExit 5 = true ∧
      ∀ m left, m.read (.reg 1) = 0x3c3c3c3c → staircase.pathLength [1, 2] ≤ left →
        (∃ m', staircase.Completes m left d.entrySerial [1, 2] m' 5) ∨
          ∃ m' x, staircase.Breaks m left d.entrySerial [1, 2] m' x := by
  have hresolved : (staircase.block? 1).map (fun b =>
      let d := (explore {} staircase (staircase.guessHub 4) noBlock 1 b).region
      (d.state?, d.resolvePath? staircase 0x3c3c3c3c)) =
        some (some (.reg 1), .ok (some (5, [1, 2]))) := by decide +kernel
  obtain ⟨b, hb, hd⟩ := Option.map_eq_some_iff.mp hresolved
  obtain ⟨hstate, hpath⟩ := Prod.mk.inj hd
  exact ⟨rfl, rfl, b, hb, hstate, hpath,
    resolvePath?_agrees (f := staircase) rfl {} rfl hb hstate hpath⟩

end Region

end Deflatten

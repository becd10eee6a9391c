import Deflatten.Proofs.Dispatch.Discovery

/-!
# Proofs/Dispatch/Descent — growth by a stack is recursive descent

`Region.descend` is the search as one would write it down: each successor in turn, and what belongs
is entered before the next.  `Region.growFully` is the loop over a stack with no bound on its steps.
The two agree for every function, also in not ending (`growFully_eq_descend`); for a function in
order they end, and the bound of `Region.grow` is not reached (`growFully_eq_grow`).
-/

namespace Deflatten

open Samples (block branching function lit reg)

/-! ## Runs without a bound on their steps -/

section Eventually

variable {α β : Type} {run : Nat → Option α}

/-- Runs that keep their answer when they may take more steps. -/
def Steady (run : Nat → Option α) : Prop := ∀ n a, run n = some a → run (n + 1) = some a

/-- The answer that some run has; nothing if none has one. -/
noncomputable def eventually (run : Nat → Option α) : Option α :=
  open Classical in if h : ∃ a n, run n = some a then some h.choose else none

theorem Steady.of_le (h : Steady run) {m n : Nat} {a : α} (hle : m ≤ n) (hm : run m = some a) :
    run n = some a := by
  induction hle with
  | refl => exact hm
  | step _ ih => exact h _ _ ih

/-- **The answer is that of any run that has one.** -/
theorem Steady.eventually_eq_some_iff (h : Steady run) {a : α} :
    eventually run = some a ↔ ∃ n, run n = some a := by
  have hunique : ∀ {x y : α}, (∃ n, run n = some x) → (∃ n, run n = some y) → x = y := by
    rintro x y ⟨m, hm⟩ ⟨n, hn⟩
    exact Option.some.inj
      ((h.of_le (Nat.le_max_left m n) hm).symm.trans (h.of_le (Nat.le_max_right m n) hn))
  unfold eventually
  split
  · next hsome =>
    rw [Option.some.injEq]
    exact ⟨fun ha => ha ▸ hsome.choose_spec, hunique hsome.choose_spec⟩
  · next hnone => exact iff_of_false (by simp) fun ha => hnone ⟨a, ha⟩

theorem eventually_some (a : α) : eventually (fun _ => some a) = some a := by
  have hsteady : Steady fun _ => some a := fun _ _ h => h
  exact hsteady.eventually_eq_some_iff.mpr ⟨0, rfl⟩

theorem Steady.eventually_succ (h : Steady run) :
    eventually (fun n => run (n + 1)) = eventually run := by
  refine Option.ext fun a => ?_
  have hsucc : Steady fun n => run (n + 1) := fun n => h (n + 1)
  rw [hsucc.eventually_eq_some_iff, h.eventually_eq_some_iff]
  constructor
  · rintro ⟨n, hn⟩
    exact ⟨n + 1, hn⟩
  · rintro ⟨n, hn⟩
    exact ⟨n, h n a hn⟩

theorem Steady.bind {next : α → Nat → Option β} (h : Steady run) (hnext : ∀ a, Steady (next a)) :
    Steady fun n => (run n).bind fun a => next a n := by
  intro n b hb
  obtain ⟨a, ha, hb⟩ := Option.bind_eq_some_iff.mp hb
  exact Option.bind_eq_some_iff.mpr ⟨a, h n a ha, hnext a n b hb⟩

theorem Steady.eventually_bind {next : α → Nat → Option β} (h : Steady run)
    (hnext : ∀ a, Steady (next a)) :
    eventually (fun n => (run n).bind fun a => next a n) =
      (eventually run).bind fun a => eventually (next a) := by
  refine Option.ext fun b => ?_
  simp only [(h.bind hnext).eventually_eq_some_iff, Option.bind_eq_some_iff,
    h.eventually_eq_some_iff, (hnext _).eventually_eq_some_iff]
  constructor
  · rintro ⟨n, a, ha, hb⟩
    exact ⟨a, ⟨n, ha⟩, n, hb⟩
  · rintro ⟨a, ⟨m, ha⟩, n, hb⟩
    exact ⟨max m n, a, h.of_le (Nat.le_max_left m n) ha,
      (hnext a).of_le (Nat.le_max_right m n) hb⟩

end Eventually

namespace Region

/-- What a successor of an internal block turns out to be. -/
inductive Finding where
  | known
  | missing (e : FlowError)
  | internal (child : BlockInfo)
  | exit (child : BlockInfo)

/-- **Looks at a successor** of `father`. -/
def look (f : Func) (father : BlockInfo) (d : Region) (s : Int) : Finding :=
  if d.isInternal s || d.isExit s then .known
  else match f.getBlock s with
    | .error e => .missing e
    | .ok b =>
      if belongs father (father.child b s) then .internal (father.child b s)
      else .exit (father.child b s)

/-- Recursive descent that may go `depth` calls deep. -/
def descendFor (f : Func) : (depth : Nat) → BlockInfo → List Int → Region →
    Option (Region × Option EngineError)
  | 0, _, _, _ => none
  | _ + 1, _, [], d => some (d, none)
  | depth + 1, father, s :: ss, d =>
    match look f father d s with
    | .known => descendFor f depth father ss d
    | .missing e => some (d, some (.succOf father.serial e))
    | .exit child => descendFor f depth father ss (d.addExit child)
    | .internal child =>
      (descendFor f depth child child.block.succs (d.addInternal child)).bind fun out =>
        if out.2.isSome then some out else descendFor f depth father ss out.1

/-- **Recursive descent**: the successors of a block are visited in order.  One that was classified
is passed over, one that leads out is recorded as an exit, and one that belongs is recorded as
internal and descended from before the next. -/
noncomputable def descend (f : Func) (father : BlockInfo) (ss : List Int) (d : Region) :
    Option (Region × Option EngineError) :=
  eventually fun depth => descendFor f depth father ss d

/-- The loop of a growth, for a number of steps. -/
def growFor (f : Func) : (steps : Nat) → List (BlockInfo × List Int) → Region →
    Option (Region × Option EngineError)
  | 0, _, _ => none
  | _ + 1, [], d => some (d, none)
  | steps + 1, (_, []) :: stack, d => growFor f steps stack d
  | steps + 1, (father, s :: ss) :: stack, d =>
    match look f father d s with
    | .known => growFor f steps ((father, ss) :: stack) d
    | .missing e => some (d, some (.succOf father.serial e))
    | .exit child => growFor f steps ((father, ss) :: stack) (d.addExit child)
    | .internal child =>
      growFor f steps ((child, child.block.succs) :: (father, ss) :: stack) (d.addInternal child)

/-- **The loop of a growth**, with no bound on its steps. -/
noncomputable def growFully (f : Func) (stack : List (BlockInfo × List Int)) (d : Region) :
    Option (Region × Option EngineError) :=
  eventually fun steps => growFor f steps stack d

/-- Descends from the blocks of a stack, one after the other. -/
noncomputable def descendAll (f : Func) : List (BlockInfo × List Int) → Region →
    Option (Region × Option EngineError)
  | [], d => some (d, none)
  | (father, ss) :: stack, d =>
    (descend f father ss d).bind fun out =>
      if out.2.isSome then some out else descendAll f stack out.1

variable {f : Func} {father : BlockInfo} {ss : List Int} {stack : List (BlockInfo × List Int)}
  {d : Region} {out : Region × Option EngineError} {b : Block} {s : Int} {fuel : Nat}

theorem steady_descendFor (f : Func) (father : BlockInfo) (ss : List Int) (d : Region) :
    Steady fun depth => descendFor f depth father ss d := by
  intro depth
  induction depth generalizing father ss d with
  | zero =>
    intro out h
    cases h
  | succ depth ih =>
    intro out h
    rcases ss with _ | ⟨s, ss⟩
    · exact h
    · simp only [descendFor] at h ⊢
      cases hlook : look f father d s with simp only [hlook] at h ⊢
      | known => exact ih _ _ _ _ h
      | missing e => exact h
      | exit child => exact ih _ _ _ _ h
      | internal child =>
        obtain ⟨mid, hmid, hrest⟩ := Option.bind_eq_some_iff.mp h
        refine Option.bind_eq_some_iff.mpr ⟨mid, ih _ _ _ _ hmid, ?_⟩
        split at hrest
        · next herr => rw [if_pos herr, hrest]
        · next herr =>
          rw [if_neg herr]
          exact ih _ _ _ _ hrest

theorem descend_nil (f : Func) (father : BlockInfo) (d : Region) :
    descend f father [] d = some (d, none) := by
  rw [descend, ← (steady_descendFor f father [] d).eventually_succ]
  exact eventually_some _

theorem descend_cons :
    descend f father (s :: ss) d =
      match look f father d s with
      | .known => descend f father ss d
      | .missing e => some (d, some (.succOf father.serial e))
      | .exit child => descend f father ss (d.addExit child)
      | .internal child =>
        (descend f child child.block.succs (d.addInternal child)).bind fun out =>
          if out.2.isSome then some out else descend f father ss out.1 := by
  rw [descend, ← (steady_descendFor f father (s :: ss) d).eventually_succ]
  simp only [descendFor]
  cases look f father d s with
  | known => rfl
  | missing e => exact eventually_some _
  | exit child => rfl
  | internal child =>
    refine (Steady.eventually_bind (steady_descendFor _ _ _ _) fun out => ?_).trans ?_
    · cases out.2.isSome with
      | true => exact fun _ _ h => h
      | false => exact steady_descendFor f father ss out.1
    · refine congrArg _ (funext fun out => ?_)
      cases out.2.isSome with
      | true => exact eventually_some out
      | false => rfl

theorem steady_growFor (f : Func) (stack : List (BlockInfo × List Int)) (d : Region) :
    Steady fun steps => growFor f steps stack d := by
  intro steps
  induction steps generalizing stack d with
  | zero =>
    intro out h
    cases h
  | succ steps ih =>
    intro out h
    rcases stack with _ | ⟨⟨father, _ | ⟨s, ss⟩⟩, stack⟩
    · exact h
    · exact ih _ _ _ h
    · simp only [growFor] at h ⊢
      cases hlook : look f father d s with simp only [hlook] at h ⊢
      | missing e => exact h
      | known | exit child | internal child => exact ih _ _ _ h

theorem growFully_nil (f : Func) (d : Region) : growFully f [] d = some (d, none) := by
  rw [growFully, ← (steady_growFor f [] d).eventually_succ]
  exact eventually_some _

theorem growFully_pop : growFully f ((father, []) :: stack) d = growFully f stack d :=
  (steady_growFor f ((father, []) :: stack) d).eventually_succ.symm

/-- **A step of a loop over a stack**, by what the next successor turns out to be: it ends with
`stop`, or goes on with `go`. -/
def stepBy {α : Type} (stop : Region × Option EngineError → α)
    (go : List (BlockInfo × List Int) → Region → α) (f : Func) (father : BlockInfo) (s : Int)
    (ss : List Int) (stack : List (BlockInfo × List Int)) (d : Region) : α :=
  match look f father d s with
  | .known => go ((father, ss) :: stack) d
  | .missing e => stop (d, some (.succOf father.serial e))
  | .exit child => go ((father, ss) :: stack) (d.addExit child)
  | .internal child => go ((child, child.block.succs) :: (father, ss) :: stack) (d.addInternal child)

theorem growFully_cons :
    growFully f ((father, s :: ss) :: stack) d =
      stepBy some (growFully f) f father s ss stack d := by
  rw [growFully, ← (steady_growFor f ((father, s :: ss) :: stack) d).eventually_succ]
  simp only [growFor, stepBy]
  cases look f father d s with
  | missing e => exact eventually_some _
  | known | exit child | internal child => rfl

/-! ## The loop is the descent -/

/-- A step of the loop is a step of the descent. -/
theorem descendAll_cons :
    descendAll f ((father, s :: ss) :: stack) d =
      stepBy some (descendAll f) f father s ss stack d := by
  rw [descendAll, descend_cons, stepBy]
  cases look f father d s with
  | known => rfl
  | missing e => rfl
  | exit child => rfl
  | internal child =>
    simp only [descendAll, Option.bind_assoc]
    refine congrArg _ (funext fun out => ?_)
    cases h : out.2.isSome <;> simp [h]

/-- What ends as a loop ends as a descent. -/
theorem descendAll_of_growFor {steps : Nat} (h : growFor f steps stack d = some out) :
    descendAll f stack d = some out := by
  induction steps generalizing stack d with
  | zero => cases h
  | succ steps ih =>
    rcases stack with _ | ⟨⟨father, _ | ⟨s, ss⟩⟩, stack⟩
    · exact h
    · rw [descendAll, descend_nil]
      exact ih h
    · rw [growFor] at h
      rw [descendAll_cons, stepBy]
      cases hlook : look f father d s with simp only [hlook] at h ⊢
      | missing e => exact h
      | known | exit child | internal child => exact ih h

/-- What ends as a descent goes on as a loop.  The stack below is left to the end, so the induction
is over all of them. -/
theorem growFully_of_descendFor {depth : Nat} (h : descendFor f depth father ss d = some out)
    (stack : List (BlockInfo × List Int)) :
    growFully f ((father, ss) :: stack) d =
      if out.2.isSome then some out else growFully f stack out.1 := by
  induction depth generalizing father ss d out stack with
  | zero => cases h
  | succ depth ih =>
    rcases ss with _ | ⟨s, ss⟩
    · cases h
      exact growFully_pop
    · rw [descendFor] at h
      rw [growFully_cons, stepBy]
      cases hlook : look f father d s with simp only [hlook] at h ⊢
      | known => exact ih h stack
      | missing e =>
        cases h
        rfl
      | exit child => exact ih h stack
      | internal child =>
        obtain ⟨mid, hmid, hrest⟩ := Option.bind_eq_some_iff.mp h
        rw [ih hmid]
        split at hrest
        · next herr =>
          cases hrest
          rw [if_pos herr, if_pos herr]
        · next herr =>
          rw [if_neg herr]
          exact ih hrest stack

/-- **The loop from one block is the descent from it**, in what it gives and in whether it ends. -/
theorem growFully_eq_descend (f : Func) (root : BlockInfo) (ss : List Int) (d : Region) :
    growFully f [(root, ss)] d = descend f root ss d := by
  cases h : descend f root ss d with
  | some out =>
    obtain ⟨depth, hdepth⟩ := (steady_descendFor f root ss d).eventually_eq_some_iff.mp h
    obtain ⟨d', e?⟩ := out
    rw [growFully_of_descendFor hdepth, growFully_nil]
    cases e? <;> rfl
  | none =>
    cases hloop : growFully f [(root, ss)] d with
    | none => rfl
    | some out =>
      obtain ⟨steps, hsteps⟩ := (steady_growFor f [(root, ss)] d).eventually_eq_some_iff.mp hloop
      have := descendAll_of_growFor hsteps
      simp [descendAll, h] at this

/-! ## The bound on the steps -/

theorem block_child (father : BlockInfo) (b : Block) (s : Int) : (father.child b s).block = b := rfl

theorem grow_cons :
    grow f (fuel + 1) ((father, s :: ss) :: stack) d =
      stepBy id (grow f fuel) f father s ss stack d := by
  rw [grow, stepBy, look]
  split
  · rfl
  · cases f.getBlock s with
    | error e => rfl
    | ok b => cases h : belongs father (father.child b s) <;> simp [h, block_child]

/-- What looking at a block can give. -/
theorem look_cases (hb : f.block? s = some b) (father : BlockInfo) (d : Region) :
    look f father d s = .known ∨
      look f father d s = .exit (father.child b s) ∨
      d.isInternal s = false ∧ look f father d s = .internal (father.child b s) := by
  simp only [look, Func.getBlock_of_block? hb]
  cases belongs father (father.child b s) <;> cases d.isInternal s <;> cases d.isExit s <;> simp

/-- **Enough steps make the loop of a growth end**, and without an error. -/
theorem growFully_eq_grow (hf : f.Verified) (fuel : Nat) :
    ∀ {stack : List (BlockInfo × List Int)} {d : Region},
      (∀ x ∈ stack, ∀ s ∈ x.2, ∃ b, f.block? s = some b) →
      stackWeight stack + restWeight f d ≤ fuel →
      ∃ d', growFully f stack d = some (d', none) ∧ grow f fuel stack d = (d', none) := by
  induction fuel with
  | zero =>
    intro stack d _ hle
    cases stack with
    | nil => exact ⟨d, growFully_nil f d, rfl⟩
    | cons x stack => simp [stackWeight] at hle
  | succ fuel ih =>
    intro stack d hstack hle
    rcases stack with _ | ⟨⟨father, _ | ⟨s, ss⟩⟩, stack⟩
    · exact ⟨d, growFully_nil f d, rfl⟩
    · rw [stackWeight_cons] at hle
      rw [growFully_pop, grow]
      exact ih (List.forall_mem_cons.mp hstack).2 (by omega)
    · obtain ⟨htop, hstack⟩ := List.forall_mem_cons.mp hstack
      obtain ⟨⟨b, hb⟩, hss⟩ := List.forall_mem_cons.mp htop
      have hrest : ∀ x ∈ (father, ss) :: stack, ∀ s ∈ x.2, ∃ b, f.block? s = some b :=
        List.forall_mem_cons.mpr ⟨hss, hstack⟩
      rw [stackWeight_cons, List.length_cons] at hle
      rw [growFully_cons, grow_cons, stepBy, stepBy]
      rcases look_cases hb father d with h | h | ⟨hnew, h⟩ <;> simp only [h]
      · exact ih hrest (by rw [stackWeight_cons]; omega)
      · refine ih hrest ?_
        have hsame : restWeight f (d.addExit (father.child b s)) = restWeight f d := rfl
        rw [stackWeight_cons, hsame]
        omega
      · have hsuccs : ∀ t ∈ b.succs, ∃ b', f.block? t = some b' := fun t ht =>
          hf.exists_of_edge ⟨b, hb, hf.succs_eq hb ▸ ht⟩
        refine ih (List.forall_mem_cons.mpr ⟨hsuccs, hrest⟩) ?_
        -- the steps of the new block are taken from those that were left
        have hpay := restWeight_extend hf.toShaped hb hnew (i := father.child b s) (hf.placed hb)
        have hadd : d.addInternal (father.child b s) = d.extend [father.child b s] [] := by
          simp [addInternal, extend]
        rw [stackWeight_cons, stackWeight_cons, hadd, block_child]
        omega

/-- **Growth by a stack is recursive descent**: from a block of a function in order that is internal
already, both end without an error and with one and the same region, so the internal blocks, the
exits and the constants come in the same order and every block has the same father. -/
theorem grow_eq_descend (hf : f.verify = .ok ()) (root : BlockInfo) (d : Region)
    (hroot : f.block? root.serial = some root.block) (hin : d.isInternal root.serial = true)
    (hfuel : growthBound f ≤ fuel) :
    ∃ d', descend f root root.block.succs d = some (d', none) ∧
      growFully f [(root, root.block.succs)] d = some (d', none) ∧
      grow f fuel [(root, root.block.succs)] d = (d', none) := by
  have hf := Func.verify_eq_ok_iff.mp hf
  have hsuccs : ∀ x ∈ [(root, root.block.succs)], ∀ s ∈ x.2, ∃ b, f.block? s = some b := by
    intro x hx s hs
    obtain rfl := List.mem_singleton.mp hx
    exact hf.exists_of_edge ⟨_, hroot, hf.succs_eq hroot ▸ hs⟩
  have hweight := weight_le_growthBound hf.toShaped hroot hin root
  obtain ⟨d', hloop, hgrow⟩ := growFully_eq_grow hf fuel hsuccs (hweight.trans hfuel)
  exact ⟨d', growFully_eq_descend f .. ▸ hloop, hloop, hgrow⟩

/-- Two ways into one comparison: the second finds it classified and goes on behind it. -/
def converging : Func := function "converging" [
  block 0 [.mov (lit 0x55) (reg 8), .goto 1],
  branching 1 .jz (reg 8) (lit 0x55) 3 2,
  branching 2 .jz (reg 8) (lit 0xaa) 4 5,
  branching 3 .jz (reg 8) (lit 0x5a) 6 2,
  block 4 [.ret (reg 0)],
  block 5 [.ret (reg 1)],
  block 6 [.ret (reg 2)]]

/-- The first of its comparisons. -/
def convergingEntry : BlockInfo :=
  let b := { branching 1 .jz (reg 8) (lit 0x55) 3 2 with
    preds := [0], succs := [2, 3] }
  { BlockInfo.ofBlock b 1 none [] with assumed := b.uses }

theorem grow_eq_descend_converging : converging.verify = .ok () ∧
    entryInfo converging noBlock noBlock 1 convergingEntry.block = .ok convergingEntry ∧
    ∃ d', descend converging convergingEntry [2, 3] { internal := [convergingEntry] } =
        some (d', none) ∧
      d'.internal.map (fun i => (i.serial, i.father?)) = [(1, none), (2, some 1), (3, some 1)] ∧
      d'.exits.map (fun x => (x.info.serial, x.info.father?)) =
        [(5, some 2), (4, some 2), (6, some 3)] ∧
      d'.values = [0x55, 0xaa, 0x5a] := by
  refine ⟨rfl, rfl, ?_⟩
  obtain ⟨d', hdescend, _, hgrow⟩ := grow_eq_descend (f := converging) rfl convergingEntry
    { internal := [convergingEntry] } rfl rfl (Nat.le_refl _)
  obtain rfl : _ = d' := congrArg Prod.fst hgrow
  exact ⟨_, hdescend, by decide +kernel, by decide +kernel, by decide +kernel⟩

end Region

end Deflatten

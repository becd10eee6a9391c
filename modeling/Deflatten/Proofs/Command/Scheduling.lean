import Deflatten.Command.Batch
import Deflatten.Flattening.Samples
import Deflatten.Proofs.Publish.StableOrder
import Deflatten.Publish.Record
import Mathlib.Algebra.Order.Ring.Nat
import Mathlib.Data.List.Pairwise
import Mathlib.Logic.Relation

/-!
# Proofs/Command/Scheduling — many functions at once

Functions are taken through the stages by workers, at most so many at a time, that begin in the
order of the functions and then go on in any order.  Each keeps what came of its function in a place
of its own and adds its problems to a list that all share.

Every schedule ends, with the functions and records of the one that takes the functions in turn
(`advanceAll`), and with the same problems, which differ in the order they came in.  The order in
which they are shown makes up for this but for namesakes: with two or more jobs, all schedules show
the same if and only if functions of one name never have different problems of one kind
(`schedules_agree_iff`).
-/

namespace Deflatten.Command

open Samples (block branching function lit reg)

variable {cfg : Config} {jobs : Int} {ds : List Diagnostic} {f g : Func} {fs : List Func}

/-! ## Functions in turn -/

/-- The problems that come up on a function's way through the stages. -/
def notes (cfg : Config) (f : Func) : List Diagnostic :=
  let (a, r) := f.advance cfg false
  match a.error? with
  | some e => [⟨f.name, Diagnostic.unflatten, e.message⟩]
  | none => if r.exhausted = "" then [] else [⟨f.name, Diagnostic.budget, r.exhausted⟩]

theorem length_notes_le (cfg : Config) (f : Func) : (notes cfg f).length ≤ 1 := by
  simp only [notes]
  split
  · rfl
  · split <;> simp

theorem notes_eq_of_mem {d : Diagnostic} (h : d ∈ notes cfg f) : notes cfg f = [d] := by
  have hlen := length_notes_le cfg f
  match hn : notes cfg f with
  | [] => simp [hn] at h
  | [e] =>
    rw [hn, List.mem_singleton] at h
    rw [h]
  | _ :: _ :: _ => simp [hn] at hlen

/-- What is left when functions are taken in turn. -/
def inTurn (cfg : Config) (ds : List Diagnostic) (fs : List Func) : Batch where
  funcs := fs.map fun f => (f.advance cfg false).1.func
  results := fs.map fun f => (f.advance cfg false).2
  diagnostics := ds ++ fs.flatMap (notes cfg)

theorem advanceOne_bestEffort (cfg : Config) (b : Batch) (f : Func) :
    advanceOne cfg .bestEffort b f = pure ⟨b.funcs ++ [(f.advance cfg false).1.func],
      b.results ++ [(f.advance cfg false).2], b.diagnostics ++ notes cfg f⟩ := by
  simp only [advanceOne, notes]
  cases (f.advance cfg false).1.error? with
  | some e => rfl
  | none => by_cases h : (f.advance cfg false).2.exhausted = "" <;> simp [h]

theorem advanceAll_bestEffort (cfg : Config) (ds : List Diagnostic) (fs : List Func) :
    advanceAll cfg .bestEffort ds fs = pure (inTurn cfg ds fs) := by
  -- the batch grows at its end, whatever is in it
  have hgrow : ∀ b : Batch, fs.foldlM (advanceOne cfg .bestEffort) b =
      pure ⟨b.funcs ++ (inTurn cfg [] fs).funcs, b.results ++ (inTurn cfg [] fs).results,
        b.diagnostics ++ (inTurn cfg [] fs).diagnostics⟩ := by
    induction fs with
    | nil => intro b; simp [inTurn]
    | cons f fs ih =>
      intro b
      rw [List.foldlM_cons, advanceOne_bestEffort, pure_bind, ih]
      simp [inTurn]
  rw [advanceAll, hgrow]
  simp [inTurn]

/-! ## Workers -/

/-- **How far the work on a function has come.** -/
inductive Task where
  /-- It has not begun. -/
  | waiting (f : Func)
  /-- It is on its way through the stages. -/
  | begun (f : Func)
  /-- What came of it is kept, and problems are left to tell. -/
  | kept (f : Func) (r : Advanced × Result) (left : List Diagnostic)
  /-- It is over. -/
  | returned (f : Func) (r : Advanced × Result)

namespace Task

/-- The function. -/
def func : Task → Func
  | waiting f | begun f | kept f _ _ | returned f _ => f

/-- What is kept of the work. -/
def result? : Task → Option (Advanced × Result)
  | waiting _ | begun _ => none
  | kept _ r _ | returned _ r => some r

/-- The problems that are not told yet. -/
def left (cfg : Config) : Task → List Diagnostic
  | waiting f | begun f => notes cfg f
  | kept _ _ left => left
  | returned _ _ => []

/-- Whether the work has not begun. -/
def isWaiting : Task → Bool
  | waiting _ => true
  | _ => false

/-- Whether a worker is at it. -/
def isRunning : Task → Bool
  | begun _ | kept _ _ _ => true
  | _ => false

/-- Whether the work is over. -/
def isReturned : Task → Bool
  | returned _ _ => true
  | _ => false

/-- **One step of the work on a function**, with the problems it tells. -/
inductive Goes (cfg : Config) : Task → List Diagnostic → Task → Prop
  | begin (f : Func) : Goes cfg (waiting f) [] (begun f)
  | keep (f : Func) : Goes cfg (begun f) [] (kept f (f.advance cfg false) (notes cfg f))
  | tell (f : Func) (r : Advanced × Result) (d : Diagnostic) (ds : List Diagnostic) :
      Goes cfg (kept f r (d :: ds)) [d] (kept f r ds)
  | finish (f : Func) (r : Advanced × Result) : Goes cfg (kept f r []) [] (returned f r)

/-- The work on a function when it is over. -/
def settled (cfg : Config) (f : Func) : Task := returned f (f.advance cfg false)

@[simp] theorem isWaiting_settled : (settled cfg f).isWaiting = false := rfl

@[simp] theorem isWaiting_begun : (begun f).isWaiting = false := rfl

@[simp] theorem isRunning_settled : (settled cfg f).isRunning = false := rfl

@[simp] theorem isRunning_waiting : (waiting f).isRunning = false := rfl

@[simp] theorem isRunning_begun : (begun f).isRunning = true := rfl

@[simp] theorem isReturned_settled : (settled cfg f).isReturned = true := rfl

/-- The number of steps to the end. -/
def weight (cfg : Config) : Task → Nat
  | waiting f => (notes cfg f).length + 3
  | begun f => (notes cfg f).length + 2
  | kept _ _ left => left.length + 1
  | returned _ _ => 0

variable {t t' : Task} {said : List Diagnostic}

theorem Goes.func_eq (h : t.Goes cfg said t') : t'.func = t.func := by cases h <;> rfl

theorem Goes.left_eq (h : t.Goes cfg said t') : t.left cfg = said ++ t'.left cfg := by
  cases h <;> rfl

theorem Goes.weight_eq (h : t.Goes cfg said t') : t.weight cfg = t'.weight cfg + 1 := by
  cases h <;> rfl

theorem Goes.not_isReturned (h : t.Goes cfg said t') : t.isReturned = false := by
  cases h <;> rfl

/-- What is kept is what came of the function. -/
theorem Goes.result?_eq (h : t.Goes cfg said t')
    (ht : ∀ r ∈ t.result?, r = t.func.advance cfg false) :
    ∀ r ∈ t'.result?, r = t'.func.advance cfg false := by
  cases h with
  | begin f => simp [result?]
  | keep f => simp [result?, func]
  | tell f r d ds => exact ht
  | finish f r => exact ht

theorem left_of_isReturned (h : t.isReturned = true) : t.left cfg = [] := by
  cases t with
  | waiting _ | begun _ | kept _ _ _ => cases h
  | returned _ _ => rfl

theorem isReturned_of (hw : t.isWaiting = false) (hr : t.isRunning = false) :
    t.isReturned = true := by
  cases t with
  | waiting _ => cases hw
  | begun _ | kept _ _ _ => cases hr
  | returned _ _ => rfl

theorem isWaiting_of_isRunning (h : t.isRunning = true) : t.isWaiting = false := by
  cases t with
  | begun _ | kept _ _ _ => rfl
  | waiting _ | returned _ _ => cases h

end Task

/-- **Workers at functions**, with the problems told so far. -/
structure Crew where
  /-- How far each function has come, in the order of the functions. -/
  tasks : List Task
  /-- The problems in the order they came. -/
  diagnostics : List Diagnostic

namespace Crew

/-- All functions wait. -/
def fresh (ds : List Diagnostic) (fs : List Func) : Crew := ⟨fs.map .waiting, ds⟩

/-- **One step of one worker.**  A function may begin when those before it have and fewer workers
than `jobs` are busy, but one may always be. -/
inductive Step (cfg : Config) (jobs : Int) : Crew → Crew → Prop
  | intro {xs ys : List Task} {t t' : Task} {said ds : List Diagnostic} (h : t.Goes cfg said t')
      (hbegin : t.isWaiting = true → (∀ x ∈ xs, x.isWaiting = false) ∧
        ((xs ++ ys).countP Task.isRunning : Int) < max jobs 1) :
      Step cfg jobs ⟨xs ++ t :: ys, ds⟩ ⟨xs ++ t' :: ys, ds ++ said⟩

/-- What some schedule leads to. -/
abbrev Reaches (cfg : Config) (jobs : Int) : Crew → Crew → Prop :=
  Relation.ReflTransGen (Step cfg jobs)

/-- Whether all work is over. -/
def Done (c : Crew) : Prop := ∀ t ∈ c.tasks, t.isReturned = true

/-- What is kept, in the order of the functions, and the problems. -/
def batch (c : Crew) : Batch where
  funcs := c.tasks.filterMap fun t => t.result?.map (·.1.func)
  results := c.tasks.filterMap fun t => t.result?.map (·.2)
  diagnostics := c.diagnostics

/-- **What some schedule ends in.** -/
def CanEndIn (cfg : Config) (jobs : Int) (ds : List Diagnostic) (fs : List Func) (b : Batch) : Prop :=
  ∃ c, Reaches cfg jobs (fresh ds fs) c ∧ c.Done ∧ c.batch = b

variable {c c' : Crew}

/-! ## Every schedule ends -/

/-- The number of steps to the end. -/
def weight (cfg : Config) (c : Crew) : Nat := (c.tasks.map (Task.weight cfg)).sum

theorem Step.weight_lt (h : Step cfg jobs c c') : c'.weight cfg < c.weight cfg := by
  obtain ⟨hgo, -⟩ := h
  simp only [weight, List.map_append, List.map_cons, List.sum_append, List.sum_cons, hgo.weight_eq]
  omega

theorem wellFounded_step (cfg : Config) (jobs : Int) :
    WellFounded fun c' c => Step cfg jobs c c' :=
  Subrelation.wf Step.weight_lt (measure (weight cfg)).wf

/-- Unless all work is over, some worker can go on. -/
theorem exists_step (cfg : Config) (jobs : Int) (hc : ¬ c.Done) : ∃ c', Step cfg jobs c c' := by
  obtain ⟨tasks, ds⟩ := c
  by_cases hrun : ∃ t ∈ tasks, t.isRunning = true
  · obtain ⟨t, ht, hrun⟩ := hrun
    obtain ⟨xs, ys, rfl⟩ := List.append_of_mem ht
    obtain ⟨said, t', hgo⟩ : ∃ said t', t.Goes cfg said t' := by
      cases t with
      | waiting f | returned f r => cases hrun
      | begun f => exact ⟨_, _, .keep f⟩
      | kept f r left =>
        cases left with
        | nil => exact ⟨_, _, .finish f r⟩
        | cons d left => exact ⟨_, _, .tell f r d left⟩
    exact ⟨_, .intro hgo fun hw => by simp [Task.isWaiting_of_isRunning hrun] at hw⟩
  · -- nobody is busy, so the first that waits may begin
    simp only [not_exists, not_and, Bool.not_eq_true] at hrun
    obtain ⟨t, ht⟩ : ∃ t, tasks.find? Task.isWaiting = some t := by
      rw [← Option.isSome_iff_exists, List.find?_isSome]
      by_contra hnone
      refine hc fun t ht => Task.isReturned_of ?_ (hrun t ht)
      exact Bool.eq_false_iff.mpr fun hw => hnone ⟨t, ht, hw⟩
    obtain ⟨hw, xs, ys, rfl, hxs⟩ := List.find?_eq_some_iff_append.mp ht
    cases t with
    | begun _ | kept _ _ _ | returned _ _ => cases hw
    | waiting f =>
      refine ⟨_, .intro (.begin f) fun _ => ⟨by simpa using hxs, ?_⟩⟩
      have hidle : (xs ++ ys).countP Task.isRunning = 0 :=
        List.countP_eq_zero.mpr fun x hx => by
          have hmem : x ∈ xs ++ .waiting f :: ys :=
            List.mem_append.mpr ((List.mem_append.mp hx).imp_right (List.mem_cons_of_mem _))
          simp [hrun x hmem]
      rw [hidle]
      omega

theorem exists_done (cfg : Config) (jobs : Int) (c : Crew) :
    ∃ c', Reaches cfg jobs c c' ∧ c'.Done := by
  induction c using (wellFounded_step cfg jobs).induction with
  | _ c ih =>
    by_cases hc : c.Done
    · exact ⟨c, .refl, hc⟩
    · obtain ⟨c₁, hstep⟩ := exists_step cfg jobs hc
      obtain ⟨c', hreach, hdone⟩ := ih c₁ hstep
      exact ⟨c', .head hstep hreach, hdone⟩

/-! ## What every schedule keeps -/

/-- **What holds all along**: the functions are what they were, what is kept is what came of them,
and the problems that were told and those that are left are all the problems there are. -/
structure Sound (cfg : Config) (ds : List Diagnostic) (fs : List Func) (c : Crew) : Prop where
  funcs : c.tasks.map Task.func = fs
  results : ∀ t ∈ c.tasks, ∀ r ∈ t.result?, r = t.func.advance cfg false
  told : ∃ told, c.diagnostics = ds ++ told ∧
    (told ++ c.tasks.flatMap (Task.left cfg)).Perm (fs.flatMap (notes cfg))

theorem sound_fresh (cfg : Config) (ds : List Diagnostic) (fs : List Func) :
    Sound cfg ds fs (fresh ds fs) where
  funcs := by simp [fresh, Function.comp_def, Task.func]
  results := by simp [fresh, Task.result?]
  told := ⟨[], by simp [fresh], by simp [fresh, List.flatMap_map, Task.left]⟩

theorem Sound.step (hc : Sound cfg ds fs c) (h : Step cfg jobs c c') : Sound cfg ds fs c' := by
  obtain ⟨hfuncs, hresults, told, htold, hperm⟩ := hc
  obtain @⟨xs, ys, t, t', said, es, hgo, -⟩ := h
  refine ⟨?_, fun x hx => ?_, told ++ said, ?_, ?_⟩
  · simpa [hgo.func_eq] using hfuncs
  · simp only [List.mem_append, List.mem_cons] at hx
    obtain hx | rfl | hx := hx
    · exact hresults x (by simp [hx])
    · exact hgo.result?_eq (hresults t (by simp))
    · exact hresults x (by simp [hx])
  · dsimp only at htold ⊢
    rw [htold, List.append_assoc]
  · refine (List.perm_iff_count.mpr fun d => ?_).trans hperm
    simp only [List.flatMap_append, List.flatMap_cons, List.count_append, hgo.left_eq]
    omega

theorem Sound.of_reaches (h : Reaches cfg jobs (fresh ds fs) c) : Sound cfg ds fs c := by
  induction h with
  | refl => exact sound_fresh cfg ds fs
  | tail _ hstep ih => exact ih.step hstep

/-- At the end everything is kept, in the order of the functions. -/
theorem Sound.filterMap_result? {α : Type} (hc : Sound cfg ds fs c) (hdone : c.Done)
    (k : Advanced × Result → α) :
    c.tasks.filterMap (fun t => t.result?.map k) = fs.map fun f => k (f.advance cfg false) := by
  have hkept : ∀ t ∈ c.tasks, t.result?.map k = some (k (t.func.advance cfg false)) := by
    intro t ht
    have hover := hdone t ht
    cases t with
    | waiting _ | begun _ | kept _ _ _ => cases hover
    | returned f r => rw [← hc.results _ ht r rfl]; rfl
  rw [List.filterMap_congr hkept, ← hc.funcs, List.map_map, ← List.filterMap_eq_map]
  rfl

theorem Done.flatMap_left (h : c.Done) : c.tasks.flatMap (Task.left cfg) = [] :=
  List.flatMap_eq_nil_iff.mpr fun t ht => Task.left_of_isReturned (h t ht)

/-- **What every end is like**: the functions and records of the schedule that takes them in turn,
and the same new problems after the old ones. -/
theorem CanEndIn.like_inTurn {b : Batch} (h : CanEndIn cfg jobs ds fs b) :
    b.funcs = (inTurn cfg ds fs).funcs ∧ b.results = (inTurn cfg ds fs).results ∧
      ∃ told, b.diagnostics = ds ++ told ∧ told.Perm (fs.flatMap (notes cfg)) := by
  obtain ⟨c, hreach, hdone, rfl⟩ := h
  have hc := Sound.of_reaches hreach
  obtain ⟨told, htold, hperm⟩ := hc.told
  rw [hdone.flatMap_left, List.append_nil] at hperm
  exact ⟨hc.filterMap_result? hdone _, hc.filterMap_result? hdone _, told, htold, hperm⟩

/-! ## One job -/

/-- What holds all along when one worker is busy at a time: a function that has not returned has
only waiting ones after it, so the problems come in the order of the functions. -/
structure OneByOne (cfg : Config) (ds : List Diagnostic) (fs : List Func) (c : Crew) : Prop where
  ordered : c.tasks.Pairwise fun s t => s.isReturned = true ∨ t.isWaiting = true
  told : c.diagnostics ++ c.tasks.flatMap (Task.left cfg) = ds ++ fs.flatMap (notes cfg)

theorem OneByOne.step (hjobs : jobs ≤ 1) (hc : OneByOne cfg ds fs c) (h : Step cfg jobs c c') :
    OneByOne cfg ds fs c' := by
  obtain ⟨hordered, htold⟩ := hc
  obtain @⟨xs, ys, t, t', said, es, hgo, hbegin⟩ := h
  obtain ⟨hxs, ⟨hty, hys⟩, hcross⟩ :
      xs.Pairwise _ ∧ ((∀ y ∈ ys, _) ∧ ys.Pairwise _) ∧ _ := by
    simpa only [List.pairwise_append, List.pairwise_cons] using hordered
  have hafter : ∀ y ∈ ys, y.isWaiting = true := fun y hy =>
    (hty y hy).resolve_left (by simp [hgo.not_isReturned])
  have hbefore : ∀ x ∈ xs, x.isReturned = true := fun x hx => by
    obtain hx' | hw := hcross x hx t List.mem_cons_self
    · exact hx'
    · obtain ⟨hnone, hroom⟩ := hbegin hw
      rw [max_eq_right hjobs] at hroom
      have hidle : (xs ++ ys).countP Task.isRunning = 0 := by omega
      refine Task.isReturned_of (hnone x hx) ?_
      simpa using List.countP_eq_zero.mp hidle x (List.mem_append_left _ hx)
  have hnil : xs.flatMap (Task.left cfg) = [] :=
    List.flatMap_eq_nil_iff.mpr fun x hx => Task.left_of_isReturned (hbefore x hx)
  refine ⟨?_, ?_⟩
  · refine List.pairwise_append.mpr ⟨hxs, List.pairwise_cons.mpr ⟨fun y hy => ?_, hys⟩, ?_⟩
    · exact .inr (hafter y hy)
    · exact fun x hx _ _ => .inl (hbefore x hx)
  · simpa [hnil, hgo.left_eq] using htold

theorem OneByOne.of_reaches (hjobs : jobs ≤ 1) (h : Reaches cfg jobs (fresh ds fs) c) :
    OneByOne cfg ds fs c := by
  induction h with
  | refl =>
    exact ⟨List.pairwise_map.mpr (List.pairwise_of_forall fun _ _ => .inr rfl),
      by simp [fresh, List.flatMap_map, Task.left]⟩
  | tail _ hstep ih => exact ih.step hjobs hstep

theorem CanEndIn.diagnostics_of_oneJob {b : Batch} (hjobs : jobs ≤ 1) (h : CanEndIn cfg jobs ds fs b) :
    b.diagnostics = (inTurn cfg ds fs).diagnostics := by
  obtain ⟨c, hreach, hdone, rfl⟩ := h
  have htold := (OneByOne.of_reaches hjobs hreach).told
  rwa [hdone.flatMap_left, List.append_nil] at htold

/-! ## Schedules -/

section Schedules

variable {xs ys : List Task}

theorem reaches_of_kept (r : Advanced × Result) (left : List Diagnostic) :
    Reaches cfg jobs ⟨xs ++ .kept f r left :: ys, ds⟩ ⟨xs ++ .returned f r :: ys, ds ++ left⟩ := by
  induction left generalizing ds with
  | nil => exact .single (.intro (.finish f r) nofun)
  | cons d left ih =>
    have hstep : Step cfg jobs ⟨xs ++ .kept f r (d :: left) :: ys, ds⟩
        ⟨xs ++ .kept f r left :: ys, ds ++ [d]⟩ := .intro (.tell f r d left) nofun
    refine .head hstep ?_
    rw [List.append_cons ds d left]
    exact ih

/-- Work that has begun can go on to its end at once. -/
theorem reaches_of_begun : Reaches cfg jobs ⟨xs ++ .begun f :: ys, ds⟩
    ⟨xs ++ .settled cfg f :: ys, ds ++ notes cfg f⟩ := by
  have hstep : Step cfg jobs ⟨xs ++ .begun f :: ys, ds⟩
      ⟨xs ++ .kept f (f.advance cfg false) (notes cfg f) :: ys, ds ++ []⟩ := .intro (.keep f) nofun
  rw [List.append_nil] at hstep
  exact .head hstep (reaches_of_kept _ _)

theorem step_begin (hxs : ∀ x ∈ xs, x.isWaiting = false)
    (hroom : ((xs ++ ys).countP Task.isRunning : Int) < max jobs 1) :
    Step cfg jobs ⟨xs ++ .waiting f :: ys, ds⟩ ⟨xs ++ .begun f :: ys, ds⟩ := by
  have hstep : Step cfg jobs ⟨xs ++ .waiting f :: ys, ds⟩ ⟨xs ++ .begun f :: ys, ds ++ []⟩ :=
    .intro (.begin f) fun _ => ⟨hxs, hroom⟩
  rwa [List.append_nil] at hstep

/-- Where there is room for one worker more, waiting functions can be taken in turn. -/
theorem reaches_settled (cfg : Config) (jobs : Int) (ds : List Diagnostic) (xs : List Task)
    (gs : List Func) (ys : List Task) (hxs : ∀ x ∈ xs, x.isWaiting = false)
    (hroom : ((xs ++ ys).countP Task.isRunning : Int) < max jobs 1) :
    Reaches cfg jobs ⟨xs ++ (gs.map .waiting ++ ys), ds⟩
      ⟨xs ++ (gs.map (.settled cfg) ++ ys), ds ++ gs.flatMap (notes cfg)⟩ := by
  induction gs generalizing xs ds with
  | nil => simpa using Relation.ReflTransGen.refl
  | cons g gs ih =>
    have hbegin : Step cfg jobs ⟨xs ++ .waiting g :: (gs.map .waiting ++ ys), ds⟩
        ⟨xs ++ .begun g :: (gs.map .waiting ++ ys), ds⟩ :=
      step_begin hxs (by simpa [List.countP_map, Function.comp_def] using hroom)
    have hrest : Reaches cfg jobs _ ⟨_, ds ++ notes cfg g ++ gs.flatMap (notes cfg)⟩ :=
      ih (ds ++ notes cfg g) (xs ++ [.settled cfg g]) (by simpa [or_imp, forall_and] using hxs)
        (by simpa using hroom)
    exact .head hbegin (reaches_of_begun.trans (by simpa using hrest))

theorem done_settled (gs : List Func) (es : List Diagnostic) :
    Done ⟨gs.map (.settled cfg), es⟩ := by simp [Done]

theorem ends_inTurn (cfg : Config) (jobs : Int) (ds : List Diagnostic) (fs : List Func) :
    CanEndIn cfg jobs ds fs (inTurn cfg ds fs) := by
  have hreach : Reaches cfg jobs (fresh ds fs)
      ⟨fs.map (.settled cfg), ds ++ fs.flatMap (notes cfg)⟩ := by
    simpa [fresh] using reaches_settled cfg jobs ds [] fs [] (by simp) (by simp)
  refine ⟨_, hreach, done_settled fs _, ?_⟩
  simp [batch, inTurn, Task.settled, Task.result?, List.filterMap_map, Function.comp_def]

/-- With room for two, a function can come to its end after those that began after it. -/
theorem ends_late (cfg : Config) (ds : List Diagnostic) (hjobs : 1 < jobs) (as : List Func)
    (f : Func) (gs hs : List Func) :
    ∃ b, CanEndIn cfg jobs ds (as ++ f :: (gs ++ hs)) b ∧ b.diagnostics =
      ds ++ as.flatMap (notes cfg) ++ gs.flatMap (notes cfg) ++ notes cfg f ++
        hs.flatMap (notes cfg) := by
  -- those before it, in turn; then it begins
  have h₁ : Reaches cfg jobs (fresh ds (as ++ f :: (gs ++ hs)))
      ⟨as.map (.settled cfg) ++ .waiting f :: (gs ++ hs).map .waiting,
        ds ++ as.flatMap (notes cfg)⟩ := by
    simpa [fresh] using reaches_settled cfg jobs ds [] as ((f :: (gs ++ hs)).map .waiting) (by simp)
      (by simp [List.countP_map, Function.comp_def])
  have h₂ : Step cfg jobs
      ⟨as.map (.settled cfg) ++ .waiting f :: (gs ++ hs).map .waiting, ds ++ as.flatMap (notes cfg)⟩
      ⟨as.map (.settled cfg) ++ .begun f :: (gs ++ hs).map .waiting,
        ds ++ as.flatMap (notes cfg)⟩ :=
    step_begin (by simp) (by simp [List.countP_map, Function.comp_def])
  -- those of `gs` in turn beside it, then its own end, then the rest
  have h₃ : Reaches cfg jobs
      ⟨as.map (.settled cfg) ++ .begun f :: (gs ++ hs).map .waiting, ds ++ as.flatMap (notes cfg)⟩
      ⟨as.map (.settled cfg) ++ .begun f :: (gs.map (.settled cfg) ++ hs.map .waiting),
        ds ++ as.flatMap (notes cfg) ++ gs.flatMap (notes cfg)⟩ := by
    rw [List.map_append, List.append_cons _ _ (gs.map Task.waiting ++ _),
      List.append_cons _ _ (gs.map (Task.settled cfg) ++ _)]
    refine reaches_settled cfg jobs _ _ gs (hs.map .waiting) ?_ ?_
    · simp [or_imp, forall_and]
    · simp [List.countP_cons, List.countP_map, Function.comp_def, hjobs]
  have h₄ : Reaches cfg jobs
      ⟨as.map (.settled cfg) ++ .settled cfg f :: (gs.map (.settled cfg) ++ hs.map .waiting),
        ds ++ as.flatMap (notes cfg) ++ gs.flatMap (notes cfg) ++ notes cfg f⟩
      ⟨(as ++ f :: (gs ++ hs)).map (.settled cfg), ds ++ as.flatMap (notes cfg) ++
        gs.flatMap (notes cfg) ++ notes cfg f ++ hs.flatMap (notes cfg)⟩ := by
    simpa using reaches_settled cfg jobs
      (ds ++ as.flatMap (notes cfg) ++ gs.flatMap (notes cfg) ++ notes cfg f)
      ((as ++ f :: gs).map (.settled cfg)) hs [] (by simp [or_imp, forall_and])
      (by simp [List.countP_map, Function.comp_def])
  have hreach := h₁.trans (.head h₂ (h₃.trans (reaches_of_begun.trans h₄)))
  exact ⟨_, ⟨_, hreach, done_settled _ _, rfl⟩, rfl⟩

end Schedules

/-! ## Namesakes -/

/-- Whether two functions that share a name have the same problems, kind by kind. -/
def NotesAgree (cfg : Config) (f g : Func) : Prop :=
  ∀ d ∈ notes cfg f, ∀ e ∈ notes cfg g, d.place = e.place → d = e

theorem eq_of_pairwise_notesAgree (h : fs.Pairwise (NotesAgree cfg)) :
    ∀ d ∈ fs.flatMap (notes cfg), ∀ e ∈ fs.flatMap (notes cfg), d.place = e.place → d = e := by
  have hpairs : (fs.flatMap (notes cfg)).Pairwise fun d e => d.place = e.place → d = e := by
    refine List.pairwise_flatMap.mpr ⟨fun f _ => ?_, h⟩
    refine List.pairwise_of_forall_mem_list fun d hd e he _ => ?_
    rw [notes_eq_of_mem hd, List.mem_singleton] at he
    exact he.symm
  have hsymm : Std.Symm fun d e : Diagnostic => d.place = e.place → d = e :=
    ⟨fun d e hde h => (hde h.symm).symm⟩
  exact fun d hd e he => hpairs.forall_of_forall (fun _ _ _ => rfl) hd he

/-- Where namesakes are alike, the problems are shown alike in whatever order they came. -/
theorem sorted_eq_of_pairwise_notesAgree (h : fs.Pairwise (NotesAgree cfg)) {told : List Diagnostic}
    (hperm : told.Perm (fs.flatMap (notes cfg))) :
    Diagnostic.sorted (ds ++ told) = Diagnostic.sorted (inTurn cfg ds fs).diagnostics := by
  refine Diagnostic.sorted_eq_iff.mpr fun k => ?_
  simp only [inTurn, List.filter_append]
  -- the problems of one place are one problem, told some times over
  have hone : ∀ l : List Diagnostic, l.Pairwise fun _ _ => True :=
    fun _ => List.pairwise_of_forall fun _ _ => trivial
  refine congrArg _ ((hperm.filter _).eq_of_pairwise (fun d e hd he _ _ => ?_) (hone _) (hone _))
  simp only [List.mem_filter, decide_eq_true_eq] at hd he
  exact eq_of_pairwise_notesAgree h d (hperm.mem_iff.mp hd.1) e he.1 (hd.2.trans he.2.symm)

/-- Where they are not and there is room for two, some schedule shows them otherwise. -/
theorem exists_canEndIn_sorted_ne (hjobs : 1 < jobs) (h : ¬ fs.Pairwise (NotesAgree cfg)) :
    ∃ b, CanEndIn cfg jobs ds fs b ∧
      Diagnostic.sorted b.diagnostics ≠ Diagnostic.sorted (inTurn cfg ds fs).diagnostics := by
  rw [List.pairwise_iff_forall_sublist] at h
  simp only [not_forall] at h
  obtain ⟨f, g, hsub, hfg⟩ := h
  simp only [NotesAgree, not_forall] at hfg
  obtain ⟨d, hd, e, he, hplace, hne⟩ := hfg
  obtain ⟨l, l', rfl, hf, hg⟩ := List.cons_sublist_iff.mp hsub
  obtain ⟨as, bs, rfl⟩ := List.append_of_mem hf
  obtain ⟨cs, hs, rfl⟩ := List.append_of_mem (List.singleton_sublist.mp hg)
  -- the first of the two comes to its end after the second
  obtain ⟨b, hb, hdiag⟩ := ends_late cfg ds hjobs as f (bs ++ (cs ++ [g])) hs
  refine ⟨b, by simpa using hb, fun heq => hne ?_⟩
  have hk := Diagnostic.sorted_eq_iff.mp heq d.place
  obtain ⟨told, rest, hswap⟩ : ∃ told rest : List Diagnostic,
      told ++ [e] ++ [d] ++ rest = [d] ++ told ++ [e] ++ rest :=
    ⟨((bs ++ cs).flatMap (notes cfg)).filter (·.place = d.place),
      (hs.flatMap (notes cfg)).filter (·.place = d.place),
      by simpa [hdiag, inTurn, notes_eq_of_mem hd, notes_eq_of_mem he, hplace] using hk⟩
  exact (List.cons.inj (List.append_inj_right' (List.append_cancel_right hswap) rfl)).1

/-- **Schedules differ in nothing but the problems of namesakes.**  However many jobs there are,
every schedule can be brought to an end and none goes on for ever, and one of them takes the
functions in turn, as `advanceAll` does.  All end with its functions and records and with the same
problems, shown with the same functions and kinds; and what is shown, and with it the record of the
run, is the same for all if and only if there is one job or namesakes have the same problems, kind
by kind. -/
theorem schedules_agree_iff (cfg : Config) (ds : List Diagnostic) (fs : List Func) :
    ∃ b₀ : Batch, (∀ desk, advanceAll cfg .bestEffort ds fs desk = .ok b₀ desk) ∧
      ∀ jobs, CanEndIn cfg jobs ds fs b₀ ∧
        (WellFounded fun c' c => Step cfg jobs c c') ∧
        (∀ c, Reaches cfg jobs (fresh ds fs) c → ∃ c', Reaches cfg jobs c c' ∧ c'.Done) ∧
        (∀ b, CanEndIn cfg jobs ds fs b → b.funcs = b₀.funcs ∧ b.results = b₀.results ∧
          b.diagnostics.Perm b₀.diagnostics ∧
          (Diagnostic.sorted b.diagnostics).map Diagnostic.place =
            (Diagnostic.sorted b₀.diagnostics).map Diagnostic.place) ∧
        ((∀ b, CanEndIn cfg jobs ds fs b →
            Diagnostic.sorted b.diagnostics = Diagnostic.sorted b₀.diagnostics ∧
            ∀ input, RunRecord.text ⟨input, b.results, Diagnostic.sorted b.diagnostics⟩ =
              RunRecord.text ⟨input, b₀.results, Diagnostic.sorted b₀.diagnostics⟩) ↔
          jobs ≤ 1 ∨ fs.Pairwise (NotesAgree cfg)) := by
  refine ⟨inTurn cfg ds fs, fun desk => ?_, fun jobs => ⟨ends_inTurn cfg jobs ds fs,
    wellFounded_step cfg jobs, fun c _ => exists_done cfg jobs c, fun b hb => ?_,
    fun h => ?_, fun h b hb => ?_⟩⟩
  · rw [advanceAll_bestEffort]
    rfl
  · obtain ⟨hfuncs, hresults, told, htold, hperm⟩ := hb.like_inTurn
    have hall : b.diagnostics.Perm (inTurn cfg ds fs).diagnostics := by
      rw [htold]
      exact hperm.append_left ds
    exact ⟨hfuncs, hresults, hall, Diagnostic.map_place_sorted hall⟩
  · by_contra hcon
    rw [not_or, not_le] at hcon
    obtain ⟨b, hb, hne⟩ := exists_canEndIn_sorted_ne hcon.1 hcon.2
    exact hne (h b hb).1
  · obtain ⟨-, hresults, told, htold, hperm⟩ := hb.like_inTurn
    have hsorted : Diagnostic.sorted b.diagnostics =
        Diagnostic.sorted (inTurn cfg ds fs).diagnostics := by
      obtain hjobs | halike := h
      · rw [hb.diagnostics_of_oneJob hjobs]
      · rw [htold]
        exact sorted_eq_of_pairwise_notesAgree halike hperm
    exact ⟨hsorted, fun input => by rw [hresults, hsorted]⟩

/-- A dispatcher of one comparison, entered once with a known state and once with an unknown one. -/
def unknownState : Func :=
  { function "f" [
      branching 0 .jz (reg 0) (lit 0) 4 5,
      branching 1 .jz (reg 1) (lit 0x5a5a5a5a) 3 2,
      block 2 [.ret (lit 9)],
      block 3 [.ret (lit 7)],
      block 4 [.mov (lit 0x5a5a5a5a) (reg 1), .goto 1],
      block 5 [.mov (reg 0) (reg 1), .goto 1]] with
    maturity := .glbopt2 }

/-- A namesake whose dispatcher is entered from a block that joins two known states. -/
def joinedStates : Func :=
  { function "f" [
      branching 0 .jz (reg 0) (lit 0) 4 5,
      branching 1 .jz (reg 1) (lit 0x5a5a5a5a) 3 2,
      block 2 [.ret (lit 9)],
      block 3 [.ret (lit 7)],
      block 4 [.mov (lit 0x5a5a5a5a) (reg 1), .goto 6],
      block 5 [.mov (lit 0x3c3c3c3c) (reg 1), .goto 6],
      block 6 [.call (lit 0x1000) (reg 0) (reg 2), .goto 1]] with
    maturity := .glbopt2 }

/-- One pass and no copies, for regions of a single comparison. -/
def tight : Config :=
  { minInternalBlocks := 1, minExitBlocks := 2, minComparisonValues := 1, maxPasses := 1,
    maxDuplications := 0 }

/-- The problem with a budget of a function named `f`. -/
def stopped (message : String) : Diagnostic := ⟨"f", Diagnostic.budget, message⟩

/-- **Two schedules that show different lists**, though functions and configuration are in order. -/
theorem schedules_apart_namesakes :
    tight.validate = .ok () ∧ unknownState.verify = .ok () ∧ joinedStates.verify = .ok () ∧
      ∃ b b', CanEndIn tight 2 [] [unknownState, joinedStates] b ∧
        CanEndIn tight 2 [] [unknownState, joinedStates] b' ∧
        Diagnostic.sorted b.diagnostics =
          [stopped "pass budget (1) exhausted with 1 dispatcher(s) left",
            stopped "duplication budget (0) exhausted in pass 1"] ∧
        Diagnostic.sorted b'.diagnostics =
          [stopped "duplication budget (0) exhausted in pass 1",
            stopped "pass budget (1) exhausted with 1 dispatcher(s) left"] := by
  have hunknown : notes tight unknownState =
      [stopped "pass budget (1) exhausted with 1 dispatcher(s) left"] := by decide +kernel
  have hjoined : notes tight joinedStates =
      [stopped "duplication budget (0) exhausted in pass 1"] := by decide +kernel
  obtain ⟨b', hb', hdiag⟩ := ends_late tight [] (by decide : (1 : Int) < 2) [] unknownState
    [joinedStates] []
  refine ⟨by decide +kernel, rfl, rfl, _, b', ends_inTurn tight 2 [] _, hb', ?_, ?_⟩
  · simp only [inTurn, List.flatMap_cons, List.flatMap_nil, hunknown, hjoined]
    exact Diagnostic.sorted_of_place (by simp [stopped, Diagnostic.place])
  · simp only [hdiag, List.flatMap_cons, List.flatMap_nil, hunknown, hjoined]
    exact Diagnostic.sorted_of_place (by simp [stopped, Diagnostic.place])

end Crew

end Deflatten.Command

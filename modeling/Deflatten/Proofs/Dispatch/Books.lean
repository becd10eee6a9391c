import Deflatten.Proofs.Dispatch.Removal

/-!
# Proofs/Dispatch/Books — what a pass does, and what it enters into the record

A removal is a row of passes, each with a tally of the blocks it copied and the edges it moved
(`Func.Passes`).  The record counts both, and the events tell the copies of each pass (`Account`).
Whatever a pass does it enters, and it makes no more copies than it may (`Removal.keeps_booked`).

The steps of a pass are gone through once (`Removal.Keeps.bypassRegions`): what each of them keeps the
pass keeps, and it does not depend on the record.
-/

namespace Deflatten

/-! ## Passes -/

/-- **What a pass does to a function, counted.** -/
structure Tally where
  copies : Nat
  moves : Nat
deriving DecidableEq, Repr

/-- All passes together. -/
def Tally.total : List Tally → Tally
  | [] => ⟨0, 0⟩
  | t :: ts => ⟨t.copies + (total ts).copies, t.moves + (total ts).moves⟩

namespace Func

/-- **`g` comes from `f` by moving edges**, some of them after the block they start at was copied. -/
inductive Rewrites (f : Func) : Tally → Func → Prop where
  /-- Nothing is moved. -/
  | refl : f.Rewrites ⟨0, 0⟩ f
  /-- An edge is moved. -/
  | move {t : Tally} {g h : Func} {src entry target : Int} {path : List Int} : f.Rewrites t g →
      g.Diverts src entry target path h → f.Rewrites ⟨t.copies, t.moves + 1⟩ h
  /-- A block is copied for one that leads to it, and the edge out of the copy is moved. -/
  | copy {t : Tally} {g g₁ g₂ h : Func} {father pred copy entry target : Int} {path : List Int} :
      f.Rewrites t g → duplicate father g = .ok copy g₁ → redirect pred father copy g₁ = .ok () g₂ →
      g₂.Diverts copy entry target path h →
      f.Rewrites ⟨t.copies + 1, t.moves + 1⟩ h

variable {cfg : Config} {f g h : Func} {t : Tally} {ts : List Tally}

theorem Rewrites.copies_le (h : f.Rewrites t g) : t.copies ≤ t.moves := by
  induction h with
  | refl => exact Nat.le_refl 0
  | move _ _ ih => exact Nat.le_succ_of_le ih
  | copy _ _ _ _ ih => exact Nat.succ_le_succ ih

theorem Rewrites.eq_of_moves (h : f.Rewrites t g) (hm : t.moves = 0) : g = f := by
  cases h with
  | refl => rfl
  | move | copy => cases hm

/-- A pass that has moved an edge compacts the function. -/
def Closes (t : Tally) (g h : Func) : Prop :=
  if t.moves = 0 then h = g else ∃ renumbering, compact g = .ok renumbering h

/-- **`g` comes from `f` by passes**, each with its tally and with regions to begin with. -/
inductive Passes (cfg : Config) : Func → List Tally → Func → Prop where
  /-- No pass. -/
  | refl (f : Func) : Passes cfg f [] f
  /-- A pass, and those after it. -/
  | cons {f g h k : Func} {t : Tally} {ts : List Tally} : (f.collect cfg).regions ≠ [] →
      f.Rewrites t g → Closes t g h → Passes cfg h ts k → Passes cfg f (t :: ts) k

theorem Passes.copies_le (h : Passes cfg f ts g) : (Tally.total ts).copies ≤ (Tally.total ts).moves := by
  induction h with
  | refl => exact Nat.le_refl 0
  | cons _ hr _ _ ih => exact Nat.add_le_add hr.copies_le ih

/-- **Passes that move no edge leave the function as it is.** -/
theorem Passes.eq_of_moves (h : Passes cfg f ts g) (hm : (Tally.total ts).moves = 0) : g = f := by
  induction h with
  | refl => rfl
  | cons _ hr hc _ ih =>
    obtain ⟨hfirst, hrest⟩ := Nat.add_eq_zero_iff.mp hm
    rw [ih hrest, ← hr.eq_of_moves hfirst]
    exact (if_pos hfirst).mp hc

end Func

/-! ## Accounts -/

/-- The copies of the pass that an event tells of. -/
def Event.copies? : Event → Option Nat
  | .passDone _ _ _ _ duplicated _ => some duplicated
  | _ => none

/-- **What the record counts**, and the copies told of each pass. -/
structure Account where
  redirected : Int
  duplicated : Int
  passes : Int
  /-- The blocks copied in each pass that was told of. -/
  told : List Nat
deriving DecidableEq, Repr

/-- The account with the counts of a tally added. -/
def Account.add (a : Account) (t : Tally) : Account :=
  { a with redirected := a.redirected + t.moves, duplicated := a.duplicated + t.copies }

/-- The account with passes entered. -/
def Account.enter (a : Account) (ts : List Tally) : Account :=
  { a.add (Tally.total ts) with passes := a.passes + ts.length, told := a.told ++ ts.map Tally.copies }

theorem Account.add_add (a : Account) (t t' : Tally) :
    (a.add t).add t' = a.add ⟨t.copies + t'.copies, t.moves + t'.moves⟩ := by
  simp only [add, Int.natCast_add, Int.add_assoc]

theorem Account.enter_cons (a : Account) (t : Tally) (ts : List Tally) :
    { a.add t with passes := a.passes + 1, told := a.told ++ [t.copies] : Account }.enter ts =
      a.enter (t :: ts) := by
  simp only [enter, add, Tally.total, mk.injEq, List.length_cons, List.map_cons, List.append_assoc,
    List.singleton_append, and_true]
  push_cast
  omega

/-- The account of a record and what was told. -/
def Report.account (r : Report) (events : List Event) : Account :=
  ⟨r.redirected, r.duplicated, r.passes, events.filterMap Event.copies?⟩

/-- The account of a removal under way. -/
def Work.account (w : Work) : Account := w.report.account w.events

/-- The account of a removal. -/
def Unflattened.account (u : Unflattened) : Account := u.report.account u.events

/-- Collecting regions tells of no pass. -/
theorem Region.copies?_explore {cfg : Config} {f : Func} {hub last place : Int} {b : Block} {e : Event}
    (h : e ∈ (explore cfg f hub last place b).events) : e.copies? = none := by
  unfold explore at h
  dsimp only at h
  split at h
  · cases h
  · cases h
  · cases h
  split at h
  · cases h
  split at h
  · cases h
  unfold judge at h
  dsimp only at h
  split at h
  · rcases List.mem_pair.mp h with rfl | rfl <;> rfl
  split at h
  · rcases List.mem_pair.mp h with rfl | rfl <;> rfl
  split at h <;> rw [List.mem_singleton.mp h] <;> rfl

theorem Func.copies?_collectFrom {cfg : Config} {f : Func} {hub last : Int} {taken : List Int}
    {bs : List (Block × Nat)} : ∀ e ∈ (f.collectFrom cfg hub last taken bs).events, e.copies? = none := by
  induction bs generalizing taken with
  | nil => exact fun e he => absurd he (by simp [collectFrom])
  | cons b bs ih =>
    have hexplore : ∀ e ∈ (Region.explore cfg f hub last b.2 b.1).events, e.copies? = none :=
      fun _ => Region.copies?_explore
    have htelling : ∀ {es : List Event} {c : Collection}, (∀ e ∈ es, e.copies? = none) →
        (∀ e ∈ c.events, e.copies? = none) → ∀ e ∈ (c.telling es).events, e.copies? = none :=
      fun hes hc e he => (List.mem_append.mp he).elim (hes e) (hc e)
    have hadded : ∀ {e' : Event}, e'.copies? = none →
        ∀ e ∈ (Region.explore cfg f hub last b.2 b.1).events ++ [e'], e.copies? = none :=
      fun he' e he => (List.mem_append.mp he).elim (hexplore e) fun h => List.mem_singleton.mp h ▸ he'
    rw [collectFrom]
    split
    · exact ih
    dsimp only
    split
    · exact hexplore
    · exact htelling hexplore ih
    split
    · exact htelling (hadded rfl) ih
    split
    · exact htelling (hadded rfl) ih
    · exact htelling hexplore ih

theorem Func.filterMap_copies?_collect (cfg : Config) (f : Func) :
    (f.collect cfg).events.filterMap Event.copies? = [] := by
  refine List.filterMap_eq_nil_iff.mpr fun e he => ?_
  unfold collect at he
  dsimp only at he
  split at he
  · cases he
  rcases List.mem_append.mp he with he | he
  · split at he
    · cases he
    · rw [List.mem_singleton.mp he]
      rfl
  · exact copies?_collectFrom e he

namespace Removal

variable {cfg : Config} {d : Region} {father entry : Int} {state : Var} {keep : Bool} {w w₀ w' : Work}
  {t : Tally} {pass left : Nat}

/-! ## Repetition -/

theorem yields_edit {α : Type} (e : Edit α) :
    Yields (edit e) w fun a w' => ∃ g, e w.func = .ok a g ∧ w' = { w with func := g } :=
  concludes_edit (yields_iff.mpr fun _ g hg => ⟨g, hg, rfl⟩)

theorem yields_bypass (src entry target : Int) (path : List Int) :
    Yields (bypass src entry target path) w fun _ w' => ∃ g,
      w.func.Diverts src entry target path g ∧ w' = w.diverted g :=
  yields_iff.mpr fun _ _ => bypass_eq_ok_iff.mp

/-- From `w`, **`y` does what `x` does**, whatever the record says and has been told, and what is left
has `I`. -/
def RepeatsAt (I : Work → Prop) {α : Type} (x y : Removal α) (w : Work) : Prop :=
  ∀ r es, Yields x w fun a w₁ => I w₁ ∧ ∃ r₁ es₁,
    y { w with report := r, events := es } = .ok a { w₁ with report := r₁, events := es₁ }

/-- **`y` does what `x` does**, whatever the record says and has been told, and `x` keeps `I`. -/
def Repeats (I : Work → Prop) {α : Type} (x y : Removal α) : Prop := ∀ w, I w → RepeatsAt I x y w

section Repeats

variable {I : Work → Prop} {α β : Type} {x y : Removal α}

theorem Repeats.stays (h : Repeats I x y) : Stays x I := fun w hw =>
  (h w hw w.report w.events).weaken fun _ _ h => h.1

theorem RepeatsAt.keeping (h : RepeatsAt (fun _ => True) x y w) (hI : Yields x w fun _ => I) :
    RepeatsAt I x y w := fun r es =>
  yields_iff.mpr fun _ _ hx => ⟨hI.of_eq_ok hx, ((h r es).of_eq_ok hx).2⟩

theorem repeats_pure (a : α) : Repeats I (pure a) (pure a) := fun _ hw r es =>
  concludes_pure ⟨hw, r, es, rfl⟩

theorem RepeatsAt.bind (hx : RepeatsAt I x y w) {k k' : α → Removal β}
    (hk : ∀ a, Repeats I (k a) (k' a)) : RepeatsAt I (x >>= k) (y >>= k') w := by
  refine fun r es => (hx r es).bind ?_
  rintro a w₁ ⟨hw₁, r₁, es₁, hy⟩
  refine (hk a w₁ hw₁ r₁ es₁).weaken ?_
  rintro b w₂ ⟨hw₂, r₂, es₂, hk⟩
  exact ⟨hw₂, r₂, es₂, by simp only [Bind.bind, EStateM.bind, hy, hk]⟩

theorem Repeats.bind (hx : Repeats I x y) {k k' : α → Removal β} (hk : ∀ a, Repeats I (k a) (k' a)) :
    Repeats I (x >>= k) (y >>= k') := fun w hw => (hx w hw).bind hk

theorem repeats_get_bind {k k' : Work → Removal β} (h : ∀ w r es, I w →
    RepeatsAt I (k w) (k' { w with report := r, events := es }) w) :
    Repeats I (get >>= k) (get >>= k') := fun w hw r es => concludes_get_bind (h w r es hw r es)

theorem repeats_lookup_bind {r : Except FlowError α} {k k' : α → Removal β}
    (hk : ∀ a, Repeats I (k a) (k' a)) : Repeats I (ofExcept r >>= k) (ofExcept r >>= k') := by
  refine fun w hw rep es => concludes_lookup_bind (fun _ _ => trivial) fun a ha => ?_
  subst ha
  exact hk a w hw rep es

theorem repeats_modify {g g' : Work → Work} (hI : ∀ w, I w → I (g w)) (h : ∀ w r es, ∃ r₁ es₁,
    g' { w with report := r, events := es } = { g w with report := r₁, events := es₁ }) :
    Repeats I (modify g : Removal Unit) (modify g') := by
  intro w hw r es
  obtain ⟨r₁, es₁, heq⟩ := h w r es
  exact concludes_modify ⟨hI w hw, r₁, es₁, congrArg (EStateM.Result.ok ()) heq⟩

theorem repeats_edit (e : Edit α) : Repeats (fun _ => True) (edit e) (edit e) := by
  refine fun w _ r es => (yields_edit e).weaken ?_
  rintro a _ ⟨g, hg, rfl⟩
  exact ⟨trivial, r, es, by simp only [edit, hg]⟩

end Repeats

/-! ## A pass over regions -/

/-- What is done for a route that gets a copy of the father. -/
def copyFor (entry father : Int) (r : Route) : Removal Unit := do
  let copy ← edit (Func.duplicate father)
  modify fun w =>
    { w with
      copies := w.copies + 1
      report := { w.report with duplicated := w.report.duplicated + 1 } }
  edit (Func.redirect r.pred father copy)
  bypass copy entry r.target r.path

theorem takeRoutes_cons (r : Route) (rs : List Route) : takeRoutes cfg entry father keep (r :: rs) =
    if keep && rs.isEmpty then bypass father entry r.target r.path
    else get >>= fun w =>
      if cfg.maxDuplications ≤ w.copies then modify fun w => { w with exhausted := true }
      else copyFor entry father r >>= fun _ => takeRoutes cfg entry father keep rs := by
  simp only [takeRoutes, copyFor, bind_assoc]

theorem repeats_bypass {src target : Int} {path : List Int} :
    Repeats (fun _ => True) (bypass src entry target path) (bypass src entry target path) :=
  repeats_get_bind fun w _ _ _ => (repeats_lookup_bind fun _ => (repeats_edit _).bind fun _ =>
    repeats_modify (fun _ _ => trivial) fun _ _ es => ⟨_, es, rfl⟩) w trivial

theorem repeats_copyFor {r : Route} :
    Repeats (fun _ => True) (copyFor entry father r) (copyFor entry father r) :=
  (repeats_edit _).bind fun _ => .bind (repeats_modify (fun _ _ => trivial) fun _ _ es => ⟨_, es, rfl⟩)
    fun _ => (repeats_edit _).bind fun _ => repeats_bypass

/-- **A property that a pass keeps**: notes do not spoil it, nor does an edge that is moved, nor a copy
that is made while there are copies left. -/
structure Keeps (cfg : Config) (I : Work → Prop) : Prop where
  /-- Neither the function nor what is counted has changed. -/
  note : ∀ {w w'}, I w → w'.func = w.func → w'.account = w.account → w'.copies = w.copies →
    w'.changed = w.changed → I w'
  /-- An edge is moved. -/
  bypass : ∀ src entry target path, Stays (bypass src entry target path) I
  /-- A copy is made. -/
  copy : ∀ {w} entry father r, I w → ¬ cfg.maxDuplications ≤ w.copies →
    Yields (copyFor entry father r) w fun _ => I

namespace Keeps

variable {I : Work → Prop}

theorem repeats_bypass (h : Keeps cfg I) {src target : Int} {path : List Int} :
    Repeats I (Removal.bypass src entry target path) (Removal.bypass src entry target path) :=
  fun w hw => (Removal.repeats_bypass w trivial).keeping (h.bypass src entry target path w hw)

theorem record (h : Keeps cfg I) {g g' : Report → Report}
    (hg : ∀ r es, (g r).account es = r.account es) :
    Repeats I (Removal.record g) (Removal.record g') :=
  repeats_modify (fun _ hw => h.note hw rfl (hg ..) rfl rfl) fun _ r es => ⟨g' r, es, rfl⟩

theorem countUnresolved (h : Keeps cfg I) :
    Repeats I Removal.countUnresolved Removal.countUnresolved := h.record fun _ _ => rfl

theorem tell (h : Keeps cfg I) {e e' : Event} (he : e.copies? = none) :
    Repeats I (Removal.tell e) (Removal.tell e') :=
  repeats_modify (fun _ hw => h.note hw rfl (by simp [Work.account, Report.account, he]) rfl rfl)
    fun _ r es => ⟨r, es ++ [e'], rfl⟩

theorem takeRoutes (h : Keeps cfg I) (rs : List Route) : Repeats I
    (takeRoutes cfg entry father keep rs) (Removal.takeRoutes cfg entry father keep rs) := by
  induction rs with
  | nil => exact repeats_pure ()
  | cons r rs ih =>
    rw [takeRoutes_cons]
    split
    · exact h.repeats_bypass
    refine repeats_get_bind fun w _ _ hw => ?_
    dsimp only
    split
    · refine repeats_modify (fun _ hw => ?_) (fun _ r es => ⟨r, es, rfl⟩) w hw
      exact h.note hw rfl rfl rfl rfl
    · next hleft =>
      exact ((repeats_copyFor w trivial).keeping (h.copy entry father r hw hleft)).bind fun _ => ih

theorem splitFather (h : Keeps cfg I) :
    Repeats I (splitFather cfg d state father) (Removal.splitFather cfg d state father) := by
  refine repeats_get_bind fun w _ _ hw => repeats_lookup_bind (fun b => ?_) w hw
  dsimp only
  split
  · exact h.countUnresolved
  refine repeats_lookup_bind fun routes => ?_
  split
  · exact h.countUnresolved
  split
  · exact h.countUnresolved.bind fun _ => h.takeRoutes _
  · exact h.takeRoutes _

theorem redirectFathers (h : Keeps cfg I) (fathers : List Int) : Repeats I
    (redirectFathers cfg d state fathers) (Removal.redirectFathers cfg d state fathers) := by
  induction fathers with
  | nil => exact repeats_pure ()
  | cons father rest ih =>
    rw [Removal.redirectFathers]
    refine repeats_get_bind fun w _ _ hw => repeats_lookup_bind (fun b => ?_) w hw
    split
    · exact ih
    refine repeats_lookup_bind fun known => ?_
    cases known with
    | some v =>
      refine repeats_lookup_bind fun way => ?_
      cases way with
      | none => exact h.countUnresolved.bind fun _ => ih
      | some way => exact h.repeats_bypass.bind fun _ => ih
    | none =>
      refine h.splitFather.bind fun _ => repeats_get_bind fun w' _ _ hw' => ?_
      dsimp only
      split
      · exact repeats_pure () w' hw'
      · exact ih w' hw'

theorem bypassRegion (h : Keeps cfg I) :
    Repeats I (bypassRegion cfg d) (Removal.bypassRegion cfg d) := by
  refine repeats_get_bind fun w _ _ hw => ?_
  dsimp only
  split
  · exact h.tell rfl w hw
  · exact h.redirectFathers _ w hw

/-- **A pass over regions keeps what its steps keep**, and can be repeated under another number. -/
theorem bypassRegions (h : Keeps cfg I) (pass pass' : Nat) (ds : List Region) :
    Repeats I (bypassRegions cfg pass ds) (Removal.bypassRegions cfg pass' ds) := by
  induction ds with
  | nil => exact repeats_pure ()
  | cons d ds ih =>
    refine .bind (h.record ?_) fun _ => h.bypassRegion.bind fun _ =>
      repeats_get_bind fun w _ _ hw => ?_
    · exact fun _ _ => rfl
    dsimp only
    split
    · exact repeats_pure () w hw
    · exact ih w hw

end Keeps

/-! ## What a pass enters into the record -/

/-- **The books of a pass**: what has been done since it began, with the counts and notes made. -/
structure Books (cfg : Config) (w₀ : Work) (t : Tally) (w : Work) : Prop where
  /-- Edges have been moved. -/
  rewrites : w₀.func.Rewrites t w.func
  /-- The record counts them. -/
  account_eq : w.account = w₀.account.add t
  /-- The copies of the pass are counted. -/
  copies_eq : w.copies = t.copies
  /-- They are not too many. -/
  copies_le : t.copies ≤ cfg.maxDuplications.toNat
  /-- That edges have been moved is noted. -/
  changed_iff : w.changed = true ↔ 0 < t.moves

/-- Some tally is that of the pass. -/
def Booked (cfg : Config) (w₀ w : Work) : Prop := ∃ t, Books cfg w₀ t w

theorem Booked.congr (h : Booked cfg w₀ w) (hfunc : w'.func = w.func) (ha : w'.account = w.account)
    (hc : w'.copies = w.copies) (hch : w'.changed = w.changed) : Booked cfg w₀ w' := by
  obtain ⟨t, h⟩ := h
  exact ⟨t, hfunc ▸ h.rewrites, ha.trans h.account_eq, hc.trans h.copies_eq, h.copies_le,
    hch ▸ h.changed_iff⟩

/-- One edge more is moved, and perhaps a block copied for it. -/
theorem Books.add (h : Books cfg w₀ t w) {k : Nat}
    (hr : w₀.func.Rewrites ⟨t.copies + k, t.moves + 1⟩ w'.func)
    (ha : w'.account = w.account.add ⟨k, 1⟩) (hc : w'.copies = w.copies + k)
    (hle : t.copies + k ≤ cfg.maxDuplications.toNat) (hch : w'.changed = true) : Booked cfg w₀ w' := by
  refine ⟨_, hr, ?_, by rw [hc, h.copies_eq], hle, iff_of_true hch (Nat.succ_pos _)⟩
  rw [ha, h.account_eq, Account.add_add]

/-- An edge is moved and counted. -/
theorem Booked.bypass (h : Booked cfg w₀ w) {src target : Int} {path : List Int} :
    Yields (bypass src entry target path) w fun _ w' => Booked cfg w₀ w' := by
  obtain ⟨t, h⟩ := h
  refine (yields_bypass src entry target path).weaken ?_
  rintro _ _ ⟨g, hg, rfl⟩
  refine h.add (k := 0) (.move h.rewrites hg) ?_ rfl h.copies_le rfl
  simp [Work.diverted, Work.account, Report.account, Account.add]

/-- **Whatever a pass does is entered into the books**, and a copy is made while the budget lasts. -/
theorem keeps_booked : Keeps cfg (Booked cfg w₀) where
  note := Booked.congr
  bypass _ _ _ _ _ h := h.bypass
  copy := by
    rintro w entry father r ⟨t, h⟩ hleft
    refine (yields_edit _).bind ?_
    rintro copy _ ⟨g₁, hdup, rfl⟩
    refine (concludes_modify (Q := fun _ w₁ => w₁ = _) rfl).bind ?_
    rintro _ _ rfl
    refine (yields_edit _).bind ?_
    rintro _ _ ⟨g₂, hred, rfl⟩
    refine (yields_bypass copy entry r.target r.path).weaken ?_
    rintro _ _ ⟨g₃, hby, rfl⟩
    have := h.copies_eq
    exact h.add (k := 1) (.copy h.rewrites hdup hred hby) rfl rfl (by omega) rfl

end Removal

end Deflatten

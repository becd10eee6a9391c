import Deflatten.Proofs.Dispatch.Books
import Deflatten.Proofs.Dispatch.Upkeep

/-!
# Proofs/Dispatch/Ledger — the record of a removal is true

What a pass does is told by the function and the copies made so far alone, not by the record, so a pass
that does nothing would do nothing again (`Func.settled_of_quiet`).  Each pass comes to one of a few
ends (`Removal.PassesEnd`), and along them the books add up: the record is true, the budgets are kept,
and a removal that was not stopped by a budget has nothing left to do (`Func.unflatten_ledger`).
-/

namespace Deflatten

open Samples (block branching function lit reg symbol)

namespace Removal

variable {cfg : Config} {d : Region} {father entry : Int} {state : Var} {keep : Bool} {w w₀ w' : Work}
  {pass left : Nat}

/-! ## Passes in turn -/

/-- The work at the beginning of a pass. -/
structure Opens (pass : Nat) (w w₁ : Work) : Prop where
  /-- Nothing has been done about the function. -/
  eq : w₁ = { func := w.func, report := w₁.report, events := w₁.events }
  /-- The pass is counted. -/
  account_eq : w₁.account = { w.account with passes := pass }

/-- The work at the end of a pass. -/
structure Closes (w₂ w₃ : Work) : Prop where
  /-- A function that has changed is compacted. -/
  compacted : w₂.changed = true → ∃ renumbering, Func.compact w₂.func = .ok renumbering w₃.func
  /-- One that has not is left as it is. -/
  func_eq : w₂.changed = false → w₃.func = w₂.func
  /-- The copies of the pass are told. -/
  account_eq : w₃.account = { w₂.account with told := w₂.account.told ++ [w₂.copies] }

/-- A budget is noted as used up, and nothing else is done. -/
structure Stops (w w' : Work) : Prop where
  func_eq : w'.func = w.func
  /-- So does what is counted. -/
  account_eq : w'.account = w.account
  exhausted_ne : w'.report.exhausted ≠ ""

/-- **A pass that is made**: edges are led past the regions, which leaves `w₂`, and the pass is closed. -/
structure Made (cfg : Config) (pass : Nat) (w w₂ w₃ : Work) : Prop where
  regions_ne : (w.func.collect cfg).regions ≠ []
  pass_le : (pass : Int) ≤ cfg.maxPasses
  /-- Edges are led past the regions. -/
  run : ∃ w₁, Opens pass w w₁ ∧ bypassRegions cfg pass (w.func.collect cfg).regions w₁ = .ok () w₂
  closes : Closes w₂ w₃

/-- **What passes come to**, by what the first of them does. -/
inductive PassesEnd (cfg : Config) (left pass : Nat) (w w' : Work) : Prop where
  /-- There is no region. -/
  | done : (w.func.collect cfg).regions = [] → w'.func = w.func → w'.account = w.account →
      PassesEnd cfg left pass w w'
  /-- The passes are used up. -/
  | late : Stops w w' → PassesEnd cfg left pass w w'
  /-- The copies run out. -/
  | spent {w₂ w₃ : Work} : Made cfg pass w w₂ w₃ → Stops w₃ w' → PassesEnd cfg left pass w w'
  /-- More passes follow. -/
  | more {w₂ w₃ : Work} : Made cfg pass w w₂ w₃ → w₂.changed = true →
      runPasses cfg false left (pass + 1) w₃ = .ok () w' → PassesEnd cfg left pass w w'
  /-- No edge can be led past the regions. -/
  | quiet {w₂ : Work} : Made cfg pass w w₂ w' → w₂.changed = false → w₂.exhausted = false →
      PassesEnd cfg left pass w w'

theorem yields_stopFor {reason : String} (h : reason ≠ "") :
    Yields (stopFor reason) w fun _ w' => Stops w w' := by
  refine concludes_get_bind (.bind (concludes_modify (Q := fun _ w₁ => Stops w w₁) ⟨rfl, rfl, h⟩) ?_)
  intro _ w₁ hw₁
  refine concludes_modify ⟨hw₁.func_eq, ?_, hw₁.exhausted_ne⟩
  rw [← hw₁.account_eq]
  simp [Work.account, Report.account, Event.copies?]

theorem yields_collect : Yields (collect cfg) w fun ds w' =>
    ds = (w.func.collect cfg).regions ∧ w'.func = w.func ∧ w'.account = w.account := by
  refine yields_iff.mpr fun ds w' h => ?_
  unfold collect at h
  dsimp only at h
  split at h
  · cases h
  · cases h
    refine ⟨rfl, rfl, ?_⟩
    simp [Work.account, Report.account, Func.filterMap_copies?_collect]

theorem yields_runPasses_succ : Yields (runPasses cfg false (left + 1) pass) w
    fun _ w' => PassesEnd cfg left pass w w' := by
  rw [runPasses]
  simp only [Bool.false_eq_true, if_false]
  refine (concludes_inPass yields_collect).bind ?_
  rintro _ w₀ ⟨rfl, hfunc, haccount⟩
  split
  · next hnil => exact concludes_pure (.done (List.isEmpty_iff.mp hnil) hfunc haccount)
  next hregions =>
  have hregions : (w.func.collect cfg).regions ≠ [] := fun h => hregions (List.isEmpty_iff.mpr h)
  split
  · refine (yields_stopFor ?_).weaken fun _ w' h =>
      .late ⟨h.func_eq.trans hfunc, h.account_eq.trans haccount, h.exhausted_ne⟩
    simp
  next hpass =>
  have hpass : (pass : Int) ≤ cfg.maxPasses := Int.not_lt.mp hpass
  refine (concludes_modify (Q := fun _ w₁ => w₁.func = w.func ∧
    w₁.account = { w.account with passes := pass }) ⟨hfunc, by rw [← haccount]; rfl⟩).bind ?_
  rintro _ w₀ ⟨hfunc, haccount⟩
  refine (concludes_modify (Q := fun _ w₁ => Opens pass w w₁) ⟨by rw [hfunc], haccount⟩).bind ?_
  intro _ w₁ hopens
  refine (concludes_inPass (P := fun _ w₂ => bypassRegions cfg pass (w.func.collect cfg).regions w₁ =
    .ok () w₂) (yields_iff.mpr fun _ _ h => h)).bind fun _ w₂ hbypass => concludes_get_bind ?_
  -- a function that has changed is compacted
  have hcompacted : ∀ {y : Removal Unit} {Q : Unit → Work → Prop}, (∀ h : Func,
      (w₂.changed = true → ∃ renumbering, Func.compact w₂.func = .ok renumbering h) →
      (w₂.changed = false → h = w₂.func) → Yields y { w₂ with func := h } Q) →
      Yields (if w₂.changed = true then (do let _ ← inPass pass (edit Func.compact); y) else y) w₂ Q := by
    intro y Q hy
    split
    · next hch =>
      refine (concludes_inPass (yields_edit _)).bind ?_
      rintro renumbering _ ⟨h, hh, rfl⟩
      exact hy h (fun _ => ⟨renumbering, hh⟩) fun hno => absurd (hch.symm.trans hno) (by simp)
    · next hch => exact hy w₂.func (fun hyes => absurd hyes hch) fun _ => rfl
  refine hcompacted fun h hyes hno => concludes_get_bind ?_
  refine (concludes_modify (Q := fun _ w₃ => Closes w₂ w₃) ⟨hyes, hno, ?_⟩).bind fun _ w₃ hcloses => ?_
  · simp [Work.account, Report.account, Event.copies?]
  have hmade : Made cfg pass w w₂ w₃ := ⟨hregions, hpass, ⟨w₁, hopens, hbypass⟩, hcloses⟩
  dsimp only
  split
  · refine (yields_stopFor ?_).weaken fun _ w' h => .spent hmade h
    simp
  next hexhausted =>
  split
  · next hch => exact yields_iff.mpr fun _ w' hrest => .more hmade hch hrest
  · next hch => exact concludes_pure (.quiet hmade (by simpa using hch) (by simpa using hexhausted))

/-- The books of a pass that is just beginning. -/
theorem Opens.booked (h : Opens pass w w₀) : Booked cfg w₀ w₀ := by
  refine ⟨⟨0, 0⟩, .refl, by simp [Account.add], ?_, Nat.zero_le _, ?_⟩
  · rw [h.eq]
  · rw [h.eq]
    simp

/-- **What a pass has done**, with its tally. -/
theorem Made.exists_tally {w₂ w₃ : Work} (h : Made cfg pass w w₂ w₃) :
    ∃ t g, w.func.Rewrites t g ∧ Func.Closes t g w₃.func ∧ t.copies ≤ cfg.maxDuplications.toNat ∧
      (w₂.changed = false → w₃.func = w.func ∧ t.moves = 0) ∧
      w₃.account = { w.account.add t with passes := pass, told := w.account.told ++ [t.copies] } := by
  obtain ⟨-, -, ⟨w₁, hopens, hrun⟩, hcloses⟩ := h
  obtain ⟨t, hbooks⟩ := (keeps_booked.bypassRegions pass pass _).stays.of_eq_ok hopens.booked hrun
  have hfunc : w₁.func = w.func := by rw [hopens.eq]
  have hch : w₂.changed = false → t.moves = 0 := by
    intro hno
    have := hbooks.changed_iff
    rw [hno] at this
    simpa using this
  refine ⟨t, w₂.func, hfunc ▸ hbooks.rewrites, ?_, hbooks.copies_le, fun hno => ⟨?_, hch hno⟩, ?_⟩
  · unfold Func.Closes
    split
    · next hzero =>
      refine hcloses.func_eq (Bool.eq_false_iff.mpr fun hyes => ?_)
      exact Nat.ne_of_gt (hbooks.changed_iff.mp hyes) hzero
    · next hpos => exact hcloses.compacted (hbooks.changed_iff.mpr (Nat.pos_of_ne_zero hpos))
  · rw [hcloses.func_eq hno, hbooks.rewrites.eq_of_moves (hch hno), hfunc]
  · rw [hcloses.account_eq, hbooks.account_eq, hopens.account_eq, hbooks.copies_eq]
    rfl

end Removal

namespace Func

variable {cfg : Config} {f : Func}

/-- **Nothing can be done about the regions of a function.** -/
def Settled (cfg : Config) (f : Func) : Prop :=
  ∀ (pass : Nat) (report : Report) (events : List Event),
    Yields (Removal.bypassRegions cfg pass (f.collect cfg).regions)
      { func := f, report := report, events := events }
      fun _ w' => w'.changed = false ∧ w'.exhausted = false

theorem settled_of_regions (h : (f.collect cfg).regions = []) : f.Settled cfg := by
  intro pass report events
  rw [h]
  exact concludes_pure ⟨rfl, rfl⟩

/-- **A pass that does nothing would do nothing again.** -/
theorem settled_of_quiet {pass : Nat} {w w₂ w₃ : Work} (h : Removal.Made cfg pass w w₂ w₃)
    (hch : w₂.changed = false) (hx : w₂.exhausted = false) : w.func.Settled cfg := by
  obtain ⟨w₁, hopens, hrun⟩ := h.run
  intro pass' report events
  rw [hopens.eq] at hrun
  have hkeeps : Removal.Keeps cfg fun _ => True := ⟨fun _ _ _ _ _ => trivial,
    fun _ _ _ _ _ _ => yields_iff.mpr fun _ _ _ => trivial,
    fun _ _ _ _ _ => yields_iff.mpr fun _ _ _ => trivial⟩
  obtain ⟨-, r, es, hrepeat⟩ :=
    (hkeeps.bypassRegions pass pass' _ _ trivial report events).of_eq_ok hrun
  exact concludes_of_ok hrepeat ⟨hch, hx⟩

end Func

namespace Removal

variable {cfg : Config} {pass left n : Nat} {w w' w₃ : Work}

/-- **Passes that keep to the budgets and are entered into the record**, at most `n` of them.  If no
budget stops them, nothing can be done about the function they end with. -/
def Accounted (cfg : Config) (n : Nat) (w w' : Work) : Prop :=
  ∃ ts, Func.Passes cfg w.func ts w'.func ∧ w'.account = w.account.enter ts ∧ ts.length ≤ n ∧
    (∀ t ∈ ts, t.copies ≤ cfg.maxDuplications.toNat) ∧
    (w'.report.exhausted = "" → w'.func.Settled cfg)

theorem Accounted.refl (hfunc : w'.func = w.func) (haccount : w'.account = w.account)
    (h : w'.report.exhausted = "" → w'.func.Settled cfg) : Accounted cfg n w w' := by
  refine ⟨[], hfunc ▸ .refl _, ?_, Nat.zero_le n, nofun, h⟩
  rw [haccount]
  simp [Account.enter, Account.add, Tally.total]

theorem Stops.accounted (h : Stops w w') : Accounted cfg n w w' :=
  .refl h.func_eq h.account_eq fun hempty => absurd hempty h.exhausted_ne

/-- One pass, and those after it. -/
theorem Made.accounted {w₂ : Work} (h : Made cfg pass w w₂ w₃) (hcount : w.account.passes + 1 = pass)
    (hrest : Accounted cfg n w₃ w') : Accounted cfg (n + 1) w w' := by
  obtain ⟨t, g, hr, hc, ht, -, haccount⟩ := h.exists_tally
  obtain ⟨ts, hpasses, hents, hlen, hcopies, hsettled⟩ := hrest
  refine ⟨t :: ts, .cons h.regions_ne hr hc hpasses, ?_, Nat.succ_le_succ hlen,
    List.forall_mem_cons.mpr ⟨ht, hcopies⟩, hsettled⟩
  rw [hents, haccount, ← hcount, Account.enter_cons]

/-- What passes come to is accounted for if the passes after the first are. -/
theorem PassesEnd.accounted (h : PassesEnd cfg left pass w w') (hcount : w.account.passes + 1 = pass)
    (hrest : (pass : Int) ≤ cfg.maxPasses → ∃ k, n = k + 1 ∧ ∀ w₃ : Work, w₃.account.passes = pass →
      runPasses cfg false left (pass + 1) w₃ = .ok () w' → Accounted cfg k w₃ w') :
    Accounted cfg n w w' := by
  cases h with
  | done hnil hfunc haccount =>
    exact .refl hfunc haccount fun _ => hfunc ▸ Func.settled_of_regions hnil
  | late hstops => exact hstops.accounted
  | spent hmade hstops =>
    obtain ⟨k, rfl, -⟩ := hrest hmade.pass_le
    exact hmade.accounted hcount hstops.accounted
  | more hmade _ hmore =>
    obtain ⟨k, rfl, hafter⟩ := hrest hmade.pass_le
    obtain ⟨t, g, -, -, -, -, haccount⟩ := hmade.exists_tally
    exact hmade.accounted hcount (hafter _ (by rw [haccount]) hmore)
  | quiet hmade hch hx =>
    obtain ⟨k, rfl, -⟩ := hrest hmade.pass_le
    obtain ⟨t, g, -, -, -, hsame, -⟩ := hmade.exists_tally
    refine hmade.accounted hcount (.refl rfl rfl fun _ => ?_)
    exact (hsame hch).1.symm ▸ Func.settled_of_quiet hmade hch hx

/-- **Passes in turn are accounted for.** -/
theorem accounted_runPasses (hpass : pass + left = cfg.maxPasses.toNat + 1)
    (hcount : w.account.passes + 1 = pass) (hrun : runPasses cfg false (left + 1) pass w = .ok () w') :
    Accounted cfg left w w' := by
  induction left generalizing pass w with
  | zero =>
    refine (yields_runPasses_succ.of_eq_ok hrun).accounted hcount fun hle => ?_
    omega
  | succ left ih =>
    refine (yields_runPasses_succ.of_eq_ok hrun).accounted hcount fun _ =>
      ⟨left, rfl, fun w₃ hw₃ hmore => ?_⟩
    exact ih (by omega) (by rw [hw₃]; rfl) hmore

/-- All passes, and what is told at their end. -/
theorem yields_runAll : Yields (runAll cfg false) w fun _ w' => ∃ w₁,
    runPasses cfg false (cfg.maxPasses.toNat + 1) 1 w = .ok () w₁ ∧ w'.func = w₁.func ∧
      w'.account = w₁.account ∧ w'.report.exhausted = w₁.report.exhausted := by
  refine Concludes.bind (P := fun _ w₁ => runPasses cfg false (cfg.maxPasses.toNat + 1) 1 w = .ok () w₁)
    (yields_iff.mpr fun _ _ h => h) fun _ w₁ hrun => concludes_get_bind ?_
  dsimp only
  split
  · refine concludes_modify ⟨w₁, hrun, rfl, ?_, rfl⟩
    simp [Work.account, Report.account, Event.copies?]
  · exact concludes_pure ⟨w₁, hrun, rfl, rfl, rfl⟩

/-- **Where nothing can be done, nothing is done.** -/
theorem runPasses_of_settled (h : w.func.Settled cfg)
    (hrun : runPasses cfg false (left + 1) pass w = .ok () w') : w'.func = w.func ∧
      w'.account.redirected = w.account.redirected ∧ w'.account.duplicated = w.account.duplicated := by
  have hquiet : ∀ {w₂ w₃ : Work}, Made cfg pass w w₂ w₃ → w₂.changed = false := by
    intro w₂ w₃ hmade
    obtain ⟨w₁, hopens, hrun⟩ := hmade.run
    rw [hopens.eq] at hrun
    exact ((h pass _ _).of_eq_ok hrun).1
  have hclosed : ∀ {w₂ w₃ : Work}, Made cfg pass w w₂ w₃ → w₃.func = w.func ∧
      w₃.account.redirected = w.account.redirected ∧
      w₃.account.duplicated = w.account.duplicated := by
    intro w₂ w₃ hmade
    obtain ⟨t, g, hr, -, -, hsame, haccount⟩ := hmade.exists_tally
    obtain ⟨hfunc, hmoves⟩ := hsame (hquiet hmade)
    have hcopies : t.copies = 0 := Nat.le_zero.mp (hmoves ▸ hr.copies_le)
    rw [haccount]
    exact ⟨hfunc, by simp [Account.add, hmoves], by simp [Account.add, hcopies]⟩
  cases yields_runPasses_succ.of_eq_ok hrun with
  | done _ hfunc haccount => exact ⟨hfunc, by rw [haccount], by rw [haccount]⟩
  | late hstops => exact ⟨hstops.func_eq, by rw [hstops.account_eq], by rw [hstops.account_eq]⟩
  | spent hmade hstops =>
    rw [hstops.func_eq, hstops.account_eq]
    exact hclosed hmade
  | more hmade hch => exact absurd ((hquiet hmade).symm.trans hch) (by simp)
  | quiet hmade => exact hclosed hmade

end Removal

namespace Func

variable {cfg : Config} {f : Func}

/-- **A removal that succeeds is its passes**, if there are any at its stage. -/
theorem exists_runPasses (h : (f.unflatten cfg false).error? = none) : ∃ w w' : Work, w.func = f ∧
    w.account = ⟨0, 0, 0, []⟩ ∧
    (if cfg.unflattensAt f.maturity then
      Removal.runPasses cfg false (cfg.maxPasses.toNat + 1) 1 w = .ok () w' else w' = w) ∧
    (f.unflatten cfg false).func = w'.func ∧ (f.unflatten cfg false).account = w'.account ∧
    (f.unflatten cfg false).report.exhausted = w'.report.exhausted := by
  unfold Func.unflatten at h ⊢
  dsimp only at h ⊢
  split at h
  · next hat =>
    rw [if_pos hat]
    split at h
    · next u w' hrun =>
      obtain ⟨w₁, hpasses, hfunc, haccount, hexhausted⟩ := Removal.yields_runAll.of_eq_ok hrun
      refine ⟨{ func := f, report := _ }, w₁, rfl, ?_, (if_pos hat).mpr hpasses, hfunc, haccount,
        hexhausted⟩
      rfl
    · cases h
  · next hat =>
    let start : Work := { func := f, report := {} }
    rw [if_neg hat]
    exact ⟨start, start, rfl, rfl, (if_neg hat).mpr rfl, rfl, rfl, rfl⟩

/-- **Where nothing can be done, a removal does nothing.** -/
theorem unflatten_of_settled (h : cfg.unflattensAt f.maturity = true → f.Settled cfg)
    (hnone : (f.unflatten cfg false).error? = none) : (f.unflatten cfg false).func = f ∧
      (f.unflatten cfg false).account.redirected = 0 ∧
      (f.unflatten cfg false).account.duplicated = 0 := by
  obtain ⟨w, w', rfl, hstart, hrun, hfunc, haccount, -⟩ := exists_runPasses hnone
  rw [hfunc, haccount]
  split at hrun
  · next hat =>
    have hsame := Removal.runPasses_of_settled (h hat) hrun
    rwa [hstart] at hsame
  · rw [hrun, hstart]
    exact ⟨rfl, rfl, rfl⟩

/-- **A removal that succeeds is a row of passes**, and they are what its record says. -/
theorem exists_passes (h : (f.unflatten cfg false).error? = none) : ∃ ts : List Tally,
    Passes cfg f ts (f.unflatten cfg false).func ∧
    (f.unflatten cfg false).account = Account.enter ⟨0, 0, 0, []⟩ ts ∧ ts.length ≤ cfg.maxPasses.toNat ∧
    (∀ t ∈ ts, t.copies ≤ cfg.maxDuplications.toNat) ∧
    ((f.unflatten cfg false).report.exhausted = "" →
      cfg.unflattensAt (f.unflatten cfg false).func.maturity = true →
      (f.unflatten cfg false).func.Settled cfg) := by
  obtain ⟨w, w', rfl, hstart, hrun, hfunc, haccount, hexhausted⟩ := exists_runPasses h
  rw [hfunc, haccount, hexhausted, ← hstart]
  split at hrun
  · obtain ⟨ts, hpasses, hents, hlen, hcopies, hsettled⟩ :=
      Removal.accounted_runPasses (Nat.add_comm 1 _) (by rw [hstart]; rfl) hrun
    exact ⟨ts, hpasses, hents, hlen, hcopies, fun hempty _ => hsettled hempty⟩
  · next hat =>
    rw [hrun, hstart]
    exact ⟨[], .refl _, rfl, Nat.zero_le _, nofun, fun _ h => absurd h hat⟩

/-- **The record of a removal is true, and its budgets are kept.**  Whatever the tunables, the removal of
a function in order is a row of passes.  They are as many as the record says and not more than allowed,
and so are the copies told of each; the record counts the edges moved and the blocks copied.  If no edge
was moved the function is what it was, and no block is copied unless an edge is moved.  If no budget was
used up, a second removal changes nothing and counts nothing. -/
theorem unflatten_ledger (hv : f.verify = .ok ()) (he : rebuildEdges f = .ok () f) (cfg : Config) :
    let u := f.unflatten cfg false
    u.error? = none ∧
    (∃ ts : List Tally, Passes cfg f ts u.func ∧
      u.report.passes = ts.length ∧ ts.length ≤ cfg.maxPasses.toNat ∧
      u.events.filterMap Event.copies? = ts.map Tally.copies ∧
      (∀ t ∈ ts, t.copies ≤ cfg.maxDuplications.toNat) ∧
      u.report.redirected = (Tally.total ts).moves ∧ u.report.duplicated = (Tally.total ts).copies) ∧
    (u.report.redirected = 0 → u.func = f) ∧
    (0 < u.report.duplicated → 0 < u.report.redirected) ∧
    (u.report.exhausted = "" →
      let v := u.func.unflatten cfg false
      v.error? = none ∧ v.func = u.func ∧ v.report.redirected = 0 ∧ v.report.duplicated = 0) := by
  intro u
  have hI := stageInvariant_wellFormed cfg
  obtain ⟨hnone, hwf⟩ := hI.unflatten ((verify_eq_ok_iff.mp hv).wellFormed he)
  obtain ⟨ts, hpasses, haccount, hlen, hcopies, hsettled⟩ := exists_passes hnone
  have hmoves : u.report.redirected = (Tally.total ts).moves :=
    (congrArg Account.redirected haccount).trans (Int.zero_add _)
  have hcopied : u.report.duplicated = (Tally.total ts).copies :=
    (congrArg Account.duplicated haccount).trans (Int.zero_add _)
  have hmade : u.report.passes = ts.length := (congrArg Account.passes haccount).trans (Int.zero_add _)
  refine ⟨hnone, ⟨ts, hpasses, hmade, hlen, congrArg Account.told haccount, hcopies, hmoves, hcopied⟩,
    fun hzero => ?_, fun hpos => ?_, fun hempty => ?_⟩
  · exact hpasses.eq_of_moves (by omega)
  · have := hpasses.copies_le
    omega
  · have hagain := (hI.unflatten hwf).1
    exact ⟨hagain, unflatten_of_settled (hsettled hempty) hagain⟩

/-- A dispatcher of one comparison, entered from a block that joins two known states and from one with an
unknown state. -/
def halfKnown : Func :=
  { function "half" [
      branching 0 .jz (reg 0) (lit 0) 4 5,
      branching 1 .jz (reg 1) (lit 0x5a5a5a5a) 3 2,
      block 2 [.ret (lit 9)],
      block 3 [.ret (lit 7)],
      block 4 [.mov (lit 0x5a5a5a5a) (reg 1), .goto 6],
      branching 5 .jz (reg 0) (lit 1) 7 8,
      block 6 [.call (symbol 0x1000 "puts") (reg 0) (reg 2), .goto 1],
      block 7 [.mov (lit 0x3c3c3c3c) (reg 1), .goto 6],
      block 8 [.mov (reg 0) (reg 1), .goto 1]] with
    maturity := .calls }

/-- The joined states are led past the dispatcher in one pass, and a second pass finds nothing to do. -/
theorem unflatten_ledger_halfKnown :
    let cfg : Config := { minInternalBlocks := 1, minExitBlocks := 2, minComparisonValues := 1 }
    let u := halfKnown.unflatten cfg false
    u.report.redirected = 2 ∧ u.report.duplicated = 1 ∧
    (∃ ts : List Tally, Passes cfg halfKnown ts u.func ∧ ts.length = 2 ∧ ∀ t ∈ ts, t.copies ≤ 20) ∧
    (u.func.unflatten cfg false).func = u.func := by
  intro cfg u
  obtain ⟨-, ⟨ts, hpasses, hmade, -, -, hcopies, -⟩, -, -, hagain⟩ :=
    unflatten_ledger (f := halfKnown) (by decide) rfl cfg
  have hcounts : u.report.passes = 2 ∧ u.report.redirected = 2 ∧ u.report.duplicated = 1 ∧
      u.report.exhausted = "" := by decide +kernel
  obtain ⟨htwo, hmoved, hcopied, hempty⟩ := hcounts
  refine ⟨hmoved, hcopied, ⟨ts, hpasses, ?_, hcopies⟩, (hagain hempty).2.1⟩
  have := hmade.symm.trans htwo
  omega

end Func

end Deflatten

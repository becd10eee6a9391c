import Deflatten.Proofs.Dispatch.Frame
import Deflatten.Proofs.Dispatch.Stages
import Mathlib.Logic.Relation

/-!
# Proofs/Dispatch/Upkeep — the stages keep any function in order

That a removal succeeds does not need the entry to be without predecessors: steps keep the shape of a
function whatever its entry, and note what they change (`Removal.Upkeep`).  So each pass that changes
something compacts, nothing unreachable is left between passes (`passInvariant_allReachable`), and the
last stage ends in a function all of which can be reached (`verify_advance`).
-/

namespace Deflatten

open Samples (block branching function lit reg)

namespace Removal

variable {cfg : Config} {d : Region} {father entry : Int} {fb : Block} {keep : Bool} {state : Var}
  {rs : List Route} {w w₀ : Work}

/-! ## Steps -/

/-- **The function is reshaped, and that it has changed is noted.** -/
structure Upkeep (w w' : Work) : Prop where
  reshapes : w.func.Reshapes w'.func
  /-- It is the same or has changed. -/
  noted : w'.func = w.func ∨ w'.changed = true
  /-- What is noted stays noted. -/
  mono : w.changed = true → w'.changed = true

theorem Upkeep.refl (hw : w.func.WellFormed) : Upkeep w w := ⟨.refl hw, .inl rfl, id⟩

theorem takeRoutes_upkeep (hw : Upkeep w₀ w) (S : Spares w₀.func father w.func rs)
    (hpassable : ∀ r ∈ rs, r.Passable w₀.func father) (hfb : w₀.func.block? father = some fb)
    (he : entry ∈ fb.exits) (hnodup : (rs.map Route.pred).Nodup) :
    Succeeds (takeRoutes cfg entry father keep rs) w fun _ w' => Upkeep w₀ w' := by
  refine succeeds_takeRoutes (S := fun w rs => Upkeep w₀ w ∧ Spares w₀.func father w.func rs ∧
      (∀ r ∈ rs, r.Passable w₀.func father) ∧ (rs.map Route.pred).Nodup) (fun h => h.1)
    (fun h _ _ => ⟨h.1.reshapes, h.1.noted, h.1.mono⟩) ?_ ?_ ⟨hw, S, hpassable, hnodup⟩
  · rintro w r - ⟨hw, S, hpassable, -⟩
    obtain ⟨b, hb, hc⟩ := Func.exists_of_content? S.father_eq hfb
    have hR := hpassable r (by simp)
    obtain ⟨g, hg, hdet⟩ := hw.reshapes.wellFormed.toShaped.exists_diverts hb
      (Block.exits_congr hc ▸ he) (hw.reshapes.exists_block? hR.target)
      fun s hs => hw.reshapes.exists_block? (hR.path s hs)
    exact ⟨g, hg, fun w' hfunc hch =>
      ⟨hfunc ▸ hw.reshapes.trans (hdet.reshapes hb), .inr hch, fun _ => hch⟩⟩
  · rintro w r rs ⟨hw, S, hpassable, hnodup⟩ -
    obtain ⟨h₁, h₂, h₃, cb, hdup, hred, hby, S', hsplit, hcb, -, hdet⟩ :=
      S.copy hw.reshapes hpassable hfb he hnodup
    have hre := (hw.reshapes.trans hsplit.reshapes).trans (hdet.reshapes hcb)
    exact ⟨h₁, h₂, h₃, hdup, hred, hby, fun w' hfunc hch _ =>
      ⟨⟨hfunc ▸ hre, .inr hch, fun _ => hch⟩, hfunc ▸ S', fun r' hr' => hpassable r' (by simp [hr']),
        (List.nodup_cons.mp hnodup).2⟩⟩

theorem splitFather_upkeep (hw : Upkeep w w) (hd : d.Rooted w.func)
    (hfb : w.func.block? father = some fb) (he : d.entrySerial ∈ fb.exits) :
    Succeeds (splitFather cfg d state father) w fun _ w' => Upkeep w w' := by
  have hf := hw.reshapes.wellFormed
  have hsame : ∀ {w' : Work}, w'.func = w.func → w'.changed = w.changed → Upkeep w w' :=
    fun hfunc hch => ⟨hfunc.symm ▸ hw.reshapes, .inl hfunc, fun h => hch.trans h⟩
  have hpreds : ∀ p ∈ fb.preds, w.func.Edge p father := fun p hp => (hf.mem_preds hfb p).mp hp
  obtain ⟨rs, hrs⟩ := exists_routesThrough cfg state hf.toVerified hd hfb hpreds
  refine concludes_splitFather hfb hrs (succeeds_countUnresolved.weaken fun _ _ h => hsame h.1 h.2)
    fun w' hfunc hch => ?_
  have hnodup := (hf.nodup_preds hfb).sublist (sublist_routesThrough hrs)
  exact takeRoutes_upkeep (hsame hfunc hch) ⟨by rw [hfunc], fun _ _ => by rw [hfunc]⟩
    (fun r hr => Route.passable_of_mem hf.toVerified hd hpreds hrs hr) hfb he hnodup

/-- **Steps keep the function in order and note what they change.** -/
theorem moves_upkeep (cfg : Config) : Moves cfg Upkeep where
  refl := fun hw => .refl hw.reshapes.wellFormed
  trans := by
    intro w₁ w₂ w₃ h₁₂ h₂₃
    refine ⟨h₁₂.reshapes.trans h₂₃.reshapes, ?_, fun h => h₂₃.mono (h₁₂.mono h)⟩
    rcases h₂₃.noted with hsame | hch
    · exact h₁₂.noted.imp hsame.trans h₂₃.mono
    · exact .inr hch
  congr := fun hw hfunc hch => ⟨hfunc ▸ hw.reshapes, by rw [hfunc, hch]; exact hw.noted,
    fun h => hch ▸ hw.mono h⟩
  wellFormed := fun hw => hw.reshapes.wellFormed
  length_le := fun hw => hw.reshapes.length_le
  rooted := fun hw hd => hd.reshapes hw.reshapes
  lead := by
    intro w d state father b v target path hw hd hst hb he hv hres
    have hf := hw.reshapes.wellFormed.toShaped
    obtain ⟨state', -, hwalk⟩ := Region.walks_of_resolvePath? hres
    obtain ⟨-, t, -, ht⟩ := hd.exists_target hf hwalk
    obtain ⟨g, hg, hdet⟩ := hf.exists_diverts hb he ⟨t, ht⟩ fun x hx => (hwalk.mem x hx).2
    exact (succeeds_bypass hg).weaken fun _ w' ⟨hfunc, hch, _⟩ =>
      ⟨hfunc ▸ hdet.reshapes hb, .inr hch, fun _ => hch⟩
  split := fun hw hd _ hb he => splitFather_upkeep hw hd hb he

end Removal

namespace Func

variable {f g : Func} {cfg : Config}

/-! ## Reachable blocks -/

/-- Edges lead from the entry to every block. -/
def AllReachable (f : Func) : Prop := ∀ b ∈ f.blocks, Relation.ReflTransGen f.Edge 0 b.serial

/-- Edges lead to whatever was reached, under its new serial. -/
theorem Compacts.reflTransGen (h : f.Compacts g) (hf : f.Verified) {s : Int}
    (hs : s ∈ f.visited) : Relation.ReflTransGen g.Edge 0 (f.renumber s) := by
  refine (forall_visited hf
    (P := fun s => s ∈ f.visited ∧ Relation.ReflTransGen g.Edge 0 (f.renumber s))
    (fun hne => ⟨(visited_closed hne).1, by rw [renumber_zero hf hne]⟩) ?_ hs).2
  rintro s t ⟨hs, hpath⟩ hst
  obtain ⟨b, hb, ht⟩ := id hst
  obtain ⟨b', hb', hmem, hr⟩ := h.exists_block hf hs hb
  exact ⟨mem_visited_of_edge hf hs hst, hpath.tail ⟨b', hb',
    (hr.mem_exits f.renumber_noBlock (renumber_ne_noBlock hf hmem)).mpr ⟨t, ht, rfl⟩⟩⟩

/-- **What compaction leaves can be reached.** -/
theorem Compacts.allReachable (h : f.Compacts g) (hf : f.Verified) : g.AllReachable := by
  intro b' hb'
  obtain ⟨i, hi⟩ := List.mem_iff_getElem?.mp hb'
  have hb' : g.block? i = some b' := (g.block?_natCast i).trans hi
  have hlt := (lt_of_block? hb').2
  rw [h.length_eq] at hlt
  obtain ⟨b, hb⟩ : ∃ b, f.kept[i]? = some b := ⟨_, List.getElem?_eq_getElem (by omega)⟩
  rw [h.wellFormed.placed hb', ← renumber_of_kept hf.toShaped hb]
  exact h.reflTransGen hf (block?_of_mem_kept hf.toShaped (List.mem_of_getElem? hb)).2

/-- **Between passes all blocks can be reached.** -/
theorem passInvariant_allReachable (cfg : Config) :
    Removal.PassInvariant cfg (fun f => f.WellFormed ∧ f.AllReachable) WellFormed where
  verified := fun h => h.1.toVerified
  verified_within := fun h => h.toVerified
  bypass := by
    intro pass w hw _ hch _
    have hrooted := (collect_spec hw.1.toVerified cfg).2
    refine ((Removal.moves_upkeep cfg).bypassRegions (Removal.Upkeep.refl hw.1) hrooted).weaken
      fun _ w' hw' => ⟨hw'.reshapes.wellFormed, fun hch' => ?_⟩
    rcases hw'.noted with hsame | hch'
    · exact hsame ▸ hw
    · simp_all
  compact := fun h hc => ⟨hc.wellFormed, hc.allReachable h.toVerified⟩

/-- **Every stage keeps functions in order.** -/
theorem stageInvariant_wellFormed (cfg : Config) : StageInvariant cfg WellFormed where
  verified := fun h => h.toVerified
  bypass := fun h hds => ((Removal.moves_upkeep cfg).bypassRegions (Removal.Upkeep.refl h)
    hds).weaken fun _ _ hw => hw.reshapes.wellFormed
  compact := fun _ hc => hc.wellFormed
  swept := WellFormed.swept
  threads := fun h _ hor => hor.elim (fun heq => heq ▸ h) id
  withMaturity := fun m h => h.withMaturity m

/-! ## Arrival -/

/-- **A stage hands on a function in order, at that stage**, all of which can be reached once calls
are resolved. -/
theorem exists_stage (cfg : Config) (m : Maturity) (hf : f.WellFormed) :
    ∃ stage g, cleanUp m { f with maturity := m } = .ok stage g ∧
      (g.unflatten cfg false).error? = none ∧ (g.handOn cfg m).WellFormed ∧
      (g.handOn cfg m).maturity = m ∧
      (Maturity.calls.code ≤ m.code → (g.handOn cfg m).AllReachable) := by
  have hI := stageInvariant_wellFormed cfg
  obtain ⟨stage, g, hrun, hg, hcompacts⟩ := succeeds_iff.mp (hI.cleanUp m (hf.withMaturity m))
  obtain ⟨hnone, hun⟩ := hI.unflatten hg
  have hP : Insn.Portable fun _ => True := ⟨fun _ => trivial, fun _ _ => trivial⟩
  have hm : g.Carries m fun _ => True := ⟨maturity_cleanUp hrun, fun _ _ _ _ => trivial⟩
  have hreach : Maturity.calls.code ≤ m.code → g.AllReachable := fun hle => by
    obtain ⟨h, hh, hc⟩ := hcompacts hle
    exact hc.allReachable hh.toVerified
  refine ⟨stage, g, hrun, hnone, ?_⟩
  unfold handOn
  split
  · exact ⟨hun, (hm.unflatten hP hnone).maturity_eq, fun hle =>
      ((passInvariant_allReachable cfg).unflatten ⟨hg, hreach hle⟩).2.2⟩
  · exact ⟨hg, hm.maturity_eq, hreach⟩

theorem arrives_advanceThrough (cfg : Config) {ms : List Maturity} {last : Maturity}
    (hlast : ms.getLast? = some last) (hcalls : Maturity.calls.code ≤ last.code)
    (hf : f.WellFormed) : (advanceThrough cfg false ms f).func.maturity = last ∧
      (advanceThrough cfg false ms f).func.AllReachable := by
  induction ms generalizing f with
  | nil => cases hlast
  | cons m ms ih =>
    obtain ⟨stage, g, hrun, hnone, hwf, hm, hreach⟩ := exists_stage cfg m hf
    rw [(advanceThrough_cons ms hrun hnone).2]
    cases ms with
    | nil =>
      obtain rfl : m = last := by simpa using hlast
      exact ⟨hm, hreach hcalls⟩
    | cons m' ms => exact ih (by simpa using hlast) hwf

/-- **The stages never fail, and lead to the last one.**  Whatever the tunables and the stage that a
function in order starts from, every serial that is looked up on the way is that of a block, for one
that is not would be an error; and the function afterwards is in order, at the last stage, and edges
lead from the entry to every one of its blocks. -/
theorem verify_advance (hv : f.verify = .ok ()) (he : rebuildEdges f = .ok () f) (cfg : Config) :
    (advance cfg false f).1.error? = none ∧ (advance cfg false f).1.func.verify = .ok () ∧
      (advance cfg false f).1.func.maturity = .glbopt2 ∧
      ∀ b ∈ (advance cfg false f).1.func.blocks,
        Relation.ReflTransGen (advance cfg false f).1.func.Edge 0 b.serial := by
  have hf := (verify_eq_ok_iff.mp hv).wellFormed he
  obtain ⟨hnone, hwf⟩ := (stageInvariant_wellFormed cfg).advance hf
  have hlast : (Maturity.all.filter fun m => f.maturity.code ≤ m.code).getLast? =
      some .glbopt2 := by
    cases f.maturity <;> rfl
  obtain ⟨hm, hreach⟩ := arrives_advanceThrough cfg hlast (by decide) hf
  exact ⟨hnone, verify_eq_ok_iff.mpr hwf.toVerified, hm, hreach⟩

/-- A switch on a constant inside a loop that leads back to the entry. -/
def revolving : Func :=
  { function "revolving" [
      block 0 [.mov (lit 0x3c3c3c3c) (reg 1), .goto 1],
      branching 1 .jz (reg 1) (lit 0x5a5a5a5a) 3 2,
      branching 2 .jz (reg 1) (lit 0x3c3c3c3c) 5 4,
      block 3 [.ret (lit 7)],
      block 4 [.goto 4],
      block 5 [.mov (lit 0x5a5a5a5a) (reg 1), .goto 0],
      block 6 [.goto 1]] with
    maturity := .calls }

theorem verify_advance_revolving :
    (advance {} false revolving).1.error? = none ∧
      (advance {} false revolving).1.func.verify = .ok () ∧
      (advance {} false revolving).1.func.maturity = .glbopt2 ∧
      ∀ b ∈ (advance {} false revolving).1.func.blocks,
        Relation.ReflTransGen (advance {} false revolving).1.func.Edge 0 b.serial :=
  verify_advance (by decide) rfl {}

end Func

end Deflatten

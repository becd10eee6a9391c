import Deflatten.Proofs.Arm64.Actions
import Deflatten.Proofs.Arm64.Operations

/-!
# Proofs/Arm64/Order — actions that suit the block they meet

Each action suits the block that it meets (`Lifting.suits_log`): a comparison that is recorded can be
kept, and while it is pending nothing is appended that writes where comparisons are saved or that stops.
So what is known of a block stays in order while it is lifted (`Lifting.Orderly.of_insts`).
-/

namespace Deflatten

namespace Lifting

variable {o : LiftOptions} {s t : Lifting} {a : Action} {as bs : List Action} {i : Insn} {x : Inst}
  {size : Int}

/-- Where no comparison is pending, an instruction is appended alone. -/
theorem emit_of_flags?_none (h : s.flags? = none) (i : Insn) :
    (s.emit i).code = s.code ++ [i] ∧ (s.emit i).flags? = none := by
  cases hd : i.def? with
  | none =>
    rw [emit_of_def?_none hd]
    exact ⟨rfl, h⟩
  | some v =>
    have hclobber : s.clobber v = s.forget v := by
      rw [clobber, saveFlags, flags?_forget, h]
    rw [emit_of_def? hd, hclobber, code_push, code_forget]
    exact ⟨rfl, (flags?_forget s v).trans h⟩

/-! ## Actions that suit a block -/

/-- **What an action takes for granted** of the block that it meets. -/
def Admits (s : Lifting) : Action → Prop
  | .record c => c.Kept
  | .append i => s.flags? = none ∨ SparesCompare i
  | .hold _ src => src.kind = .imm ∨ src.kind = .stack
  | .drop | .release => True

/-- An action that every block admits. -/
def Action.Safe (a : Action) : Prop := ∀ s : Lifting, s.Admits a

/-- **Each action meets a block that admits it.** -/
def Suits : Lifting → List Action → Prop
  | _, [] => True
  | s, a :: as => s.Admits a ∧ (s.act a).Suits as

theorem suits_append : s.Suits (as ++ bs) ↔ s.Suits as ∧ (s.replay as).Suits bs := by
  induction as generalizing s with
  | nil => exact ⟨fun h => ⟨trivial, h⟩, And.right⟩
  | cons a as ih => simp only [List.cons_append, Suits, ih, replay_cons, and_assoc]

theorem suits_of_safe (h : ∀ a ∈ as, a.Safe) : s.Suits as := by
  induction as generalizing s with
  | nil => trivial
  | cons a as ih => exact ⟨h a (.head _) s, ih fun b hb => h b (.tail _ hb)⟩

theorem SparesCompare.safe (h : SparesCompare i) : (Action.append i).Safe := fun _ => .inr h

/-- A source has a value of its size and reads what is visible. -/
theorem Source.isSource {b : Operand} (hb : s.Source o size b) (h : s.Orderly) :
    b.IsSource ∧ b.size = size := by
  induction hb with
  | imm v => exact ⟨Operand.isSource_imm v size, rfl⟩
  | register hn => exact ⟨Operand.isSource_register hn size, rfl⟩
  | read hn => exact h.isSource_read o hn size
  | unary hop hun _ ih => exact ⟨ih.1.derived hop (Operand.fills_empty hun), ih.2⟩
  | binary hop hun _ _ iha ihb => exact ⟨iha.1.derived hop (Operand.fills_of hun ihb.1), iha.2⟩

/-- **What a form can log suits every block.** -/
theorem Logged.safe {form : Form} (ha : s.Logged o form a) (h : s.Orderly) : a.Safe := by
  cases ha with
  | record _ _ hl hr => exact fun _ => Compare.kept_of_isSource (hl.isSource h).1 (hr.isSource h).1
  | compute hop _ _ hrd => exact (sparesCompare_register (Opcode.goesOn_of_isData hop) _ _ hrd _).safe
  | @test _ equal _ _ _ hrd =>
    exact (sparesCompare_register (by cases equal <;> rfl) _ _ hrd _).safe
  | note _ hk | slot _ hk => exact fun _ => hk
  | call => exact (sparesCompare_register rfl _ _ (show 0 < 32 by decide) 8).safe
  | release | drop => exact fun _ => trivial
  | transfer _ hi => exact hi.safe

/-- Where an instruction is not modelled, the comparison goes before anything is appended. -/
theorem suits_skipLog (h : skipLog o x = .ok as) : s.Suits as := by
  unfold skipLog at h
  split at h
  · cases h
  · split at h
    · cases h
      exact ⟨trivial, .inl rfl, trivial⟩
    · cases h
      exact ⟨trivial, trivial⟩

/-! ## Blocks that actions leave behind -/

theorem Orderly.clobber (h : s.Orderly) (v : Var) : (s.clobber v).Orderly := by
  have hforget : (s.forget v).Orderly :=
    ⟨fun hx => h.simple (bindings_forget s v _ hx), fun hc => h.kept (flags?_forget s v ▸ hc)⟩
  unfold Lifting.clobber saveFlags
  split
  · next c hc =>
    split
    · refine ⟨hforget.simple, fun hc' => ?_⟩
      exact Option.some.inj hc' ▸ (kept_savedCompare (hforget.kept hc)).1
    · exact hforget
  · exact hforget

theorem Orderly.emit (h : s.Orderly) (i : Insn) : (s.emit i).Orderly := by
  have hfold : ∀ (vs : List Var) {s : Lifting}, s.Orderly → (vs.foldl Lifting.clobber s).Orderly := by
    intro vs
    induction vs with
    | nil => exact id
    | cons v vs ih => exact fun h => ih (h.clobber v)
  exact ⟨(hfold i.defs h).simple, (hfold i.defs h).kept⟩

theorem mem_define {k : Holdings} {n : Int} {x y : Operand} {m : Int}
    (h : (n, x) ∈ (k.define m y).bindings) : x = y ∨ (n, x) ∈ k.bindings := by
  unfold Holdings.define at h
  split at h
  · exact .inr h
  split at h
  · exact .inr (List.mem_filter.mp h).1
  · rcases List.mem_cons.mp h with heq | h
    · cases heq
      exact .inl rfl
    · exact .inr (List.mem_filter.mp h).1

theorem Orderly.act (h : s.Orderly) (ha : s.Admits a) : (s.act a).Orderly := by
  cases a with
  | record c => exact ⟨h.simple, fun hc => Option.some.inj hc ▸ ha⟩
  | drop => exact ⟨h.simple, nofun⟩
  | append i => exact h.emit i
  | hold rd src => exact ⟨fun hx => (mem_define hx).elim (· ▸ ha) h.simple, h.kept⟩
  | release => exact ⟨fun hx => h.simple (List.mem_filter.mp hx).1, h.kept⟩

theorem Orderly.replay (h : s.Orderly) (hs : s.Suits as) : (s.replay as).Orderly := by
  induction as generalizing s with
  | nil => exact h
  | cons a as ih => exact ih (h.act hs.1) hs.2

theorem orderly_empty : ({} : Lifting).Orderly := ⟨nofun, nofun⟩

/-- **The actions of an instruction suit an orderly block.** -/
theorem suits_log (h : s.Orderly) (hx : s.log o x = .ok as) : s.Suits as := by
  obtain ⟨bs, cs, rfl, hbs, hcs⟩ := exists_append_of_log hx
  refine suits_append.mpr ⟨?_, suits_of_safe fun a ha => (hcs a ha).safe h⟩
  rcases hbs with rfl | hbs
  · trivial
  · exact suits_skipLog hbs

theorem Orderly.of_inst (h : s.Orderly) (hx : s.inst o x = .ok t) : t.Orderly := by
  obtain ⟨as, hlog, rfl⟩ := exists_log_of_inst hx
  exact h.replay (suits_log h hlog)

theorem Orderly.of_insts {xs : List Inst} (h : s.Orderly) (hx : s.insts o xs = .ok t) : t.Orderly := by
  induction xs generalizing s with
  | nil =>
    cases hx
    exact h
  | cons x xs ih =>
    rw [insts] at hx
    split at hx
    · next s₁ hs₁ => exact ih (h.of_inst hs₁) hx
    · cases hx

/-- **The actions of instructions in order suit an orderly block.** -/
theorem suits_logAll {xs : List Inst} (h : s.Orderly) (hx : s.logAll o xs = .ok as) : s.Suits as := by
  induction xs generalizing s as with
  | nil =>
    cases hx
    trivial
  | cons x xs ih =>
    rw [logAll] at hx
    cases hlog : s.log o x with
    | error c =>
      rw [hlog] at hx
      cases hx
    | ok bs =>
      have hsuits := suits_log h hlog
      simp only [hlog] at hx
      cases hrest : (s.replay bs).logAll o xs with
      | error c =>
        rw [hrest] at hx
        cases hx
      | ok cs =>
        rw [hrest] at hx
        cases hx
        exact suits_append.mpr ⟨hsuits, ih (h.replay hsuits) hrest⟩

end Lifting

end Deflatten

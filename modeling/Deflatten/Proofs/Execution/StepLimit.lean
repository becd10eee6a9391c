import Deflatten.Flattening.Samples
import Deflatten.Proofs.Execution.Lockstep

/-!
# Proofs/Execution/StepLimit — a step limit only cuts runs short

A pass through instructions takes a number of steps of its own, whatever its budget: with more it
leaves the rest over, with fewer it is exhausted (`Machine.Spends`).  So does a run, pass after pass
(`Func.Takes`).  A run that is not cut tells how many steps it takes, and with that how every other
limit ends it (`Func.run_limits`): as it ended, or cut one step past the limit after some of its
calls.
-/

namespace Deflatten

open Samples (sum)

/-! ## Passes under other budgets -/

/-- The passage with so many steps left over. -/
def Passage.withLeft (left : Nat) : Passage → Passage
  | through m _ next => through m left next
  | ended m _ ret => ended m left ret
  | undefined m _ => undefined m left
  | exhausted m => exhausted m

@[simp] theorem Passage.machine_withLeft (p : Passage) (left : Nat) :
    (p.withLeft left).machine = p.machine := by
  cases p <;> rfl

namespace Machine

variable {m m' : Machine} {next next' : Int} {i : Insn} {is : List Insn} {n : Nat} {p : Passage}

/-- **A pass takes `n` steps to come to `p`**: with more it has the rest left over, and with fewer
it is exhausted. -/
structure Spends (m : Machine) (next : Int) (is : List Insn) (n : Nat) (p : Passage) : Prop where
  /-- With `n` steps and more. -/
  within : ∀ left, m.pass (n + left) next is = p.withLeft left
  /-- With fewer than `n` steps. -/
  beyond : ∀ left < n, ∃ m', m.pass left next is = .exhausted m'

/-- An instruction that the pass goes on behind takes one step more. -/
theorem Spends.cons (h : m'.Spends next' is n p)
    (hstep : ∀ left, m.pass (left + 1) next (i :: is) = m'.pass left next' is) :
    m.Spends next (i :: is) (n + 1) p where
  within left := by rw [Nat.add_right_comm, hstep, h.within]
  beyond left hlt := by
    cases left with
    | zero => exact ⟨m, rfl⟩
    | succ left => rw [hstep]; exact h.beyond left (by omega)

/-- An instruction that ends the pass takes one step. -/
theorem Spends.last (hstep : ∀ left, m.pass (left + 1) next (i :: is) = p.withLeft left) :
    m.Spends next (i :: is) 1 p where
  within left := by rw [Nat.add_comm, hstep]
  beyond left hlt := by
    obtain rfl : left = 0 := by omega
    exact ⟨m, rfl⟩

/-- A pass that is exhausted made some of the calls. -/
theorem Spends.calls_prefix {left : Nat} (h : m.Spends next is n p) (hlt : left < n)
    (hx : m.pass left next is = .exhausted m') : m'.calls <+: p.machine.calls := by
  have hmono := m.calls_pass_mono (Nat.le_of_lt hlt) next is
  have hfull := h.within 0
  rw [Nat.add_zero] at hfull
  rw [hx, hfull, Passage.machine_withLeft] at hmono
  exact hmono

/-- **A pass that is not exhausted takes a number of steps of its own.** -/
theorem exists_spends (m : Machine) (left : Nat) (next : Int) (is : List Insn)
    (h : ∀ m', m.pass left next is ≠ .exhausted m') :
    ∃ n ≤ left, m.Spends next is n (m.pass left next is) := by
  induction is generalizing m left next with
  | nil => exact ⟨0, Nat.zero_le _, fun k => by simp [pass, Passage.withLeft], by simp⟩
  | cons i is ih =>
    cases left with
    | zero => exact absurd rfl (h m)
    | succ left =>
      have hgoes : ∀ (m' : Machine) (next' : Int),
          (∀ k, m.pass (k + 1) next (i :: is) = m'.pass k next' is) →
          ∃ n ≤ left + 1, m.Spends next (i :: is) n (m.pass (left + 1) next (i :: is)) := by
        intro m' next' hstep
        rw [hstep] at h ⊢
        obtain ⟨n, hn, hspends⟩ := ih _ _ _ h
        exact ⟨n + 1, Nat.succ_le_succ hn, hspends.cons hstep⟩
      cases hs : m.step i with
      | next m' => exact hgoes m' next fun k => by simp only [pass, hs]
      | jump target => exact hgoes m target fun k => by simp only [pass, hs]
      | finish ret => exact ⟨1, by omega, .last fun k => by simp only [pass, hs, Passage.withLeft]⟩
      | undefined => exact ⟨1, by omega, .last fun k => by simp only [pass, hs, Passage.withLeft]⟩

end Machine

/-! ## Runs under other limits -/

namespace Ending

/-- **A run that is stopped by its limit.** -/
def Cut (e : Ending) : Prop := ∃ limit fn blk, e.error? = some (.stepLimit limit fn blk)

/-- The ending after so many steps. -/
def after (e : Ending) (steps : Nat) : Ending := { e with trace := { e.trace with steps := steps } }

end Ending

namespace Func

variable {f : Func} {m m' : Machine} {s t : Int} {b b' : Block} {r : Ready} {n k : Nat} {e : Ending}
  {p : Passage}

/-- **A run takes `n` steps to its ending `e`**, whatever its limit: with more it ends so, and with
fewer it is cut one step past the limit, when it has made some of the calls. -/
structure Takes (f : Func) (m : Machine) (s : Int) (b : Block) (n : Nat) (e : Ending) : Prop where
  /-- With `n` steps and more. -/
  within : ∀ (limit : Int) {left : Nat}, left ≤ limit.toNat → n ≤ left →
    f.runFrom limit left m s b = e.after (limit.toNat - left + n)
  /-- With fewer than `n` steps. -/
  beyond : ∀ (limit : Int) {left : Nat}, left < n → ∃ blk calls, calls <+: e.trace.calls ∧
    f.runFrom limit left m s b =
      ⟨{ calls := calls, steps := limit.toNat + 1 }, some (.stepLimit limit f.name blk)⟩

/-- A run that finds no block with instructions takes no step. -/
theorem Takes.of_skipEmpty {err : RunError} (h : f.skipEmpty f.blocks.length s b = .error err)
    (limit : Int) (left : Nat) (m : Machine) : f.Takes m s b 0 (f.runFrom limit left m s b) where
  within _ _ _ _ := by
    rw [runFrom_of_skipEmpty h, runFrom_of_skipEmpty h]
    rfl
  beyond _ _ hlt := absurd hlt (Nat.not_lt_zero _)

/-- A run that ends with a pass takes the steps of the pass. -/
theorem Takes.of_stops (h : f.skipEmpty f.blocks.length s b = .ok r)
    (hp : m.Spends r.next (r.first :: r.rest) n p)
    (he : ∀ limit left, f.conclude limit r.cur (p.withLeft left) = e.after (limit.toNat - left))
    (hcalls : e.trace.calls = p.machine.calls) : f.Takes m s b n e where
  within limit left hle hn := by
    obtain ⟨k, rfl⟩ := Nat.exists_eq_add_of_le hn
    rw [runFrom_of_ready h, hp.within, he]
    congr 1
    omega
  beyond limit left hlt := by
    obtain ⟨m', hx⟩ := hp.beyond left hlt
    refine ⟨r.cur, m'.calls, hcalls ▸ hp.calls_prefix hlt hx, ?_⟩
    rw [runFrom_of_ready h, hx, conclude]

theorem Takes.calls_prefix (h : f.Takes m s b n e) : m.calls <+: e.trace.calls := by
  have hrun := h.within n (Nat.le_refl n) (Nat.le_refl n)
  simpa [hrun, Ending.after] using f.calls_prefix_runFrom n n m s b

/-- A run that goes on behind a pass takes the steps of both. -/
theorem Takes.of_goes {left : Nat} (h : f.skipEmpty f.blocks.length s b = .ok r)
    (hp : m.Spends r.next (r.first :: r.rest) n (.through m' left t))
    (hfol : f.follow r.cur t = .ok b') (hrest : f.Takes m' t b' k e) : f.Takes m s b (n + k) e where
  within limit left hle hn := by
    obtain ⟨j, rfl⟩ := Nat.exists_eq_add_of_le (Nat.le_of_add_right_le hn)
    rw [runFrom_of_ready h, hp.within]
    simp only [Passage.withLeft, conclude, hfol]
    rw [hrest.within limit (by omega) (by omega)]
    congr 1
    omega
  beyond limit left hlt := by
    rw [runFrom_of_ready h]
    rcases Nat.lt_or_ge left n with hlt' | hge
    · obtain ⟨m₁, hx⟩ := hp.beyond left hlt'
      refine ⟨r.cur, m₁.calls, (hp.calls_prefix hlt' hx).trans hrest.calls_prefix, ?_⟩
      rw [hx, conclude]
    · obtain ⟨j, rfl⟩ := Nat.exists_eq_add_of_le hge
      rw [hp.within]
      simp only [Passage.withLeft, conclude, hfol]
      exact hrest.beyond limit (by omega)

/-- **A run that is not cut takes a number of steps of its own.** -/
theorem exists_takes {limit : Int} {left : Nat} (hcut : ¬ (f.runFrom limit left m s b).Cut) :
    ∃ n ≤ left, f.Takes m s b n (f.runFrom limit left m s b) := by
  induction left using Nat.strongRecOn generalizing m s b with
  | ind left ih =>
    cases hskip : f.skipEmpty f.blocks.length s b with
    | error err => exact ⟨0, Nat.zero_le _, .of_skipEmpty hskip limit left m⟩
    | ok r =>
      rw [runFrom_of_ready hskip] at hcut ⊢
      obtain ⟨n, hn, hspends⟩ := m.exists_spends left r.next (r.first :: r.rest)
        fun m' hx => hcut ⟨_, _, _, by rw [hx, conclude]⟩
      cases hp : m.pass left r.next (r.first :: r.rest) with
      | ended m' left' ret =>
        rw [hp] at hspends
        exact ⟨n, hn, .of_stops hskip hspends (fun _ _ => rfl) rfl⟩
      | undefined m' left' =>
        rw [hp] at hspends
        exact ⟨n, hn, .of_stops hskip hspends (fun _ _ => rfl) rfl⟩
      | exhausted m' =>
        rw [hp] at hcut
        exact absurd ⟨_, _, _, rfl⟩ hcut
      | through m' left' t =>
        rw [hp] at hcut hspends
        cases hfol : f.follow r.cur t with
        | error err =>
          refine ⟨n, hn, .of_stops hskip hspends (fun _ _ => ?_) ?_⟩
          · simp only [Passage.withLeft, conclude, hfol, Ending.after]
          · simp only [conclude, hfol, Passage.machine]
        | ok b' =>
          simp only [conclude, hfol] at hcut ⊢
          obtain ⟨k, hk, hrest⟩ := ih left' (Machine.left_lt_of_pass hp) hcut
          have hleft : left' = left - n := by
            have hwithin := hspends.within (left - n)
            rw [Nat.add_sub_cancel' hn, hp] at hwithin
            exact (Passage.through.inj hwithin).2.1
          exact ⟨n + k, by omega, .of_goes hskip hspends hfol hrest⟩

/-- **A step limit only cuts a run short.**  A run that is not cut ends the same way under every
limit that allows its steps; under any other it is cut, one step past the limit, when it has made
the first of its calls. -/
theorem run_limits {inputs : Env} {limit : Int} (h : f.run inputs limit = .ok e) (hcut : ¬ e.Cut) :
    (∀ limit' : Int, e.trace.steps ≤ limit' → f.run inputs limit' = .ok e) ∧
      ∀ limit' : Int, 0 ≤ limit' → limit' < e.trace.steps →
        ∃ e' blk, f.run inputs limit' = .ok e' ∧ e'.error? = some (.stepLimit limit' f.name blk) ∧
          e'.trace.steps = limit' + 1 ∧ e'.trace.calls <+: e.trace.calls := by
  unfold run at h ⊢
  cases hb : f.block? 0 with
  | none => simp [hb] at h
  | some b =>
    simp only [hb, Except.ok.injEq] at h ⊢
    subst h
    obtain ⟨n, hn, htakes⟩ := exists_takes hcut
    -- the steps that the run counts are those it takes
    have hself := htakes.within limit (Nat.le_refl _) hn
    rw [Nat.sub_self, Nat.zero_add] at hself
    have hsteps : (f.runFrom limit limit.toNat { vars := inputs } 0 b).trace.steps = n :=
      congrArg (fun e : Ending => e.trace.steps) hself
    rw [hsteps]
    refine ⟨fun limit' hle => ?_, fun limit' hpos hlt => ?_⟩
    · rw [htakes.within limit' (Nat.le_refl _) (by omega), Nat.sub_self, Nat.zero_add, ← hself]
    · obtain ⟨blk, calls, hcalls, hrun⟩ := htakes.beyond limit' (show limit'.toNat < n by omega)
      refine ⟨_, blk, rfl, ?_, ?_, ?_⟩
      · rw [hrun]
      · rw [hrun]
        simp only
        omega
      · rw [hrun]
        exact hcalls

theorem run_limits_sum : sum.verify = .ok () ∧
    let inputs : Env := .ofList [(.reg 0, 3)]
    let e : Ending :=
      ⟨{ ret := 3, calls := [⟨"tick", 1⟩, ⟨"tick", 2⟩, ⟨"tick", 3⟩], steps := 19 }, none⟩
    sum.run inputs 100 = .ok e ∧ ¬ e.Cut ∧
      (∀ limit : Int, 19 ≤ limit → sum.run inputs limit = .ok e) ∧
      ∃ e' blk, sum.run inputs 18 = .ok e' ∧ e'.error? = some (.stepLimit 18 "sum" blk) ∧
        e'.trace.steps = 19 ∧ e'.trace.calls <+: e.trace.calls := by
  have hrun : sum.run (.ofList [(.reg 0, 3)]) 100 =
      .ok ⟨{ ret := 3, calls := [⟨"tick", 1⟩, ⟨"tick", 2⟩, ⟨"tick", 3⟩], steps := 19 }, none⟩ := by
    decide +kernel
  have hcut : ¬ Ending.Cut
      ⟨{ ret := 3, calls := [⟨"tick", 1⟩, ⟨"tick", 2⟩, ⟨"tick", 3⟩], steps := 19 }, none⟩ := by
    simp [Ending.Cut]
  obtain ⟨hmore, hfewer⟩ := run_limits hrun hcut
  obtain ⟨e', blk, hrun', herr, hsteps, hcalls⟩ := hfewer 18 (by decide) (by decide)
  exact ⟨by decide, hrun, hcut, hmore, e', blk, hrun', herr, by omega, hcalls⟩

end Func

end Deflatten

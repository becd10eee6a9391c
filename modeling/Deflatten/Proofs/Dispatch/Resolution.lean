import Deflatten.Dispatch.Unflatten
import Deflatten.Proofs.Editing.Outcomes
import Deflatten.Proofs.Editing.Shape
import Deflatten.Proofs.Execution.Knowledge

/-!
# Proofs/Dispatch/Resolution — following a dispatcher is executing it

`Region.Walks` is the way that `Region.walk?` follows, block by block.  An execution that enters with
the environment's values goes the same way: it arrives where the walk ends after the instructions the
walk carries, or stops at one of them that is undefined (`Walks.stands`).
-/

namespace Deflatten

theorem Block.mem_exits_of_choose? {b : Block} {e : Env} {s : Int} (h : b.choose? e = some s) :
    s ∈ b.exits := by
  unfold choose? at h
  cases ht : b.terminator? with
  | none =>
    simp only [ht] at h
    split at h
    · cases h
    · next hn =>
      obtain rfl := Option.some.inj h
      simp [exits_none ht, hn]
  | some t =>
    simp only [ht] at h
    split at h
    · next hg => simp [exits_goto ht hg, Option.some.inj h]
    · split at h
      · next hc =>
        simp only [Option.pure_def, Option.bind_eq_bind, Option.bind_eq_some_iff] at h
        obtain ⟨l, -, r, -, taken, -, h⟩ := h
        obtain rfl := Option.some.inj h
        rw [mem_exits_conditional ht hc]
        cases taken <;> simp
      · cases h

/-- A block that the environment decides is visited to that end. -/
theorem Block.visit_of_choose? {b : Block} {n : Nat} {e : Env} {m m' : Machine} {s : Int}
    (hb : b.Fits n) (he : e.Holds m) (hm : m.perform b.body = .done m')
    (hc : b.choose? (b.execBody e) = some s) : b.visit m = .goes m' b.insns.length s := by
  have hs : s ≠ noBlock := fun hs => hb.noBlock_not_mem (hs ▸ mem_exits_of_choose? hc)
  exact visit_eq_goes.mpr ⟨hm, leave_of_choose? (holds_execBody he hb.plain hm) hc, hs, rfl⟩

namespace Func

variable {f g : Func} {s t : Int} {q : List Int}

/-- **Performing `is` and going on to `t` stands for executing from `s`**: the execution comes to `t`
with the machine that `is` leaves, and in more steps, or both stop at an undefined value. -/
def Stands (f : Func) (s : Int) (is : List Insn) (t : Int) (m : Machine) : Prop :=
  (∃ m' k n, m.perform is = .done m' ∧ f.Reaches m s k n m' t ∧ is.length < n) ∨
    (∀ m', m.perform is ≠ .done m') ∧ ∃ k n cs, f.HaltsIn k m s n .undefined cs

/-- The instructions of the blocks on a path, terminators included. -/
def pathLength (f : Func) (path : List Int) : Nat :=
  (path.flatMap fun s => (f.block? s).elim [] Block.insns).length

/-- The instructions of the blocks on a path, terminators apart. -/
def bodies (f : Func) (path : List Int) : List Insn :=
  path.flatMap fun s => (f.block? s).elim [] Block.body

theorem eq_bodies_of_carried {is : List Insn} (h : f.carried q = .ok is) : is = f.bodies q := by
  obtain ⟨bs, hbs, rfl⟩ := map_eq_ok_iff.mp h
  have hblocks := mapM_getBlock_eq_ok_iff.mp hbs
  have hsplit : ∀ path : List Int, f.bodies path =
      (path.map f.block?).flatMap fun b => b.elim [] Block.body := fun path => by
    simp [bodies, List.flatMap_map]
  rw [hsplit, hblocks, List.flatMap_map]
  rfl

theorem carried_eq (h : ∀ s ∈ q, ∃ b, f.block? s = some b) : f.carried q = .ok (f.bodies q) := by
  obtain ⟨bs, hbs⟩ := exists_mapM_getBlock h
  have hcarried : f.carried q = .ok (bs.flatMap Block.body) := map_eq_ok_iff.mpr ⟨bs, hbs, rfl⟩
  rw [hcarried, eq_bodies_of_carried hcarried]

/-- **What the bodies on a path have, all that is carried has.** -/
theorem forall_bodies {P : Insn → Prop} (h : ∀ s ∈ q, ∀ b, f.block? s = some b → ∀ i ∈ b.body, P i) :
    ∀ i ∈ f.bodies q, P i := by
  intro i hi
  obtain ⟨s, hs, hi⟩ := List.mem_flatMap.mp hi
  cases hb : f.block? s with
  | none => simp [hb] at hi
  | some b =>
    rw [hb, Option.elim_some] at hi
    exact h s hs b hb i hi

theorem Shaped.plain_bodies (hf : f.Shaped) (q : List Int) : Plain (f.bodies q) :=
  forall_bodies fun _ _ _ hb => (hf.fits hb).plain

theorem bodies_cons {b : Block} (hb : f.block? s = some b) :
    f.bodies (s :: q) = b.body ++ f.bodies q := by
  simp [bodies, hb]

theorem pathLength_cons {b : Block} (hb : f.block? s = some b) :
    f.pathLength (s :: q) = b.insns.length + f.pathLength q := by
  simp [pathLength, hb]

theorem length_bodies_le (f : Func) (q : List Int) : (f.bodies q).length ≤ f.pathLength q := by
  induction q with
  | nil => exact Nat.zero_le _
  | cons s q ih =>
    cases hb : f.block? s with
    | none => simpa [bodies, pathLength, hb] using ih
    | some b =>
      rw [bodies_cons hb, pathLength_cons hb, List.length_append]
      exact Nat.add_le_add b.length_body_le ih

/-- A terminator on the way is a step that is not carried. -/
theorem length_bodies_lt {b : Block} {i : Insn} (hb : f.block? s = some b)
    (hi : b.terminator? = some i) : (f.bodies (s :: q)).length < f.pathLength (s :: q) := by
  have := f.length_bodies_le q
  rw [bodies_cons hb, pathLength_cons hb, Block.insns_eq_append hi, List.length_append,
    List.length_append, List.length_singleton]
  omega

end Func

/-- **The way through a region**: internal blocks, each left by the exit the environment decides, up
to a block that leads out. -/
inductive Region.Walks (d : Region) (f : Func) : Env → Int → List Int → Int → Prop
  /-- At a way out. -/
  | here {e : Env} {t : Int} (hx : d.isExit t = true) : Walks d f e t [] t
  /-- Through one block more. -/
  | goes {e : Env} {s s' t : Int} {q : List Int} {b : Block} (hx : d.isExit s = false)
      (hin : d.isInternal s = true) (hb : f.block? s = some b)
      (hc : b.choose? (b.execBody e) = some s') (rest : Walks d f (b.execBody e) s' q t) :
      Walks d f e s (s :: q) t

namespace Region

variable {d : Region} {f g : Func} {e : Env} {s t : Int} {q path path' : List Int} {m m' : Machine}

theorem walks_of_walk? {fuel : Nat} (h : d.walk? f fuel e path s = .ok (some (t, path'))) :
    ∃ q, path' = path ++ q ∧ d.Walks f e s q t := by
  induction fuel generalizing e path s with
  | zero => cases h
  | succ fuel ih =>
    unfold walk? at h
    split at h
    · next hx =>
      obtain ⟨rfl, rfl⟩ := Prod.mk.inj (Option.some.inj (Except.ok.inj h))
      exact ⟨[], by simp, .here hx⟩
    · next hx =>
      split at h
      · cases h
      · next hin =>
        obtain ⟨b, hb, h⟩ := bind_eq_ok_iff.mp h
        dsimp only at h
        split at h
        · cases h
        · next s' hc =>
          obtain ⟨q, rfl, hw⟩ := ih h
          simp only [Bool.or_eq_true, Bool.not_eq_true', decide_eq_true_eq, not_or,
            Bool.not_eq_false] at hin
          exact ⟨s :: q, by simp,
            .goes (by simpa using hx) hin.1 (Func.block?_of_getBlock hb) hc hw⟩

/-- **A resolved value is a walk from the entry**, the state having that value. -/
theorem walks_of_resolvePath? {v : UInt64} (h : d.resolvePath? f v = .ok (some (t, path))) :
    ∃ state, d.state? = some state ∧
      d.Walks f (Table.ofList [(state, v)]) d.entrySerial path t := by
  unfold resolvePath? at h
  split at h
  · next state i hst hi =>
    obtain ⟨q, rfl, hw⟩ := walks_of_walk? h
    refine ⟨state, hst, ?_⟩
    simpa [entrySerial, hi] using hw
  · cases h

/-- **A walk asks for blocks only**, if what is internal is a block. -/
theorem exists_walk? (hin : ∀ x, d.isInternal x = true → ∃ b, f.block? x = some b) (fuel : Nat)
    (e : Env) (path : List Int) (s : Int) : ∃ r, d.walk? f fuel e path s = .ok r := by
  induction fuel generalizing e path s with
  | zero => exact ⟨none, by rw [walk?]⟩
  | succ fuel ih =>
    rw [walk?]
    split
    · exact ⟨_, rfl⟩
    split
    · exact ⟨none, rfl⟩
    · next h =>
      simp only [Bool.or_eq_true, Bool.not_eq_true', not_or, Bool.not_eq_false] at h
      obtain ⟨b, hb⟩ := hin s h.1
      simp only [Func.getBlock_of_block? hb, bind, Except.bind]
      split
      · exact ⟨none, rfl⟩
      · exact ih ..

theorem exists_resolvePath? (hin : ∀ x, d.isInternal x = true → ∃ b, f.block? x = some b)
    (v : UInt64) : ∃ r, d.resolvePath? f v = .ok r := by
  unfold resolvePath?
  split
  · exact exists_walk? hin ..
  · exact ⟨none, rfl⟩

/-- The blocks on the way are internal blocks of the function. -/
theorem Walks.mem (h : d.Walks f e s q t) :
    ∀ x ∈ q, d.isInternal x = true ∧ ∃ b, f.block? x = some b := by
  induction h with
  | here => simp
  | goes _ hin hb _ _ ih =>
    intro x hx
    rcases List.mem_cons.mp hx with rfl | hx
    · exact ⟨hin, _, hb⟩
    · exact ih x hx

/-- A walk that passes blocks arrives by an edge from one of them. -/
theorem Walks.exists_edge (h : d.Walks f e s q t) (hq : q ≠ []) :
    ∃ p ∈ q, f.Edge p t := by
  induction h with
  | here => exact absurd rfl hq
  | @goes e s s' t q b hx hin hb hc rest ih =>
    have hedge : f.Edge s s' := ⟨b, hb, Block.mem_exits_of_choose? hc⟩
    cases rest with
    | here => exact ⟨s, by simp, hedge⟩
    | goes _ _ _ _ _ =>
      obtain ⟨p, hp, he⟩ := ih (by simp)
      exact ⟨p, by simp [hp], he⟩

/-- A function with the same internal blocks is walked alike. -/
theorem Walks.congr (h : d.Walks f e s q t) (hc : ∀ x ∈ q, g.content? x = f.content? x) :
    d.Walks g e s q t := by
  induction h with
  | here hx => exact .here hx
  | @goes e s s' t q b hx hin hb hch _ ih =>
    obtain ⟨b', hb', hbc⟩ := Func.exists_of_content? (hc s (by simp)) hb
    have hbody : b'.execBody e = b.execBody e := by
      simp only [Block.execBody, Block.body_congr hbc]
    have hch' : b'.choose? (b'.execBody e) = some s' := by
      rw [hbody, ← hch]
      simp only [Block.choose?, Block.terminator?_congr hbc, show b'.next = b.next from
        congrArg Prod.snd hbc]
    refine .goes hx hin hb' hch' ?_
    rw [hbody]
    exact ih fun x hx => hc x (by simp [hx])

/-- The blocks on the way are there, and what they hold can be carried. -/
theorem Walks.carried (h : d.Walks f e s q t) : f.carried q = .ok (f.bodies q) :=
  Func.carried_eq fun x hx => (h.mem x hx).2

/-- **An execution with the environment's values goes the way of the walk.** -/
theorem Walks.reaches (hf : f.Shaped) (h : d.Walks f e s q t) (he : e.Holds m)
    (hm : m.perform (f.bodies q) = .done m') :
    f.Reaches m s q.length (f.pathLength q) m' t := by
  induction h generalizing m with
  | here =>
    obtain rfl := Performed.done.inj hm
    exact .here
  | @goes e s s' t q b hx hin hb hc _ ih =>
    rw [Func.bodies_cons hb] at hm
    obtain ⟨m₁, hm₁, hm⟩ := Machine.perform_append_eq_done.mp hm
    have hv := Block.visit_of_choose? (hf.fits hb) he hm₁ hc
    have he₁ := Block.holds_execBody he (hf.fits hb).plain hm₁
    rw [Func.pathLength_cons hb, List.length_cons, Nat.add_comm q.length]
    exact (Func.Reaches.single hb hv).trans (ih he₁ hm)

/-- …or stops where an instruction on the way is undefined. -/
theorem Walks.haltsIn (hf : f.Shaped) (h : d.Walks f e s q t) (he : e.Holds m)
    (hm : ∀ m', m.perform (f.bodies q) ≠ .done m') :
    ∃ k n cs, f.HaltsIn k m s n .undefined cs := by
  induction h generalizing m with
  | here => exact absurd rfl (hm m)
  | @goes e s s' t q b hx hin hb hc _ ih =>
    cases hm₁ : m.perform b.body with
    | undefined m₁ c₁ => exact ⟨1, c₁, m₁.calls, .stops hb (by simp [Block.visit, hm₁])⟩
    | done m₁ =>
      have hv := Block.visit_of_choose? (hf.fits hb) he hm₁ hc
      obtain ⟨k, n, cs, hh⟩ := ih (Block.holds_execBody he (hf.fits hb).plain hm₁) fun m' hm' =>
        hm m' (by
          rw [Func.bodies_cons hb]
          exact Machine.perform_append_eq_done.mpr ⟨m₁, hm₁, hm'⟩)
      exact ⟨_, _, _, .goes hb hv hh⟩

/-- **What a walk carries stands for the walk**, if its first block ends in a terminator. -/
theorem Walks.stands (hf : f.Shaped) (h : d.Walks f e s (s :: q) t) (he : e.Holds m) {b : Block}
    {i : Insn} (hb : f.block? s = some b) (hi : b.terminator? = some i) :
    f.Stands s (f.bodies (s :: q)) t m := by
  cases hm : m.perform (f.bodies (s :: q)) with
  | done m' =>
    exact .inl ⟨m', _, _, hm, h.reaches hf he hm, Func.length_bodies_lt hb hi⟩
  | undefined m' c =>
    have hne : ∀ m'', m.perform (f.bodies (s :: q)) ≠ .done m'' := by simp [hm]
    exact .inr ⟨hne, h.haltsIn hf he hne⟩

end Region

end Deflatten

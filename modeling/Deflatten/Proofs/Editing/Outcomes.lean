import Deflatten.Microcode.Edges

/-!
# Proofs/Editing/Outcomes — rules for runs that may fail

`Concludes x w Q E` says what `x` leaves from `w`: `Q` if it succeeds, `E` if it fails.  The rules for
it follow the text of a run, and the other predicates are cases of it: `Succeeds` rules failure out,
`Yields` says nothing of it, and `Stays` asks of a success only that it keeps a property.
-/

namespace Deflatten

/-! ## Results -/

section Results

variable {ε α β : Type} {x : Except ε α} {k : α → Except ε β} {b : β}

theorem bind_eq_ok_iff : (x >>= k) = .ok b ↔ ∃ a, x = .ok a ∧ k a = .ok b := by
  cases x <;> simp [bind, Except.bind]

theorem map_eq_ok_iff {g : α → β} : x.map g = .ok b ↔ ∃ a, x = .ok a ∧ g a = b := by
  cases x <;> simp [Except.map]

section Lists

variable {g : α → Except ε β} {xs : List α} {ys : List β} {y : β}

/-- **Steps in turn succeed if and only if each of them does.** -/
theorem mapM_eq_ok_iff : xs.mapM g = .ok ys ↔ xs.map g = ys.map .ok := by
  induction xs generalizing ys with
  | nil => cases ys <;> simp [pure, Except.pure]
  | cons x xs ih =>
    rw [List.mapM_cons, bind_eq_ok_iff]
    constructor
    · rintro ⟨a, ha, h⟩
      obtain ⟨as, has, h⟩ := bind_eq_ok_iff.mp h
      obtain rfl := Except.ok.inj h
      simp [ha, ih.mp has]
    · intro h
      cases ys with
      | nil => simp at h
      | cons a as =>
        obtain ⟨ha, has⟩ := List.cons.inj h
        exact ⟨a, ha, bind_eq_ok_iff.mpr ⟨as, ih.mpr has, rfl⟩⟩

theorem exists_mapM_eq_ok (h : ∀ x ∈ xs, ∃ y, g x = .ok y) : ∃ ys, xs.mapM g = .ok ys := by
  simp only [mapM_eq_ok_iff]
  induction xs with
  | nil => exact ⟨[], rfl⟩
  | cons x xs ih =>
    obtain ⟨y, hy⟩ := h x (by simp)
    obtain ⟨ys, hys⟩ := ih fun z hz => h z (by simp [hz])
    exact ⟨y :: ys, by simp [hy, hys]⟩

theorem mem_iff_of_mapM_eq_ok (h : xs.mapM g = .ok ys) : y ∈ ys ↔ ∃ x ∈ xs, g x = .ok y := by
  have hmem : y ∈ ys ↔ .ok y ∈ xs.map g := by simp [mapM_eq_ok_iff.mp h]
  rw [hmem, List.mem_map]

end Lists

end Results

/-! ## Runs -/

variable {ε σ α β : Type}

/-- **How `x` concludes from `w`**: what it gives and leaves satisfies `Q` if it succeeds, and the
error and what it leaves satisfy `E` if it fails. -/
def Concludes (x : EStateM ε σ α) (w : σ) (Q : α → σ → Prop) (E : ε → σ → Prop) : Prop :=
  match x w with
  | .ok a w' => Q a w'
  | .error e w' => E e w'

/-- **`x` succeeds from `w`**, and what it gives and leaves satisfies `Q`. -/
abbrev Succeeds (x : EStateM ε σ α) (w : σ) (Q : α → σ → Prop) : Prop :=
  Concludes x w Q fun _ _ => False

/-- **What `x` gives and leaves satisfies `Q`**, should it succeed from `w`. -/
abbrev Yields (x : EStateM ε σ α) (w : σ) (Q : α → σ → Prop) : Prop :=
  Concludes x w Q fun _ _ => True

section Concludes

variable {x : EStateM ε σ α} {k : α → EStateM ε σ β} {w w' : σ} {a : α} {b : β} {e : ε}
  {P P' : α → σ → Prop} {Q : β → σ → Prop} {E : ε → σ → Prop}

theorem concludes_of_ok (hx : x w = .ok a w') (h : P a w') : Concludes x w P E := by
  rw [Concludes, hx]
  exact h

theorem concludes_of_error (hx : x w = .error e w') (h : E e w') : Concludes x w P E := by
  rw [Concludes, hx]
  exact h

theorem Concludes.of_eq_ok (h : Concludes x w P E) (hx : x w = .ok a w') : P a w' := by
  rwa [Concludes, hx] at h

theorem Concludes.of_eq_error (h : Concludes x w P E) (hx : x w = .error e w') : E e w' := by
  rwa [Concludes, hx] at h

theorem succeeds_iff : Succeeds x w P ↔ ∃ a w', x w = .ok a w' ∧ P a w' := by
  unfold Succeeds Concludes
  cases x w with
  | ok a w' => grind
  | error e w' => simp

theorem yields_iff : Yields x w P ↔ ∀ a w', x w = .ok a w' → P a w' := by
  unfold Yields Concludes
  cases x w <;> simp

theorem concludes_pure (h : Q b w) : Concludes (pure b) w Q E := h

theorem concludes_throw (h : E e w) : Concludes (throw e) w Q E := h

theorem Concludes.bind (hx : Concludes x w P E) (hk : ∀ a w', P a w' → Concludes (k a) w' Q E) :
    Concludes (x >>= k) w Q E := by
  cases hres : x w with
  | ok a w' =>
    have hbind : (x >>= k) w = k a w' := by simp only [Bind.bind, EStateM.bind, hres]
    rw [Concludes, hbind]
    exact hk a w' (hx.of_eq_ok hres)
  | error e w' =>
    have hbind : (x >>= k) w = .error e w' := by simp only [Bind.bind, EStateM.bind, hres]
    exact concludes_of_error hbind (hx.of_eq_error hres)

theorem Concludes.map (hx : Concludes x w P E) (g : α → β) (h : ∀ a w', P a w' → Q (g a) w') :
    Concludes (g <$> x) w Q E := by
  rw [← bind_pure_comp]
  exact hx.bind fun a w' ha => concludes_pure (h a w' ha)

theorem concludes_get_bind {k : σ → EStateM ε σ β} (h : Concludes (k w) w Q E) :
    Concludes (get >>= k) w Q E := h

theorem concludes_set_bind {k : PUnit → EStateM ε σ β} (h : Concludes (k ()) w' Q E) :
    Concludes (set w' >>= k) w Q E := h

theorem concludes_modify {g : σ → σ} {Q : Unit → σ → Prop} (h : Q () (g w)) :
    Concludes (modify g) w Q E := h

theorem Concludes.mono {E' : ε → σ → Prop} (h : Concludes x w P E) (hP : ∀ a w', P a w' → P' a w')
    (hE : ∀ e w', E e w' → E' e w') : Concludes x w P' E' := by
  unfold Concludes at *
  split at h
  · exact hP _ _ h
  · exact hE _ _ h

/-- A success may be asked for less. -/
theorem Concludes.weaken (h : Concludes x w P E) (hP : ∀ a w', P a w' → P' a w') : Concludes x w P' E :=
  h.mono hP fun _ _ => id

/-- What is looked up is there, or the state is as it was. -/
theorem concludes_ofExcept_bind {f : Func} {r : Except FlowError α} {k : α → Edit β}
    {Q : β → Func → Prop} {E : FlowError → Func → Prop} (hE : ∀ e, r = .error e → E e f)
    (hk : ∀ a, r = .ok a → Concludes (k a) f Q E) : Concludes (Edit.ofExcept r >>= k) f Q E := by
  cases r with
  | error e => exact hE e rfl
  | ok a => exact hk a rfl

end Concludes

/-! ## Properties that stay -/

/-- **What `x` leaves has `J` if what it found had**, should it succeed. -/
def Stays (x : EStateM ε σ α) (J : σ → Prop) : Prop := ∀ w, J w → Yields x w fun _ => J

section Stays

variable {x : EStateM ε σ α} {k : α → EStateM ε σ β} {J : σ → Prop}

theorem stays_pure (a : α) : Stays (pure a : EStateM ε σ α) J := fun _ hw => concludes_pure hw

theorem stays_throw (e : ε) : Stays (throw e : EStateM ε σ α) J := fun _ _ => trivial

theorem Stays.bind (hx : Stays x J) (hk : ∀ a, Stays (k a) J) : Stays (x >>= k) J := fun w hw =>
  (hx w hw).bind fun a => hk a

/-- What is got has the property. -/
theorem stays_get_bind {k : σ → EStateM ε σ β} (hk : ∀ w, J w → Stays (k w) J) :
    Stays (get >>= k) J := fun w hw => concludes_get_bind (hk w hw w hw)

theorem stays_set {w' : σ} (h : J w') : Stays (set w' : EStateM ε σ PUnit) J := fun _ _ => h

theorem stays_modify {g : σ → σ} (h : ∀ w, J w → J (g w)) :
    Stays (modify g : EStateM ε σ PUnit) J := fun w hw => concludes_modify (h w hw)

theorem stays_ofExcept_bind {r : Except FlowError α} {k : α → Edit β} {J : Func → Prop}
    (hk : ∀ a, r = .ok a → Stays (k a) J) : Stays (Edit.ofExcept r >>= k) J := fun w hw =>
  concludes_ofExcept_bind (fun _ _ => trivial) fun a ha => hk a ha w hw

theorem Stays.of_eq_ok {w w' : σ} {a : α} (h : Stays x J) (hw : J w) (hx : x w = .ok a w') : J w' :=
  (h w hw).of_eq_ok hx

end Stays

end Deflatten

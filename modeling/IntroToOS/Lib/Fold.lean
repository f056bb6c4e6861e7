import Mathlib.Data.List.Basic

/-! # Monadic folds that may stop

Rules for programs in `Except ε`: what it means for a bind, a test or a loop to end normally. A
loop is a `List.foldlM`; its run is a chain of normal steps, and what the steps keep the loop
keeps.
-/

namespace IntroToOS.Lib
set_option autoImplicit false

universe u v

variable {ε : Type v} {α β σ : Type u}

theorem bind_eq_ok {x : Except ε α} {f : α → Except ε β} {b : β} :
    (x >>= f) = .ok b ↔ ∃ a, x = .ok a ∧ f a = .ok b := by
  cases x <;> simp [bind, Except.bind]

theorem bind_eq_error {x : Except ε α} {f : α → Except ε β} {e : ε} :
    (x >>= f) = .error e ↔ x = .error e ∨ ∃ a, x = .ok a ∧ f a = .error e := by
  cases x <;> simp [bind, Except.bind]

theorem toOption_eq_some {x : Except ε α} {a : α} : x.toOption = some a ↔ x = .ok a := by
  cases x <;> simp [Except.toOption]

theorem ok_bind (a : α) (f : α → Except ε β) : (Except.ok a >>= f) = f a := rfl

theorem error_bind (e : ε) (f : α → Except ε β) : (Except.error e >>= f) = .error e := rfl

/-- `if p then throw e` lets the program go on exactly when `p` is false. -/
theorem throwIf_eq_ok {p : Prop} [Decidable p] {e : ε} {x : Except ε α} {b : α} :
    (if p then .error e else x) = .ok b ↔ ¬ p ∧ x = .ok b := by
  by_cases hp : p <;> simp [hp]

theorem throwUnless_eq_ok {p : Prop} [Decidable p] {e : ε} {x : Except ε α} {b : α} :
    (if p then x else .error e) = .ok b ↔ p ∧ x = .ok b := by
  by_cases hp : p <;> simp [hp]

theorem pure_eq_ok {a b : α} : (pure a : Except ε α) = .ok b ↔ b = a :=
  ⟨fun h => (Except.ok.inj h).symm, fun h => h ▸ rfl⟩

theorem foldlM_cons_eq_ok {f : σ → α → Except ε σ} {a : α} {l : List α} {s t : σ} :
    (a :: l).foldlM f s = .ok t ↔ ∃ u, f s a = .ok u ∧ l.foldlM f u = .ok t := by
  rw [List.foldlM_cons, bind_eq_ok]

theorem foldlM_nil_eq_ok {f : σ → α → Except ε σ} {s t : σ} :
    ([] : List α).foldlM f s = .ok t ↔ s = t := by
  simp only [List.foldlM_nil, pure, Except.pure, Except.ok.injEq]

/-- What every step keeps, the loop keeps. -/
theorem foldlM_invariant {f : σ → α → Except ε σ} {P : σ → Prop} {l : List α} {s t : σ}
    (h : l.foldlM f s = .ok t) (h0 : P s)
    (hstep : ∀ a ∈ l, ∀ s t, P s → f s a = .ok t → P t) : P t := by
  induction l generalizing s with
  | nil => exact foldlM_nil_eq_ok.mp h ▸ h0
  | cons a l ih =>
      obtain ⟨u, hu, ht⟩ := foldlM_cons_eq_ok.mp h
      exact ih ht (hstep a List.mem_cons_self s u h0 hu)
        fun b hb => hstep b (List.mem_cons_of_mem a hb)

/-- In a loop that ends normally every step ends normally. -/
theorem foldlM_each {f : σ → α → Except ε σ} {l : List α} {s t : σ} (h : l.foldlM f s = .ok t) :
    ∀ a ∈ l, ∃ u v, f u a = .ok v := by
  induction l generalizing s with
  | nil => simp
  | cons a l ih =>
      obtain ⟨u, hu, ht⟩ := foldlM_cons_eq_ok.mp h
      intro b hb
      rcases List.mem_cons.mp hb with rfl | hb
      · exact ⟨s, u, hu⟩
      · exact ih ht b hb

/-- What every step makes the same, the loop makes the same. -/
theorem foldlM_same {γ : Type*} {f : σ → α → Except ε σ} {g : σ → γ} {l : List α} {s t : σ}
    (h : l.foldlM f s = .ok t) (hstep : ∀ a s t, f s a = .ok t → g t = g s) : g t = g s :=
  foldlM_invariant (P := fun u => g u = g s) h rfl fun a _ u v hu hv => (hstep a u v hv).trans hu

/-- A loop whose body first tests its element runs like the loop without the tests, on lists whose
elements all pass. -/
theorem foldlM_guard {f g : σ → α → Except ε σ} {P : α → Prop} {l : List α} {s t : σ}
    (h : ∀ a ∈ l, ∀ s t, f s a = .ok t ↔ P a ∧ g s a = .ok t) :
    l.foldlM f s = .ok t ↔ (∀ a ∈ l, P a) ∧ l.foldlM g s = .ok t := by
  induction l generalizing s with
  | nil => simp
  | cons a l ih =>
      have ih' := fun u => ih (s := u) fun b hb => h b (List.mem_cons_of_mem a hb)
      simp only [foldlM_cons_eq_ok, h a List.mem_cons_self, ih', List.forall_mem_cons]
      constructor
      · rintro ⟨u, ⟨ha, hu⟩, hl, ht⟩
        exact ⟨⟨ha, hl⟩, u, hu, ht⟩
      · rintro ⟨⟨ha, hl⟩, u, hu, ht⟩
        exact ⟨u, ⟨ha, hu⟩, hl, ht⟩

/-- A loop that first reads a value for its element runs like the loop over the values, when every
read succeeds. -/
theorem foldlM_read {f : σ → β → Except ε σ} {g : α → Except ε β} {P : α → Prop} {v : α → β}
    {l : List α} {s t : σ} (hg : ∀ a ∈ l, ∀ b, g a = .ok b ↔ P a ∧ b = v a) :
    l.foldlM (fun s a => do let b ← g a; f s b) s = .ok t ↔
      (∀ a ∈ l, P a) ∧ (l.map v).foldlM f s = .ok t := by
  rw [List.foldlM_map]
  refine foldlM_guard fun a ha s t => ?_
  simp only [bind_eq_ok, hg a ha]
  constructor
  · rintro ⟨b, ⟨hP, rfl⟩, ht⟩
    exact ⟨hP, ht⟩
  · rintro ⟨hP, ht⟩
    exact ⟨_, ⟨hP, rfl⟩, ht⟩

/-- A loop that skips some elements and looks up a value for the others is the loop over those
values. -/
theorem foldlM_filter_map (p : α → Bool) (f : σ → β → Except ε σ) (v : α → β) (l : List α) (s : σ) :
    l.foldlM (fun s a => if p a then f s (v a) else .ok s) s =
      ((l.filter p).map v).foldlM f s := by
  induction l generalizing s with
  | nil => rfl
  | cons a l ih =>
      rw [List.foldlM_cons, List.filter_cons]
      by_cases hp : p a = true
      · simp only [hp, if_true, List.map_cons, List.foldlM_cons]
        congr 1
        funext u
        exact ih u
      · simp only [hp]
        exact ih s

theorem foldlM_congr {f g : σ → α → Except ε σ} {l : List α} (h : ∀ a ∈ l, ∀ s, f s a = g s a)
    (s : σ) : l.foldlM f s = l.foldlM g s := by
  induction l generalizing s with
  | nil => rfl
  | cons a l ih =>
      rw [List.foldlM_cons, List.foldlM_cons, h a List.mem_cons_self]
      congr 1
      funext u
      exact ih (fun b hb => h b (List.mem_cons_of_mem a hb)) u

/-- A loop over the parts of a list of lists is a nest of two loops. -/
theorem foldlM_flatMap (f : σ → β → Except ε σ) (g : α → List β) (l : List α) (s : σ) :
    (l.flatMap g).foldlM f s = l.foldlM (fun s a => (g a).foldlM f s) s := by
  induction l generalizing s with
  | nil => rfl
  | cons a l ih =>
      rw [List.flatMap_cons, List.foldlM_append, List.foldlM_cons]
      congr 1
      funext u
      exact ih u

/-- A search loop that never stops early finds what some element of the list shows. -/
theorem foldlM_or {f : Bool → α → Except ε Bool} {p : α → Bool} {l : List α}
    (h : ∀ a ∈ l, ∀ b, f b a = .ok (b || p a)) (b : Bool) : l.foldlM f b = .ok (b || l.any p) := by
  induction l generalizing b with
  | nil => simp [pure, Except.pure]
  | cons a l ih =>
      rw [List.foldlM_cons, h a List.mem_cons_self]
      exact (ih (fun c hc => h c (List.mem_cons_of_mem a hc)) _).trans (by rw [List.any_cons, Bool.or_assoc])

/-! ## Normal ends and allowed errors -/

/-- `x` ends normally with `Q`, or with an error that meets `E`. -/
def Ends (x : Except ε α) (Q : α → Prop) (E : ε → Prop) : Prop :=
  match x with
  | .ok a => Q a
  | .error e => E e

section
variable {x : Except ε α} {Q Q' : α → Prop} {E : ε → Prop} {R : β → Prop} {f : α → Except ε β}

theorem ends_iff : Ends x Q E ↔ (∀ a, x = .ok a → Q a) ∧ ∀ e, x = .error e → E e := by
  cases x <;> simp [Ends]

theorem Ends.bind (h : Ends x Q E) (hf : ∀ a, Q a → Ends (f a) R E) : Ends (x >>= f) R E := by
  cases x with
  | ok a => exact hf a h
  | error e => exact h

theorem Ends.mono (h : Ends x Q E) (hQ : ∀ a, Q a → Q' a) : Ends x Q' E := by
  cases x with
  | ok a => exact hQ a h
  | error e => exact h

/-- A loop whose condition before a turn speaks of the elements that are left. -/
theorem Ends.foldlM {P : List α → σ → Prop} {g : σ → α → Except ε σ} {l : List α} {s : σ}
    (h0 : P l s) (hstep : ∀ a l s, P (a :: l) s → Ends (g s a) (P l) E) :
    Ends (l.foldlM g s) (P []) E := by
  induction l generalizing s with
  | nil => exact h0
  | cons a l ih =>
      rw [List.foldlM_cons]
      exact (hstep a l s h0).bind fun t ht => ih ht

end

/-! ## Loops of guarded steps -/

theorem bind_ne_error {x : Except ε α} {f : α → Except ε β} {e : ε} :
    (x >>= f) ≠ .error e ↔ x ≠ .error e ∧ ∀ a, x = .ok a → f a ≠ .error e := by
  rw [Ne, bind_eq_error, not_or]
  push Not
  rfl

/-- Every element that a loop reaches has `I`: what follows an element is reached when the element
passes with `P`, given those before it. -/
def Guarded (I : α → Prop) (P : List α → α → Prop) : List α → List α → Prop
  | _, [] => True
  | seen, a :: l => I a ∧ (P seen a → Guarded I P (seen ++ [a]) l)

/-- A loop whose step on `a` ends with `e` exactly when `a` lacks `I`, and normally exactly when
`a` passes. `R` relates the elements passed to the state. -/
theorem foldlM_ne_error_iff {I V : α → Prop} {P : List α → α → Prop} {R : List α → σ → Prop}
    {f : σ → α → Except ε σ} {e : ε}
    (hbound : ∀ a, V a → ∀ s, f s a ≠ .error e ↔ I a)
    (hpass : ∀ a, V a → ∀ seen s, R seen s → I a → ((∃ t, f s a = .ok t) ↔ P seen a))
    (hafter : ∀ a, V a → ∀ seen s t, R seen s → f s a = .ok t → R (seen ++ [a]) t)
    {l seen : List α} (hl : ∀ a ∈ l, V a) {s : σ} (hs : R seen s) :
    l.foldlM f s ≠ .error e ↔ Guarded I P seen l := by
  induction l generalizing seen s with
  | nil => simp [Guarded, pure, Except.pure]
  | cons a l ih =>
      have ha := hl a List.mem_cons_self
      rw [List.foldlM_cons, bind_ne_error, Guarded, hbound a ha]
      refine and_congr_right fun hI => ?_
      rw [← hpass a ha seen s hs hI]
      have ih := fun t ht => ih (fun b hb => hl b (List.mem_cons_of_mem a hb))
        (hafter a ha seen s t hs ht)
      constructor
      · rintro h ⟨t, ht⟩
        exact (ih t ht).mp (h t ht)
      · intro h t ht
        exact (ih t ht).mpr (h ⟨t, ht⟩)

end IntroToOS.Lib

import IntroToOS.Lib.Tally

/-! # Reference counts

`Balanced` relates the counts `ref` of the objects to the references that exist: some are loose
(`free`), and may be given up at any time; some are stored by an owner (`own`); and an object that
is `lent` is used by someone who holds no reference of it. The rules below say what keeps the
balance; only `take` has a condition about lent objects.
-/

namespace IntroToOS.Lib
set_option autoImplicit false

/-- One reference of `x`. -/
def one {R : Type*} [DecidableEq R] (x y : R) : ℕ := if y = x then 1 else 0

/-- One more reference of `x`. -/
def plus {R : Type*} [DecidableEq R] (n : R → ℕ) (x : R) : R → ℕ := fun y => n y + one x y

variable {R : Type*} {ref ref' : R → ℤ} {free free' own own' : R → ℕ}
  {lent lent' : R → Prop} {x : R}

@[simp] theorem one_self [DecidableEq R] (x : R) : one x x = 1 := if_pos rfl

theorem one_of_ne [DecidableEq R] {y : R} (h : y ≠ x) : one x y = 0 := if_neg h

section
variable {β : Type*} [DecidableEq R] {T : R → β} {v : β} {g : β → ℤ}

theorem apply_update_add (h : g v = g (T x) + 1) (y : R) :
    g (Function.update T x v y) = g (T y) + one x y := by
  by_cases hy : y = x
  · subst hy
    rw [Function.update_self, one_self, h]
    rfl
  · rw [Function.update_of_ne hy, one_of_ne hy, Int.natCast_zero, Int.add_zero]

theorem apply_update_sub (h : g v = g (T x) - 1) (y : R) :
    g (Function.update T x v y) = g (T y) - one x y := by
  by_cases hy : y = x
  · subst hy
    rw [Function.update_self, one_self, h]
    rfl
  · rw [Function.update_of_ne hy, one_of_ne hy, Int.natCast_zero, Int.sub_zero]

end

/-- Every count covers the references that exist, and one more than the loose ones where the object
is lent. -/
structure Balanced (ref : R → ℤ) (free own : R → ℕ) (lent : R → Prop) : Prop where
  covers : ∀ x, free x + own x ≤ ref x
  lends : ∀ x, lent x → free x + 1 ≤ ref x

namespace Balanced

theorem covered (h : Balanced ref free own lent) (hx : 0 < own x ∨ lent x) :
    free x + 1 ≤ ref x := by
  have := h.covers x
  rcases hx with hx | hx
  · omega
  · exact h.lends x hx

theorem held (h : Balanced ref free own lent) (hx : 0 < free x) : 1 ≤ ref x := by
  have := h.covers x
  omega

theorem unused (h : Balanced ref free own lent) (hx : ref x = 0) :
    free x = 0 ∧ own x = 0 ∧ ¬ lent x := by
  have := h.covers x
  refine ⟨by omega, by omega, fun hl => ?_⟩
  have := h.lends x hl
  omega

/-- References are forgotten, and only what has a reference besides the loose ones is lent. -/
theorem lend (h : Balanced ref free own lent) (ho : ∀ y, own' y ≤ own y)
    (hl : ∀ y, lent' y → 0 < own y ∨ lent y) : Balanced ref free own' lent' where
  covers y := by
    have := h.covers y
    have := ho y
    omega
  lends y hy := h.covered (hl y hy)

theorem congr (h : Balanced ref free own lent) (hr : ∀ y, ref' y = ref y)
    (hf : ∀ y, free' y = free y) : Balanced ref' free' own lent := by
  obtain rfl : ref' = ref := funext hr
  obtain rfl : free' = free := funext hf
  exact h

variable [DecidableEq R]

/-- The count goes up for a new loose reference. -/
theorem acquire (h : Balanced ref free own lent) (hr : ∀ y, ref' y = ref y + one x y)
    (hf : ∀ y, free' y = free y + one x y) : Balanced ref' free' own lent where
  covers y := by
    have := h.covers y
    have := hr y
    have := hf y
    omega
  lends y hy := by
    have := h.lends y hy
    have := hr y
    have := hf y
    omega

/-- A loose reference is given up. -/
theorem release (h : Balanced ref free own lent) (hr : ∀ y, ref' y = ref y - one x y)
    (hf : ∀ y, free' y + one x y = free y) : Balanced ref' free' own lent where
  covers y := by
    have := h.covers y
    have := hr y
    have := hf y
    omega
  lends y hy := by
    have := h.lends y hy
    have := hr y
    have := hf y
    omega

/-- An owner keeps a loose reference; it may overwrite another one. -/
theorem store (h : Balanced ref free own lent) (hf : ∀ y, free' y + one x y = free y)
    (ho : ∀ y, own' y ≤ own y + one x y) : Balanced ref free' own' lent where
  covers y := by
    have := h.covers y
    have := hf y
    have := ho y
    omega
  lends y hy := by
    have := h.lends y hy
    have := hf y
    omega

/-- An owner parts with its reference; whoever else uses the object needs another one to be there. -/
theorem take (h : Balanced ref free own lent) (hf : ∀ y, free' y = free y + one x y)
    (ho : ∀ y, own' y + one x y = own y) (hx : lent x → free x + 2 ≤ ref x) :
    Balanced ref free' own' lent where
  covers y := by
    have := h.covers y
    have := hf y
    have := ho y
    omega
  lends y hy := by
    have := h.lends y hy
    have hfy := hf y
    by_cases hyx : y = x
    · subst hyx
      have := hx hy
      rw [one_self] at hfy
      omega
    · rw [one_of_ne hyx] at hfy
      omega

end Balanced

end IntroToOS.Lib

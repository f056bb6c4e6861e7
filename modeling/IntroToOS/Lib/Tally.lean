import Mathlib.Algebra.BigOperators.Group.Finset.Basic
import Mathlib.Algebra.Order.BigOperators.Group.Finset
import Mathlib.Data.Fintype.BigOperators

/-! # Counting in a table

A table is a function on a finite type, and `tally g T` counts with weight `g` what its slots hold.
-/

namespace IntroToOS.Lib
set_option autoImplicit false

variable {ι β : Type*} [Fintype ι] {g : β → ℕ} {T : ι → β} {x : ι} {v : β}

def tally (g : β → ℕ) (T : ι → β) : ℕ := ∑ x, g (T x)

theorem le_tally (g : β → ℕ) (T : ι → β) (x : ι) : g (T x) ≤ tally g T :=
  Finset.single_le_sum (f := fun y => g (T y)) (fun _ _ => Nat.zero_le _) (Finset.mem_univ x)

theorem tally_eq_zero (h : ∀ x, g (T x) = 0) : tally g T = 0 := Finset.sum_eq_zero fun x _ => h x

theorem tally_eq_card (h : ∀ x, g (T x) = 1) : tally g T = Fintype.card ι := by
  unfold tally
  rw [Finset.sum_congr rfl fun x _ => h x, ← Finset.card_eq_sum_ones, Finset.card_univ]

theorem tally_le_card (h : ∀ x, g (T x) ≤ 1) : tally g T ≤ Fintype.card ι := by
  rw [← Finset.card_univ, Finset.card_eq_sum_ones]
  exact Finset.sum_le_sum fun x _ => h x

theorem tally_mono {T' : ι → β} (h : ∀ x, g (T x) ≤ g (T' x)) : tally g T ≤ tally g T' :=
  Finset.sum_le_sum fun x _ => h x

theorem tally_pos_of (h : 0 < g (T x)) : 0 < tally g T := Nat.lt_of_lt_of_le h (le_tally g T x)

theorem exists_of_tally_pos (h : 0 < tally g T) : ∃ x, 0 < g (T x) := by
  by_contra hno
  push Not at hno
  have hzero : tally g T = 0 := Finset.sum_eq_zero fun x _ => Nat.le_zero.mp (hno x)
  omega

/-- What a change of one slot leaves alone. -/
theorem apply_update_same {R γ : Type*} [DecidableEq R] {T : R → β} {x : R} {g : β → γ}
    (h : g v = g (T x)) (y : R) :
    g (Function.update T x v y) = g (T y) := by
  by_cases hy : y = x
  · subst hy
    rw [Function.update_self, h]
  · rw [Function.update_of_ne hy]

variable [DecidableEq ι]

theorem tally_update (g : β → ℕ) (T : ι → β) (x : ι) (v : β) :
    tally g (Function.update T x v) + g (T x) = tally g T + g v := by
  have hrest : ∑ y ∈ Finset.univ.erase x, g (Function.update T x v y) =
      ∑ y ∈ Finset.univ.erase x, g (T y) :=
    Finset.sum_congr rfl fun y hy => by rw [Function.update_of_ne (Finset.ne_of_mem_erase hy)]
  have hnew := Finset.add_sum_erase Finset.univ (fun y => g (Function.update T x v y))
    (Finset.mem_univ x)
  have hold := Finset.add_sum_erase Finset.univ (fun y => g (T y)) (Finset.mem_univ x)
  simp only [Function.update_self, hrest] at hnew
  unfold tally
  omega

/-- Two tables that differ in one slot. -/
theorem tally_change (g : β → ℕ) (T T' : ι → β) (x : ι) (h : ∀ y, y ≠ x → T' y = T y) :
    tally g T' + g (T x) = tally g T + g (T' x) := by
  have heq : T' = Function.update T x (T' x) := by
    funext y
    by_cases hy : y = x
    · rw [hy, Function.update_self]
    · rw [Function.update_of_ne hy, h y hy]
  have := tally_update g T x (T' x)
  rwa [← heq] at this

theorem add_le_tally {y : ι} (g : β → ℕ) (T : ι → β) (h : x ≠ y) : g (T x) + g (T y) ≤ tally g T := by
  have hpair : ∑ z ∈ {x, y}, g (T z) = g (T x) + g (T y) := Finset.sum_pair h
  rw [← hpair]
  exact Finset.sum_le_sum_of_subset (Finset.subset_univ _)

/-- A count that does not change when a slot does. -/
theorem tally_update_of_eq (h : g v = g (T x)) : tally g (Function.update T x v) = tally g T := by
  have := tally_update g T x v
  omega

end IntroToOS.Lib

import Mathlib.Data.Fintype.Pigeonhole
import Mathlib.Data.Set.Finite.Basic
import Mathlib.Dynamics.PeriodicPts.Defs

/-! # Parent pointers

In a finite set that the parent pointers `f` leave at the root `r` only, every point reaches the
root exactly when no point comes back to itself before it has met the root.
-/

namespace IntroToOS.Lib
open Function
set_option autoImplicit false

variable {α : Type*} {S : Set α} {f : α → α} {r : α}

theorem iterate_mem (hf : ∀ a ∈ S, a ≠ r → f a ∈ S) {a : α} (ha : a ∈ S)
    (hr : ∀ j, f^[j] a ≠ r) (k : ℕ) : f^[k] a ∈ S := by
  induction k with
  | zero => exact ha
  | succ k ih =>
      rw [iterate_succ_apply']
      exact hf _ ih (hr k)

theorem no_cycle_of_reaches {a : α} (h : ∃ k, f^[k] a = r) {k : ℕ} (hk : 0 < k)
    (hr : ∀ j < k, f^[j] a ≠ r) : f^[k] a ≠ a := by
  intro hcycle
  obtain ⟨n, hn⟩ := h
  refine hr (n % k) (Nat.mod_lt n hk) ?_
  rw [IsPeriodicPt.iterate_mod_apply hcycle]
  exact hn

/-- Two steps of an orbit that meet close a cycle. -/
theorem cycle_of_meet {a : α} {m n : ℕ} (hmn : m < n) (h : f^[m] a = f^[n] a) :
    f^[n - m] (f^[m] a) = f^[m] a := by
  rw [← iterate_add_apply, Nat.sub_add_cancel (Nat.le_of_lt hmn), h]

theorem reaches_of_no_cycle (hS : S.Finite) (hf : ∀ a ∈ S, a ≠ r → f a ∈ S)
    (h : ∀ a ∈ S, ∀ k, 0 < k → (∀ j < k, f^[j] a ≠ r) → f^[k] a ≠ a) {a : α} (ha : a ∈ S) :
    ∃ k, f^[k] a = r := by
  by_contra hno
  push Not at hno
  have hmem := iterate_mem hf ha hno
  have : Finite S := hS
  obtain ⟨m, n, hne, heq⟩ := Finite.exists_ne_map_eq_of_infinite fun k => (⟨f^[k] a, hmem k⟩ : S)
  have heq : f^[m] a = f^[n] a := congrArg Subtype.val heq
  have hno' : ∀ i j, f^[j] (f^[i] a) ≠ r := by
    intro i j
    rw [← iterate_add_apply]
    exact hno (j + i)
  rcases Nat.lt_or_gt_of_ne hne with hlt | hlt
  · exact h _ (hmem m) (n - m) (by omega) (fun j _ => hno' m j) (cycle_of_meet hlt heq)
  · exact h _ (hmem n) (m - n) (by omega) (fun j _ => hno' n j) (cycle_of_meet hlt heq.symm)

theorem reaches_iff_no_cycle (hS : S.Finite) (hf : ∀ a ∈ S, a ≠ r → f a ∈ S) :
    (∀ a ∈ S, ∃ k, f^[k] a = r) ↔
      ∀ a ∈ S, ∀ k, 0 < k → (∀ j < k, f^[j] a ≠ r) → f^[k] a ≠ a :=
  ⟨fun h a ha _ hk hr => no_cycle_of_reaches (h a ha) hk hr,
    fun h _ ha => reaches_of_no_cycle hS hf h ha⟩

end IntroToOS.Lib

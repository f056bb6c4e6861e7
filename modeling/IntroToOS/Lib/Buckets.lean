import Mathlib.Data.List.Basic
import Mathlib.Algebra.Order.Ring.Nat
import Mathlib.Logic.Function.Basic

/-! # Buckets

A table of `n` lists, seen as the list of all its entries.
-/

namespace IntroToOS.Lib
set_option autoImplicit false

variable {α : Type*} {n i : ℕ} {f : ℕ → List α} {x : α}

/-- The entries of the first `n` buckets. -/
def contents (n : ℕ) (f : ℕ → List α) : List α := (List.range n).flatMap f

theorem mem_contents : x ∈ contents n f ↔ ∃ i < n, x ∈ f i := by
  simp [contents]

/-- An entry that is put into a bucket is one more entry of the table. -/
theorem contents_insert (hi : i < n) :
    (contents n (Function.update f i (x :: f i))).Perm (x :: contents n f) := by
  unfold contents
  induction n with
  | zero => exact absurd hi (Nat.not_lt_zero i)
  | succ n ih =>
      rw [List.range_succ, List.flatMap_append, List.flatMap_append, List.flatMap_singleton,
        List.flatMap_singleton]
      by_cases hin : i = n
      · subst hin
        have hrest : (List.range i).flatMap (Function.update f i (x :: f i)) = (List.range i).flatMap f := by
          apply List.flatMap_congr
          intro j hj
          exact Function.update_of_ne (Nat.ne_of_lt (List.mem_range.mp hj)) _ _
        rw [hrest, Function.update_self]
        exact List.perm_middle
      · rw [Function.update_of_ne (Ne.symm hin)]
        exact (ih (by omega)).append_right (f n)

end IntroToOS.Lib

import Mathlib.Data.List.TakeWhile
import Mathlib.Data.List.Basic
import Mathlib.Algebra.BigOperators.Group.List.Basic

/-! # Items in blocks of equal length

Item `x` of a sequence of blocks of `w` items each is item `x % w` of block `x / w`. A reader that
leaves a block at its first item without `p` reads the items all of whose predecessors in their
block have `p`.
-/

namespace IntroToOS.Lib
set_option autoImplicit false

variable {α β : Type*}

theorem takeWhile_range (p : ℕ → Bool) (n : ℕ) :
    (List.range n).takeWhile p = (List.range n).filter fun j => ∀ k ≤ j, p k = true := by
  induction n with
  | zero => rfl
  | succ n ih =>
      rw [List.range_succ, List.filter_append, List.takeWhile_append]
      by_cases hall : ∀ k < n, p k = true
      · have hwhole : (List.range n).takeWhile p = List.range n :=
          List.takeWhile_eq_self_iff.mpr fun k hk => hall k (List.mem_range.mp hk)
        rw [if_pos (by rw [hwhole]), ← ih, hwhole]
        congr 1
        have hn : (∀ k ≤ n, p k = true) ↔ p n = true := by
          refine ⟨fun h => h n (Nat.le_refl n), fun h k hk => ?_⟩
          rcases Nat.lt_or_eq_of_le hk with hlt | rfl
          · exact hall k hlt
          · exact h
        rw [List.filter_singleton, List.takeWhile_cons]
        simp only [hn, List.takeWhile_nil]
        cases p n <;> rfl
      · have hne : ((List.range n).takeWhile p).length ≠ (List.range n).length := by
          intro hlen
          have heq := (List.takeWhile_prefix (l := List.range n) p).eq_of_length hlen
          exact hall fun k hk => List.takeWhile_eq_self_iff.mp heq k (List.mem_range.mpr hk)
        have hlast : ¬ ∀ k ≤ n, p k = true := fun h => hall fun k hk => h k (Nat.le_of_lt hk)
        rw [if_neg hne, ih, List.filter_singleton]
        simp [hlast]

theorem blocked_div {w : ℕ} {j : ℕ} (hj : j < w) (n : ℕ) : (w * n + j) / w = n := by
  rw [Nat.mul_add_div (by omega), Nat.div_eq_of_lt hj, Nat.add_zero]

theorem blocked_mod {w : ℕ} {j : ℕ} (hj : j < w) (n : ℕ) : (w * n + j) % w = j := by
  rw [Nat.mul_add_mod, Nat.mod_eq_of_lt hj]

theorem flatMap_range_map (w n : ℕ) (g : ℕ → ℕ → α) :
    ((List.range n).flatMap fun k => (List.range w).map (g k)) =
      (List.range (w * n)).map fun x => g (x / w) (x % w) := by
  induction n with
  | zero => rfl
  | succ n ih =>
      rw [List.range_succ, List.flatMap_append, ih, Nat.mul_succ, List.range_add, List.map_append,
        List.flatMap_singleton, List.map_map]
      congr 1
      refine List.map_congr_left fun j hj => ?_
      have hj := List.mem_range.mp hj
      rw [Function.comp_apply, blocked_div hj, blocked_mod hj]

/-- The items read by a reader that leaves each block at its first item without `p`. -/
theorem flatMap_takeWhile (w n : ℕ) (g : ℕ → ℕ → α) (p : α → Bool) :
    ((List.range n).flatMap fun k => ((List.range w).map (g k)).takeWhile p) =
      ((List.range (w * n)).filter fun x =>
        ∀ y ≤ x, y / w = x / w → p (g (y / w) (y % w)) = true).map
          fun x => g (x / w) (x % w) := by
  induction n with
  | zero => rfl
  | succ n ih =>
      rw [List.range_succ, List.flatMap_append, ih, Nat.mul_succ, List.range_add,
        List.filter_append, List.map_append, List.flatMap_singleton, List.filter_map, List.map_map,
        List.takeWhile_map, takeWhile_range]
      congr 1
      have hitem : ∀ j < w, ((∀ y ≤ w * n + j, y / w = (w * n + j) / w →
          p (g (y / w) (y % w)) = true) ↔ ∀ i ≤ j, p (g n i) = true) := by
        intro j hj
        rw [blocked_div hj]
        constructor
        · intro h i hi
          have hy := h (w * n + i) (by omega) (blocked_div (by omega) n)
          rwa [blocked_div (by omega), blocked_mod (by omega)] at hy
        · rintro h y hy rfl
          exact h (y % w) (by have := Nat.div_add_mod y w; omega)
      have hfilter : ((List.range w).filter fun j => decide (∀ k ≤ j, (p ∘ g n) k = true)) =
          (List.range w).filter ((fun x => decide (∀ y ≤ x, y / w = x / w →
            p (g (y / w) (y % w)) = true)) ∘ fun j => w * n + j) :=
        List.filter_congr fun j hj => decide_eq_decide.mpr (hitem j (List.mem_range.mp hj)).symm
      rw [hfilter]
      refine List.map_congr_left fun j hj => ?_
      have hj := List.mem_range.mp (List.mem_filter.mp hj).1
      rw [Function.comp_apply, blocked_div hj, blocked_mod hj]

/-- Two choices from one list differ by what only one of them takes. -/
theorem countP_filter_add (l : List β) (p q r : β → Bool) :
    (l.filter p).countP r + (l.filter fun x => q x && !p x).countP r =
      (l.filter q).countP r + (l.filter fun x => p x && !q x).countP r := by
  induction l with
  | nil => rfl
  | cons x l ih =>
      simp only [List.filter_cons]
      cases hp : p x <;> cases hq : q x <;> simp [List.countP_cons] <;> omega

end IntroToOS.Lib

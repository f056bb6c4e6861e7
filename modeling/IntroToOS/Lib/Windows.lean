import Mathlib.Data.List.Basic
import Mathlib.Data.List.Nodup
import Mathlib.Logic.Function.Basic

/-! # Windows of a partial function

A partial function on the natural numbers, such as a page table, seen through the `n` arguments
from `v` on: `window` lists its values there, `place` puts a list of values there, and `clear`
makes it undefined there.
-/

namespace IntroToOS.Lib
set_option autoImplicit false

variable {α : Type*} {f g : ℕ → Option α} {v n m x : ℕ} {a : α} {l l' : List α}

def window (f : ℕ → Option α) (v n : ℕ) : List α := (List.range' v n).filterMap f

def place (f : ℕ → Option α) (v : ℕ) (l : List α) : ℕ → Option α := fun x =>
  if v ≤ x ∧ x < v + l.length then l[x - v]? else f x

def clear (f : ℕ → Option α) (v n : ℕ) : ℕ → Option α := fun x =>
  if v ≤ x ∧ x < v + n then none else f x

theorem mem_window : a ∈ window f v n ↔ ∃ x, (v ≤ x ∧ x < v + n) ∧ f x = some a := by
  simp only [window, List.mem_filterMap, List.mem_range'_1]

theorem window_add (f : ℕ → Option α) (v m n : ℕ) :
    window f v (m + n) = window f v m ++ window f (v + m) n := by
  unfold window
  rw [← List.filterMap_append, List.range'_append_1]

theorem window_congr (h : ∀ x, v ≤ x → x < v + n → f x = g x) : window f v n = window g v n := by
  refine List.filterMap_congr fun x hx => ?_
  rw [List.mem_range'_1] at hx
  exact h x hx.1 hx.2

theorem window_eq_nil (h : ∀ x, v ≤ x → x < v + n → f x = none) : window f v n = [] := by
  refine List.filterMap_eq_nil_iff.mpr fun x hx => ?_
  rw [List.mem_range'_1] at hx
  exact h x hx.1 hx.2

theorem window_one_add (f : ℕ → Option α) (v n : ℕ) :
    window f v (n + 1) = (f v).toList ++ window f (v + 1) n := by
  unfold window
  rw [List.range'_succ, List.filterMap_cons]
  cases f v <;> rfl

/-- Cutting off what is undefined behind `n`. -/
theorem window_of_le (h : n ≤ m) (hnone : ∀ x, v + n ≤ x → x < v + m → f x = none) :
    window f v m = window f v n := by
  obtain ⟨k, rfl⟩ := Nat.exists_eq_add_of_le h
  rw [window_add, window_eq_nil fun x h1 h2 => hnone x h1 (by omega), List.append_nil]

/-! ## `place` -/

theorem place_of_not_mem (h : ¬ (v ≤ x ∧ x < v + l.length)) : place f v l x = f x := if_neg h

theorem place_of_mem (h1 : v ≤ x) (h2 : x < v + l.length) : place f v l x = l[x - v]? :=
  if_pos ⟨h1, h2⟩

theorem isSome_place (h1 : v ≤ x) (h2 : x < v + l.length) : (place f v l x).isSome := by
  have hlt : x - v < l.length := by omega
  rw [place_of_mem h1 h2, List.getElem?_eq_getElem hlt]
  rfl

@[simp] theorem place_nil (f : ℕ → Option α) (v : ℕ) : place f v [] = f := by
  funext x
  refine place_of_not_mem ?_
  simp only [List.length_nil]
  omega

theorem place_singleton (f : ℕ → Option α) (v : ℕ) (a : α) :
    place f v [a] = Function.update f v (some a) := by
  funext x
  by_cases hx : x = v
  · subst hx
    rw [Function.update_self, place_of_mem (Nat.le_refl x) (by simp), Nat.sub_self]
    rfl
  · rw [Function.update_of_ne hx, place_of_not_mem]
    simp only [List.length_singleton]
    omega

theorem place_append (f : ℕ → Option α) (v : ℕ) (l l' : List α) :
    place f v (l ++ l') = place (place f v l) (v + l.length) l' := by
  funext x
  unfold place
  rw [List.length_append]
  by_cases h : v + l.length ≤ x ∧ x < v + l.length + l'.length
  · have hin : v ≤ x ∧ x < v + (l.length + l'.length) := by omega
    rw [if_pos hin, if_pos h, List.getElem?_append_right (by omega), Nat.sub_add_eq]
  · rw [if_neg h]
    by_cases h' : v ≤ x ∧ x < v + l.length
    · have hin : v ≤ x ∧ x < v + (l.length + l'.length) := by omega
      rw [if_pos hin, if_pos h', List.getElem?_append_left (by omega)]
    · have hout : ¬ (v ≤ x ∧ x < v + (l.length + l'.length)) := by omega
      rw [if_neg hout, if_neg h']

theorem window_place (f : ℕ → Option α) (v : ℕ) (l : List α) :
    window (place f v l) v l.length = l := by
  induction l generalizing f v with
  | nil => rfl
  | cons a l ih =>
      have happ : place f v (a :: l) = place (place f v [a]) (v + 1) l := place_append f v [a] l
      have hhead : place f v (a :: l) v = some a := by
        rw [place_of_mem (Nat.le_refl v) (by simp), Nat.sub_self]
        rfl
      rw [List.length_cons, window_one_add, hhead, happ, ih]
      rfl

/-- Placing behind the end of what is defined appends. -/
theorem window_place_end (hn : m + l.length ≤ n) (h : ∀ x, v + m ≤ x → x < v + n → f x = none) :
    window (place f (v + m) l) v n = window f v n ++ l := by
  have hle : m ≤ n := by omega
  rw [window_of_le hle h, window_of_le hn fun x h1 h2 => ?_, window_add, window_place]
  · congr 1
    exact window_congr fun x _ h2 => place_of_not_mem (by omega)
  · rw [place_of_not_mem (by omega)]
    exact h x (by omega) h2

/-! ## `clear` -/

theorem clear_of_not_mem (h : ¬ (v ≤ x ∧ x < v + n)) : clear f v n x = f x := if_neg h

theorem clear_of_mem (h1 : v ≤ x) (h2 : x < v + n) : clear f v n x = none := if_pos ⟨h1, h2⟩

@[simp] theorem clear_zero (f : ℕ → Option α) (v : ℕ) : clear f v 0 = f := by
  funext x
  exact clear_of_not_mem (by omega)

theorem clear_succ (f : ℕ → Option α) (v n : ℕ) :
    clear f v (n + 1) = clear (Function.update f v none) (v + 1) n := by
  funext x
  unfold clear
  by_cases hx : x = v
  · subst hx
    rw [if_pos (by omega), if_neg (by omega), Function.update_self]
  · by_cases hin : v ≤ x ∧ x < v + (n + 1)
    · rw [if_pos hin, if_pos (by omega)]
    · rw [if_neg hin, if_neg (by omega), Function.update_of_ne hx]

/-- Clearing at the end of what is defined takes the end away. -/
theorem window_clear_end {k : ℕ} (hn : m + k ≤ n)
    (h : ∀ x, v + m + k ≤ x → x < v + n → f x = none) :
    window f v n = window (clear f (v + m) k) v n ++ window f (v + m) k := by
  have hend : window f v n = window f v (m + k) :=
    window_of_le hn fun x h1 h2 => h x (by omega) h2
  have hfront : window (clear f (v + m) k) v n = window f v m := by
    refine (window_of_le (by omega) fun x h1 h2 => ?_).trans
      (window_congr fun x _ h2 => clear_of_not_mem (by omega))
    by_cases hx : x < v + m + k
    · exact clear_of_mem h1 hx
    · rw [clear_of_not_mem (by omega)]
      exact h x (by omega) h2
  rw [hend, hfront, window_add]

/-- What has been placed where `f` is undefined can be cleared. -/
theorem clear_place (hl : l.length ≤ n) (h : ∀ x, v ≤ x → x < v + n → f x = none) :
    clear (place f v l) v n = f := by
  funext x
  by_cases hx : v ≤ x ∧ x < v + n
  · rw [clear_of_mem hx.1 hx.2, h x hx.1 hx.2]
  · rw [clear_of_not_mem hx, place_of_not_mem (by omega)]

/-- Changing one value within the window. -/
theorem count_window_change [DecidableEq α] (f : ℕ → Option α) {i : ℕ} (e : Option α) (h1 : v ≤ i)
    (h2 : i < v + n) (a : α) : (window (Function.update f i e) v n).count a + (f i).toList.count a =
      (window f v n).count a + e.toList.count a := by
  induction n generalizing v with
  | zero => omega
  | succ n ih =>
      rw [window_one_add, window_one_add, List.count_append, List.count_append]
      by_cases hv : v = i
      · -- the change is here and not behind it
        subst hv
        have hrest : window (Function.update f v e) (v + 1) n = window f (v + 1) n :=
          window_congr fun x h1 _ => Function.update_of_ne (by omega) ..
        rw [Function.update_self, hrest]
        omega
      · have := ih (v := v + 1) (by omega) (by omega)
        rw [Function.update_of_ne hv]
        omega

/-- Changing one value adds at most the new one. -/
theorem count_window_update [DecidableEq α] (f : ℕ → Option α) (i : ℕ) (e : Option α) (v n : ℕ)
    (a : α) : (window (Function.update f i e) v n).count a ≤
      (window f v n).count a + e.toList.count a := by
  by_cases hi : v ≤ i ∧ i < v + n
  · have := count_window_change f e hi.1 hi.2 a
    omega
  · have hsame : window (Function.update f i e) v n = window f v n :=
      window_congr fun x h1 h2 => Function.update_of_ne (by omega) ..
    rw [hsame]
    exact Nat.le_add_right ..

end IntroToOS.Lib

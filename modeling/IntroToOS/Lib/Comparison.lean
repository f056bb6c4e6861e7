import Mathlib.Data.List.Sort

/-! # Comparison functions of a library sort

A comparison function returns an integer whose sign says how two elements compare. What a sort
promises rests on the function being consistent on the array (`Consistent`): the signs of both
orders of a pair are opposite, and the relation is transitive. `Conforming` sorts promise nothing
else. A function that gives the order of the keys (`Compares`) is consistent, and every conforming
sort puts the elements into the order of their keys.
-/

namespace IntroToOS.Lib
set_option autoImplicit false

variable {α κ : Type*} [LinearOrder κ]

/-- On the elements of `base` the sign of `compar` is the order of the keys. -/
structure Compares (compar : α → α → ℤ) (key : α → κ) (base : List α) : Prop where
  neg : ∀ a ∈ base, ∀ b ∈ base, compar a b < 0 ↔ key a < key b
  zero : ∀ a ∈ base, ∀ b ∈ base, compar a b = 0 ↔ key a = key b
  pos : ∀ a ∈ base, ∀ b ∈ base, 0 < compar a b ↔ key b < key a

/-- What a sort asks of a comparison function. -/
structure Consistent (compar : α → α → ℤ) (base : List α) : Prop where
  antisymm : ∀ a ∈ base, ∀ b ∈ base, compar a b < 0 ↔ 0 < compar b a
  trans : ∀ a ∈ base, ∀ b ∈ base, ∀ c ∈ base, compar a b ≤ 0 → compar b c ≤ 0 → compar a c ≤ 0

/-- A sort that does what is asked of it where its comparison function is consistent. -/
structure Conforming (α : Type*) where
  sort : (α → α → ℤ) → List α → List α
  perm : ∀ compar base, Consistent compar base → (sort compar base).Perm base
  sorted : ∀ compar base, Consistent compar base →
    (sort compar base).Pairwise fun a b => compar a b ≤ 0

section
variable {compar : α → α → ℤ} {key : α → κ} {base : List α}

theorem Compares.nonpos (h : Compares compar key base) {a b : α} (ha : a ∈ base) (hb : b ∈ base) :
    compar a b ≤ 0 ↔ key a ≤ key b := by
  rw [← not_lt, h.pos a ha b hb, not_lt]

theorem Compares.consistent (h : Compares compar key base) : Consistent compar base where
  antisymm := by
    intro a ha b hb
    rw [h.neg a ha b hb, h.pos b hb a ha]
  trans := by
    intro a ha b hb c hc hab hbc
    rw [h.nonpos ha hb] at hab
    rw [h.nonpos hb hc] at hbc
    rw [h.nonpos ha hc]
    exact hab.trans hbc

/-- Every conforming sort leaves the elements in the order of their keys. -/
theorem Compares.sorts (h : Compares compar key base) (q : Conforming α) :
    (q.sort compar base).Perm base ∧ (q.sort compar base).Pairwise fun a b => key a ≤ key b := by
  have hperm := q.perm compar base h.consistent
  refine ⟨hperm, (q.sorted compar base h.consistent).imp_of_mem ?_⟩
  intro a b ha hb hab
  exact (h.nonpos (hperm.subset ha) (hperm.subset hb)).mp hab

/-- Two lists in the order of their keys have the same keys when they hold the same elements. -/
theorem keys_eq_of_sorted {l l' : List α} (hperm : l.Perm l')
    (h : l.Pairwise fun a b => key a ≤ key b) (h' : l'.Pairwise fun a b => key a ≤ key b) :
    l.map key = l'.map key := by
  have hmap : (l.map key).Pairwise (· ≤ ·) := List.pairwise_map.mpr h
  have hmap' : (l'.map key).Pairwise (· ≤ ·) := List.pairwise_map.mpr h'
  exact (hperm.map key).eq_of_pairwise (fun a b _ _ hab hba => le_antisymm hab hba) hmap hmap'

end

/-! ## Sorts exist, and promise no more -/

section
variable {compar : α → α → ℤ} {base : List α}

/-- The comparison on the elements of an array. -/
def leOn (compar : α → α → ℤ) (base : List α) (a b : {x // x ∈ base}) : Bool := compar a b ≤ 0

theorem Consistent.sorted_merge (h : Consistent compar base) :
    (((base.attach.mergeSort (leOn compar base)).map Subtype.val).Pairwise
      fun a b => compar a b ≤ 0) := by
  have htrans : ∀ a b c, leOn compar base a b = true → leOn compar base b c = true →
      leOn compar base a c = true := by
    intro a b c hab hbc
    simp only [leOn, decide_eq_true_eq] at hab hbc ⊢
    exact h.trans a a.2 b b.2 c c.2 hab hbc
  have htotal : ∀ a b, (leOn compar base a b || leOn compar base b a) = true := by
    intro a b
    have hanti := h.antisymm b b.2 a a.2
    simp only [leOn, Bool.or_eq_true, decide_eq_true_eq]
    omega
  have hsorted := List.pairwise_mergeSort htrans htotal base.attach
  apply List.pairwise_map.mpr
  apply hsorted.imp
  intro a b hab
  simpa only [leOn, decide_eq_true_eq] using hab

/-- A conforming sort may return anything where its comparison function is not consistent. -/
noncomputable def Conforming.returning (compar : α → α → ℤ) (base r : List α)
    (h : ¬ Consistent compar base) : Conforming α where
  sort := fun f l => open Classical in
    if f = compar ∧ l = base then r else (l.attach.mergeSort (leOn f l)).map Subtype.val
  perm := by
    intro f l hf
    rw [if_neg]
    · have hperm := (List.mergeSort_perm l.attach (leOn f l)).map Subtype.val
      rwa [List.attach_map_subtype_val] at hperm
    · rintro ⟨rfl, rfl⟩
      exact h hf
  sorted := by
    intro f l hf
    rw [if_neg]
    · exact hf.sorted_merge
    · rintro ⟨rfl, rfl⟩
      exact h hf

theorem Conforming.returning_sort (r : List α) (h : ¬ Consistent compar base) :
    (Conforming.returning compar base r h).sort compar base = r := if_pos ⟨rfl, rfl⟩

end

end IntroToOS.Lib

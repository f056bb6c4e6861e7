import Mathlib.Data.List.Rotate
import Mathlib.Data.List.Range

/-! # Going round in a ring

The places of a ring are looked at from some place on, all the way round (`List.rotate`), and some of
them are taken. Going on from behind the first taken place goes through the taken places in the same
cyclic order, that place last.
-/

namespace IntroToOS.Lib
set_option autoImplicit false

section
variable {α β : Type*} {l : List α} {P : α → Bool} {a : ℕ} {x : α} {rest : List α}

/-- The ring from behind its first element that has `P`. -/
theorem filter_rotate (h : (l.rotate a).filter P = x :: rest) :
    ∃ k < l.length, (l.rotate a)[k]? = some x ∧
      (l.rotate (a + (k + 1))).filter P = rest ++ [x] := by
  obtain ⟨l₁, l₂, hl, hbefore, hx, rfl⟩ := List.filter_eq_cons_iff.mp h
  refine ⟨l₁.length, ?_, ?_, ?_⟩
  · rw [← List.length_rotate l a, hl, List.length_append, List.length_cons]
    omega
  · rw [hl, List.getElem?_append_right (Nat.le_refl _), Nat.sub_self, List.getElem?_cons_zero]
  · have hlen : l₁.length + 1 = (l₁ ++ [x]).length := by simp
    have hsplit : l₁ ++ x :: l₂ = (l₁ ++ [x]) ++ l₂ := by simp
    have hnone : l₁.filter P = [] := List.filter_eq_nil_iff.mpr hbefore
    rw [← List.rotate_rotate, hl, hlen, hsplit, List.rotate_append_length_eq, List.filter_append,
      List.filter_append, hnone, List.nil_append, List.filter_singleton, hx, cond_true]

/-- A search that finds just the elements that have `P`. -/
theorem findSome?_eq_of_filter {f : α → Option β} (hf : ∀ y ∈ l, P y = false → f y = none)
    (h : l.filter P = x :: rest) (hx : (f x).isSome) : l.findSome? f = f x := by
  obtain ⟨l₁, l₂, rfl, hbefore, -, -⟩ := List.filter_eq_cons_iff.mp h
  have hnone : l₁.findSome? f = none := List.findSome?_eq_none_iff.mpr fun y hy =>
    hf y (List.mem_append_left _ hy) (by simpa using hbefore y hy)
  obtain ⟨b, hb⟩ := Option.isSome_iff_exists.mp hx
  rw [List.findSome?_append, hnone, Option.none_or, List.findSome?_cons, hb]

/-- In as many turns as the ring has elements, each of them has exactly one. -/
theorem existsUnique_turn (hl : l.Nodup) (hx : x ∈ l) (j : ℕ) :
    ∃! i, (j ≤ i ∧ i < j + l.length) ∧ l[i % l.length]? = some x := by
  have hturn : ∀ k < l.length, (l.rotate j)[k]? = l[(j + k) % l.length]? := fun k hk => by
    rw [List.getElem?_rotate hk, Nat.add_comm]
  obtain ⟨k, hk, hkx⟩ := List.mem_iff_getElem.mp (List.mem_rotate.mpr hx : x ∈ l.rotate j)
  have hlt : k < l.length := by rwa [List.length_rotate] at hk
  have hat : (l.rotate j)[k]? = some x := by rw [List.getElem?_eq_getElem hk, hkx]
  refine ⟨j + k, ⟨⟨Nat.le_add_right j k, Nat.add_lt_add_left hlt j⟩, ?_⟩, ?_⟩
  · rw [← hturn k hlt, hat]
  · rintro i ⟨⟨hle, hi⟩, hix⟩
    obtain ⟨m, rfl⟩ := Nat.exists_eq_add_of_le hle
    have hm : m < l.length := Nat.lt_of_add_lt_add_left hi
    rw [← hturn m hm] at hix
    rw [(List.getElem?_inj hk (List.nodup_rotate.mpr hl)).mp (hat.trans hix.symm)]

end

/-- Places `start` to `n - 1` and then those before `start`. -/
theorem range_rotate {n start : ℕ} (h : start ≤ n) :
    (List.range n).rotate start = List.range' start (n - start) ++ List.range start := by
  rw [List.rotate_eq_drop_append_take (by rwa [List.length_range]), List.take_range,
    Nat.min_eq_left h, List.range_eq_range', List.drop_range', Nat.mul_one, Nat.zero_add]

/-- The place behind the first taken one. -/
theorem range_filter_rotate {n a i : ℕ} {P : ℕ → Bool} {rest : List ℕ}
    (h : ((List.range n).rotate a).filter P = i :: rest) :
    ((List.range n).rotate (i + 1)).filter P = rest ++ [i] := by
  obtain ⟨k, hk, hi, hrest⟩ := filter_rotate h
  have hlt : k < (List.range n).length := hk
  rw [List.getElem?_rotate hlt, List.length_range] at hi
  have hi : i = (k + a) % n := by
    obtain ⟨_, hi⟩ := List.getElem?_eq_some_iff.mp hi
    rw [← hi, List.getElem_range]
  have hmod : (i + 1) % n = (a + (k + 1)) % n := by
    rw [hi, Nat.mod_add_mod, Nat.add_comm k a, Nat.add_assoc]
  rw [← hrest, ← List.rotate_mod (List.range n) (i + 1),
    ← List.rotate_mod (List.range n) (a + (k + 1)), List.length_range, hmod]

end IntroToOS.Lib

import Mathlib.Data.Finset.Basic
import Mathlib.Data.Finset.Insert
import Mathlib.Algebra.Order.Ring.Nat
import Mathlib.Logic.Function.Basic

/-! # Extents

Pieces of a range `[lo, hi)`: the piece at `a` has `len a > 0` bytes, and no two pieces share a byte.
A piece is cut in two, two pieces that touch are joined, and the range grows by a piece.
-/

namespace IntroToOS.Lib
open Function
set_option autoImplicit false

structure Extents (lo hi : ℕ) (len : ℕ → ℕ) (B : Finset ℕ) : Prop where
  inside : ∀ a ∈ B, lo ≤ a ∧ 0 < len a ∧ a + len a ≤ hi
  apart : ∀ a ∈ B, ∀ b ∈ B, a < b → a + len a ≤ b

namespace Extents

variable {lo hi a b n : ℕ} {len len' : ℕ → ℕ} {B : Finset ℕ}

theorem congr (h : Extents lo hi len B) (hlen : ∀ a ∈ B, len' a = len a) : Extents lo hi len' B where
  inside := fun a ha => by
    rw [hlen a ha]
    exact h.inside a ha
  apart := fun a ha b hb => by
    rw [hlen a ha]
    exact h.apart a ha b hb

/-- The only piece that begins at a byte of the piece at `a` is this one. -/
theorem eq_of_mem (h : Extents lo hi len B) (ha : a ∈ B) (hb : b ∈ B) (hle : a ≤ b)
    (hlt : b < a + len a) : a = b := by
  by_contra hne
  have := h.apart a ha b hb (by omega)
  omega

/-- The piece at `a` takes in the one behind it. -/
theorem join (h : Extents lo hi len B) (ha : a ∈ B) (hb : a + len a ∈ B) :
    Extents lo hi (update len a (len a + len (a + len a))) (B.erase (a + len a)) := by
  have hfirst := h.inside a ha
  have hsecond := h.inside _ hb
  constructor
  · intro c hc
    obtain ⟨-, hc⟩ := Finset.mem_erase.mp hc
    by_cases hca : c = a
    · rw [hca, update_self]
      omega
    · rw [update_of_ne hca]
      exact h.inside c hc
  · intro c hc d hd hlt
    have hcB := Finset.mem_of_mem_erase hc
    obtain ⟨hdb, hdB⟩ := Finset.mem_erase.mp hd
    by_cases hca : c = a
    · subst hca
      rw [update_self, ← Nat.add_assoc]
      have hle := h.apart c hcB d hdB hlt
      exact h.apart _ hb d hdB (by omega)
    · rw [update_of_ne hca]
      exact h.apart c hcB d hdB hlt

/-- The last `n` bytes of the piece at `a` become a piece. -/
theorem cut (h : Extents lo hi len B) (ha : a ∈ B) (hn : 0 < n) (hlt : n < len a) :
    Extents lo hi (update (update len a (len a - n)) (a + (len a - n)) n) (insert (a + (len a - n)) B) := by
  have hpiece := h.inside a ha
  have hnew : ∀ c ∈ B, c ≠ a + (len a - n) := by
    rintro c hc rfl
    have := h.eq_of_mem ha hc (by omega) (by omega)
    omega
  have hold : ∀ c ∈ B, update (update len a (len a - n)) (a + (len a - n)) n c =
      if c = a then len a - n else len c := by
    intro c hc
    rw [update_of_ne (hnew c hc), update_apply]
  constructor
  · intro c hc
    rcases Finset.mem_insert.mp hc with rfl | hc
    · rw [update_self]
      omega
    · rw [hold c hc]
      have := h.inside c hc
      split
      · next hca => omega
      · exact this
  · intro c hc d hd hcd
    rcases Finset.mem_insert.mp hc with rfl | hc
    · rw [update_self]
      rcases Finset.mem_insert.mp hd with rfl | hd
      · omega
      · have := h.apart a ha d hd (by omega)
        omega
    · rw [hold c hc]
      rcases Finset.mem_insert.mp hd with rfl | hd
      · split
        · next hca => omega
        · next hca =>
          have hac : c < a := by
            refine Nat.lt_of_not_ge fun hge => hca ?_
            exact (h.eq_of_mem ha hc hge (by omega)).symm
          have := h.apart c hc a ha hac
          omega
      · have := h.apart c hc d hd hcd
        split
        · next hca =>
          rw [hca] at this
          omega
        · exact this

/-- The range grows by a piece of `n` bytes. -/
theorem extend (h : Extents lo hi len B) (hlo : lo ≤ hi) (hn : 0 < n) :
    Extents lo (hi + n) (update len hi n) (insert hi B) := by
  have hold : ∀ c ∈ B, c ≠ hi := by
    rintro c hc rfl
    have := h.inside c hc
    omega
  constructor
  · intro c hc
    rcases Finset.mem_insert.mp hc with rfl | hc
    · rw [update_self]
      omega
    · rw [update_of_ne (hold c hc)]
      have := h.inside c hc
      omega
  · intro c hc d hd hcd
    rcases Finset.mem_insert.mp hc with rfl | hcB
    · rcases Finset.mem_insert.mp hd with rfl | hdB
      · omega
      · have := h.inside d hdB
        omega
    · rw [update_of_ne (hold c hcB)]
      rcases Finset.mem_insert.mp hd with rfl | hdB
      · exact (h.inside c hcB).2.2
      · exact h.apart c hcB d hdB hcd

end Extents

end IntroToOS.Lib

import Mathlib.Algebra.Order.Ring.Nat
import Mathlib.Data.List.Basic
import Mathlib.Logic.Function.Basic

/-! # Ring buffers with free-running counters

`N` cells are written and read at the places `c % N` of 32-bit counters `c` that only count up and
wrap at `2 ^ 32`. When `N` divides `2 ^ 32` the cells between two counters are a queue: writing at
the upper counter appends, reading at the lower one takes the head, and stepping the upper counter
back drops the last element.
-/

namespace IntroToOS.Lib.Ring
set_option autoImplicit false

variable {α : Type*} {N n : ℕ} {data : ℕ → α} {lo : BitVec 32} {x : α}

/-- The cell of a counter. -/
def cell (N : ℕ) (c : BitVec 32) : ℕ := c.toNat % N

/-- The `n` elements from the counter `lo` on. -/
def contents (N : ℕ) (data : ℕ → α) (lo : BitVec 32) (n : ℕ) : List α :=
  (List.range n).map fun i => data (cell N (lo + .ofNat 32 i))

@[simp] theorem length_contents : (contents N data lo n).length = n := by
  simp only [contents, List.length_map, List.length_range]

@[simp] theorem contents_zero : contents N data lo 0 = [] := rfl

theorem cell_add (hN : N ∣ 2 ^ 32) (i : ℕ) : cell N (lo + .ofNat 32 i) = (lo.toNat + i) % N := by
  rw [cell, BitVec.toNat_add, BitVec.toNat_ofNat, Nat.add_mod_mod, Nat.mod_mod_of_dvd _ hN]

/-- Counters that are less than `N` apart have different cells. -/
theorem cell_ne {i j : ℕ} (hN : N ∣ 2 ^ 32) (hij : i < j) (hj : j < i + N) :
    cell N (lo + .ofNat 32 i) ≠ cell N (lo + .ofNat 32 j) := by
  rw [cell_add hN, cell_add hN]
  intro heq
  have hsub : (lo.toNat + j - (lo.toNat + i)) % N = 0 := Nat.sub_mod_eq_zero_of_mod_eq heq.symm
  rw [Nat.add_sub_add_left, Nat.mod_eq_of_lt (by omega)] at hsub
  omega

theorem contents_concat : contents N data lo (n + 1) =
    contents N data lo n ++ [data (cell N (lo + .ofNat 32 n))] := by
  rw [contents, List.range_succ, List.map_append]
  rfl

theorem contents_cons : contents N data lo (n + 1) =
    data (cell N lo) :: contents N data (lo + 1) n := by
  rw [contents, List.range_succ_eq_map, List.map_cons, List.map_map]
  have hzero : lo + BitVec.ofNat 32 0 = lo := BitVec.add_zero lo
  have hsucc : ∀ i, lo + BitVec.ofNat 32 (i + 1) = lo + 1 + BitVec.ofNat 32 i := by
    intro i
    rw [Nat.add_comm, BitVec.ofNat_add, BitVec.add_assoc]
    rfl
  rw [hzero]
  congr 1
  refine List.map_congr_left fun i _ => ?_
  show data (cell N (lo + BitVec.ofNat 32 (i + 1))) = _
  rw [hsucc]

/-- Writing outside of the elements. -/
theorem contents_update (data : ℕ → α) (lo : BitVec 32) (x : α) {i : ℕ} (hN : N ∣ 2 ^ 32) (hi : n ≤ i) (hlt : i < N) :
    contents N (Function.update data (cell N (lo + .ofNat 32 i)) x) lo n =
      contents N data lo n := by
  refine List.map_congr_left fun j hj => ?_
  have hjn := List.mem_range.mp hj
  exact Function.update_of_ne (cell_ne hN (by omega) (by omega)) _ _

/-- A write at the upper counter appends. -/
theorem contents_push (data : ℕ → α) (lo : BitVec 32) (x : α) (hN : N ∣ 2 ^ 32) (hn : n < N) :
    contents N (Function.update data (cell N (lo + .ofNat 32 n)) x) lo (n + 1) =
      contents N data lo n ++ [x] := by
  rw [contents_concat, contents_update data lo x hN (Nat.le_refl n) hn, Function.update_self]

/-- One step back of the upper counter. -/
theorem contents_dropLast : contents N data lo n = (contents N data lo (n + 1)).dropLast := by
  rw [contents_concat, List.dropLast_concat]

theorem contents_append (data : ℕ → α) (lo : BitVec 32) (n m : ℕ) : contents N data lo (n + m) =
    contents N data lo n ++ contents N data (lo + .ofNat 32 n) m := by
  induction m with
  | zero => simp
  | succ m ih =>
      rw [← Nat.add_assoc, contents_concat, ih, List.append_assoc, contents_concat,
        BitVec.ofNat_add, BitVec.add_assoc]

/-- The counters tell how many elements there are. -/
theorem add_ofNat_inj {m : ℕ} (hm : m < 2 ^ 32) (hn : n < 2 ^ 32) :
    lo + .ofNat 32 m = lo + .ofNat 32 n ↔ m = n := by
  rw [BitVec.add_right_inj]
  constructor
  · intro h
    have hval := congrArg BitVec.toNat h
    rwa [BitVec.toNat_ofNat, BitVec.toNat_ofNat, Nat.mod_eq_of_lt hm, Nat.mod_eq_of_lt hn] at hval
  · exact congrArg _

theorem add_ofNat_eq_self (lo : BitVec 32) (hn : n < 2 ^ 32) : lo + .ofNat 32 n = lo ↔ n = 0 := by
  have h : lo + .ofNat 32 n = lo + .ofNat 32 0 ↔ n = 0 := add_ofNat_inj hn (Nat.two_pow_pos 32)
  rwa [show lo + BitVec.ofNat 32 0 = lo from BitVec.add_zero lo] at h

theorem add_succ : lo + .ofNat 32 n + 1 = lo + .ofNat 32 (n + 1) := by
  rw [BitVec.ofNat_add, BitVec.add_assoc]
  rfl

theorem succ_add : lo + 1 + .ofNat 32 n = lo + .ofNat 32 (n + 1) := by
  rw [Nat.add_comm, BitVec.ofNat_add, BitVec.add_assoc]
  rfl

end IntroToOS.Lib.Ring

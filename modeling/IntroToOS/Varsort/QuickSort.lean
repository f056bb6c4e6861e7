import IntroToOS.Lib.Rearrange
import IntroToOS.Varsort.Sort

/-! # The hand-written quick sort

Translated from `Project1a/mannual_sorting_varsort.c`. `mem` is the memory as a table of records,
`arr` the index of the first record of the array, so that `arr[i]` is `mem (arr + i)` and
`&arr[j + 1]` is an index too. The integers `i` and `j` stay between -1 and `N` and so never
overflow. `pivot` is an `int` that every comparison with a key makes unsigned again. What stands at
`arr[0]` is read before the size test; for less than two records it plays no part.
-/

namespace IntroToOS.Varsort
open Lib
set_option autoImplicit false

/-- `SWAP(mem[x], mem[y], tmp_swap)`. -/
def swap (mem : ℤ → RecDataptr) (x y : ℤ) : ℤ → RecDataptr :=
  Function.update (Function.update mem x (mem y)) y (mem x)

/-- `pivot` in a comparison with a key. -/
def unsigned (pivot : ℤ) : ℕ := (BitVec.ofInt 32 pivot).toNat

section
variable (mem : ℤ → RecDataptr) (arr N pivot : ℤ)

/-- `while (arr[++i].key < pivot && i < (N - 1));` -/
def scanUp (i : ℤ) : ℤ :=
  if (mem (arr + (i + 1))).key.toNat < unsigned pivot ∧ i + 1 < N - 1 then scanUp (i + 1)
  else i + 1
termination_by (N - i).toNat

/-- `while (arr[--j].key > pivot && j > 0);` -/
def scanDown (j : ℤ) : ℤ :=
  if unsigned pivot < (mem (arr + (j - 1))).key.toNat ∧ 0 < j - 1 then scanDown (j - 1)
  else j - 1
termination_by j.toNat

theorem lt_scanUp (i : ℤ) : i < scanUp mem arr N pivot i := by
  induction i using scanUp.induct mem arr N pivot with
  | case1 i h ih =>
      rw [scanUp, if_pos h]
      omega
  | case2 i h =>
      rw [scanUp, if_neg h]
      omega

theorem scanDown_lt (j : ℤ) : scanDown mem arr pivot j < j := by
  induction j using scanDown.induct mem arr pivot with
  | case1 j h ih =>
      rw [scanDown, if_pos h]
      omega
  | case2 j h =>
      rw [scanDown, if_neg h]
      omega

theorem scanDown_nonneg {j : ℤ} (hj : 0 < j) : 0 ≤ scanDown mem arr pivot j := by
  induction j using scanDown.induct mem arr pivot with
  | case1 j h ih =>
      rw [scanDown, if_pos h]
      exact ih h.2
  | case2 j h =>
      rw [scanDown, if_neg h]
      omega

end

/-- The swap at the end of a turn. -/
def exchange (mem : ℤ → RecDataptr) (arr i j : ℤ) : ℤ → RecDataptr :=
  if i < j then swap mem (arr + i) (arr + j) else mem

/-- The outer loop: the records afterwards, and `j`. -/
def partition (arr N pivot : ℤ) (mem : ℤ → RecDataptr) (i j : ℤ) : (ℤ → RecDataptr) × ℤ :=
  if i < j then
    partition arr N pivot
      (exchange mem arr (scanUp mem arr N pivot i) (scanDown mem arr pivot j))
      (scanUp mem arr N pivot i) (scanDown mem arr pivot j)
  else (mem, j)
termination_by (j - i).toNat
decreasing_by
  have hi := lt_scanUp mem arr N pivot i
  have hj := scanDown_lt mem arr pivot j
  omega

/-- `j` ends inside the array. -/
theorem partition_bounds (arr N pivot : ℤ) (mem : ℤ → RecDataptr) (i j : ℤ) (hi : 0 ≤ i)
    (hij : i < j) : 0 ≤ (partition arr N pivot mem i j).2 ∧ (partition arr N pivot mem i j).2 < j := by
  induction mem, i, j using partition.induct arr N pivot with
  | case1 mem i j h ih =>
      have hi' := lt_scanUp mem arr N pivot i
      have hj' := scanDown_lt mem arr pivot j
      have hj0 : 0 ≤ scanDown mem arr pivot j := scanDown_nonneg mem arr pivot (by omega)
      rw [partition, if_pos h]
      by_cases hlt : scanUp mem arr N pivot i < scanDown mem arr pivot j
      · obtain ⟨h0, hlt'⟩ := ih (by omega) hlt
        exact ⟨h0, by omega⟩
      · rw [partition, if_neg hlt]
        exact ⟨hj0, hj'⟩
  | case2 mem i j h => exact absurd hij h

def quick_sort (mem : ℤ → RecDataptr) (arr N : ℤ) : ℤ → RecDataptr :=
  let pivot := (mem arr).key.toInt
  if N < 2 then mem
  else if N = 2 then
    if (mem (arr + 1)).key.toNat < (mem arr).key.toNat then swap mem arr (arr + 1) else mem
  else
    let r := partition arr N pivot mem 0 N
    quick_sort (quick_sort (swap r.1 arr (arr + r.2)) arr r.2) (arr + (r.2 + 1)) (N - r.2 - 1)
termination_by N.toNat
decreasing_by
  all_goals
    have hj := partition_bounds arr N (mem arr).key.toInt mem 0 N (Int.le_refl 0) (by omega)
    omega

/-! ## The partition -/

section
variable {mem : ℤ → RecDataptr} {arr N pivot i j x : ℤ}

theorem unsigned_toInt (k : BitVec 32) : unsigned k.toInt = k.toNat := by
  unfold unsigned
  rw [BitVec.ofInt_toInt]

/-- Everything passed over is below the pivot, and the scan stops at the end or at a key that is not. -/
theorem scanUp_spec (mem : ℤ → RecDataptr) (arr N pivot i : ℤ) :
    (∀ x, i < x → x < scanUp mem arr N pivot i → (mem (arr + x)).key.toNat < unsigned pivot) ∧
      (scanUp mem arr N pivot i < N - 1 →
        unsigned pivot ≤ (mem (arr + scanUp mem arr N pivot i)).key.toNat) := by
  induction i using scanUp.induct mem arr N pivot with
  | case1 i h ih =>
      rw [scanUp, if_pos h]
      refine ⟨fun x hx hlt => ?_, ih.2⟩
      by_cases he : x = i + 1
      · rw [he]
        exact h.1
      · exact ih.1 x (by omega) hlt
  | case2 i h =>
      rw [scanUp, if_neg h]
      refine ⟨fun x hx hlt => ?_, fun hlt => ?_⟩
      · omega
      · by_contra hkey
        exact h ⟨by omega, hlt⟩

theorem scanDown_spec (mem : ℤ → RecDataptr) (arr pivot j : ℤ) :
    (∀ x, scanDown mem arr pivot j < x → x < j → unsigned pivot < (mem (arr + x)).key.toNat) ∧
      (0 < scanDown mem arr pivot j →
        (mem (arr + scanDown mem arr pivot j)).key.toNat ≤ unsigned pivot) := by
  induction j using scanDown.induct mem arr pivot with
  | case1 j h ih =>
      rw [scanDown, if_pos h]
      refine ⟨fun x hx hlt => ?_, ih.2⟩
      by_cases he : x = j - 1
      · rw [he]
        exact h.1
      · exact ih.1 x hx (by omega)
  | case2 j h =>
      rw [scanDown, if_neg h]
      refine ⟨fun x hx hlt => ?_, fun hlt => ?_⟩
      · omega
      · by_contra hkey
        exact h ⟨by omega, hlt⟩

/-- Before a turn: the pivot is where it was, up to `i` no key is above it, from `j` on none below. -/
structure Split (arr N pivot : ℤ) (mem : ℤ → RecDataptr) (i j : ℤ) : Prop where
  nonneg : 0 ≤ i
  le : j ≤ N
  first : (mem arr).key.toNat = unsigned pivot
  low : ∀ x, 0 < x → x ≤ i → (mem (arr + x)).key.toNat ≤ unsigned pivot
  high : ∀ x, j ≤ x → x < N → unsigned pivot ≤ (mem (arr + x)).key.toNat

/-- After the last turn: `j` is where the pivot belongs. -/
structure Parted (arr N pivot : ℤ) (mem : ℤ → RecDataptr) (j : ℤ) : Prop where
  nonneg : 0 ≤ j
  lt : j < N
  first : (mem arr).key.toNat = unsigned pivot
  low : ∀ x, 0 < x → x ≤ j → (mem (arr + x)).key.toNat ≤ unsigned pivot
  high : ∀ x, j < x → x < N → unsigned pivot ≤ (mem (arr + x)).key.toNat

theorem swap_left (mem : ℤ → RecDataptr) {x y : ℤ} (h : x ≠ y) : swap mem x y x = mem y := by
  simp [swap, h]

theorem swap_right (mem : ℤ → RecDataptr) (x y : ℤ) : swap mem x y y = mem x := by
  simp [swap]

theorem swap_other (mem : ℤ → RecDataptr) {x y z : ℤ} (hx : z ≠ x) (hy : z ≠ y) :
    swap mem x y z = mem z := by
  simp [swap, hx, hy]

/-- A turn that swaps. -/
theorem Split.turn (h : Split arr N pivot mem i j)
    (hlt : scanUp mem arr N pivot i < scanDown mem arr pivot j) :
    Split arr N pivot (exchange mem arr (scanUp mem arr N pivot i) (scanDown mem arr pivot j))
      (scanUp mem arr N pivot i) (scanDown mem arr pivot j) := by
  have hi := lt_scanUp mem arr N pivot i
  have hj := scanDown_lt mem arr pivot j
  obtain ⟨hup, hstop⟩ := scanUp_spec mem arr N pivot i
  obtain ⟨hdown, hstop'⟩ := scanDown_spec mem arr pivot j
  have hnonneg := h.nonneg
  have hle := h.le
  generalize scanUp mem arr N pivot i = i' at hi hup hstop hlt
  generalize scanDown mem arr pivot j = j' at hj hdown hstop' hlt
  unfold exchange
  rw [if_pos hlt]
  refine ⟨by omega, by omega, ?_, fun x hx hxi => ?_, fun x hx hxN => ?_⟩
  · rw [swap_other mem (by omega) (by omega)]
    exact h.first
  · by_cases he : x = i'
    · rw [he, swap_left mem (by omega)]
      exact hstop' (by omega)
    · rw [swap_other mem (by omega) (by omega)]
      by_cases hxi' : x ≤ i
      · exact h.low x hx hxi'
      · exact Nat.le_of_lt (hup x (by omega) (by omega))
  · by_cases he : x = j'
    · rw [he, swap_right]
      exact hstop (by omega)
    · rw [swap_other mem (by omega) (by omega)]
      by_cases hxj : j ≤ x
      · exact h.high x hxj hxN
      · exact Nat.le_of_lt (hdown x (by omega) (by omega))

/-- The last turn, which does not swap. -/
theorem Split.last (h : Split arr N pivot mem i j) (hij : i < j)
    (hle : scanDown mem arr pivot j ≤ scanUp mem arr N pivot i) :
    Parted arr N pivot mem (scanDown mem arr pivot j) := by
  have hj := scanDown_lt mem arr pivot j
  have hj0 : 0 ≤ scanDown mem arr pivot j :=
    scanDown_nonneg mem arr pivot (by have := h.nonneg; omega)
  obtain ⟨hup, -⟩ := scanUp_spec mem arr N pivot i
  obtain ⟨hdown, hstop'⟩ := scanDown_spec mem arr pivot j
  have hN := h.le
  generalize scanUp mem arr N pivot i = i' at hup hle
  generalize scanDown mem arr pivot j = j' at hj hj0 hdown hstop' hle
  refine ⟨hj0, by omega, h.first, fun x hx hxj => ?_, fun x hx hxN => ?_⟩
  · by_cases he : x = j'
    · rw [he]
      exact hstop' (by omega)
    · by_cases hxi : x ≤ i
      · exact h.low x hx hxi
      · exact Nat.le_of_lt (hup x (by omega) (by omega))
  · by_cases hxj : j ≤ x
    · exact h.high x hxj hxN
    · exact Nat.le_of_lt (hdown x hx (by omega))

/-- The indices of the array. -/
def span (arr N : ℤ) : Set ℤ := Set.Ico arr (arr + N)

theorem partition_parted (h : Split arr N pivot mem i j) (hij : i < j) :
    Parted arr N pivot (partition arr N pivot mem i j).1 (partition arr N pivot mem i j).2 ∧
      Rearranged (span arr N) mem (partition arr N pivot mem i j).1 := by
  induction mem, i, j using partition.induct arr N pivot with
  | case1 mem i j hlt ih =>
      rw [partition, if_pos hlt]
      by_cases hturn : scanUp mem arr N pivot i < scanDown mem arr pivot j
      · obtain ⟨hparted, hre⟩ := ih (h.turn hturn) hturn
        refine ⟨hparted, Rearranged.trans ?_ hre⟩
        have hi := lt_scanUp mem arr N pivot i
        have hj := scanDown_lt mem arr pivot j
        have hnonneg := h.nonneg
        have hle := h.le
        unfold exchange
        rw [if_pos hturn]
        apply Rearranged.swap
        · exact ⟨by omega, by omega⟩
        · exact ⟨by omega, by omega⟩
      · unfold exchange
        rw [if_neg hturn, partition, if_neg hturn]
        exact ⟨h.last hij (by omega), Rearranged.refl _ _⟩
  | case2 mem i j hlt => exact absurd hij hlt

/-! ## The sort -/

/-- The keys of the array do not decrease. -/
def Ascending (mem : ℤ → RecDataptr) (arr N : ℤ) : Prop :=
  ∀ x y, arr ≤ x → x ≤ y → y < arr + N → (mem x).key.toNat ≤ (mem y).key.toNat

theorem span_mono {arr' N' : ℤ} (h : arr ≤ arr') (h' : arr' + N' ≤ arr + N) :
    span arr' N' ⊆ span arr N := by
  intro x hx
  exact ⟨h.trans hx.1, lt_of_lt_of_le hx.2 h'⟩

/-- The pivot goes to `j`: the keys before it are not above it, those behind it not below. -/
theorem Parted.swap (h : Parted arr N pivot mem j) :
    (∀ x ∈ span arr j, (swap mem arr (arr + j) x).key.toNat ≤ unsigned pivot) ∧
      (swap mem arr (arr + j) (arr + j)).key.toNat = unsigned pivot ∧
      ∀ x ∈ span (arr + (j + 1)) (N - j - 1),
        unsigned pivot ≤ (swap mem arr (arr + j) x).key.toNat := by
  have hlt := h.lt
  have hnonneg := h.nonneg
  refine ⟨fun x hx => ?_, ?_, fun x hx => ?_⟩
  · obtain ⟨hle, hxj⟩ := hx
    by_cases he : x = arr
    · rw [he, swap_left mem (by omega)]
      exact h.low j (by omega) (Int.le_refl j)
    · rw [swap_other mem he (by omega)]
      have hlow := h.low (x - arr) (by omega) (by omega)
      rwa [show arr + (x - arr) = x by omega] at hlow
  · rw [swap_right]
    exact h.first
  · obtain ⟨hle, hxN⟩ := hx
    rw [swap_other mem (by omega) (by omega)]
    have hhigh := h.high (x - arr) (by omega) (by omega)
    rwa [show arr + (x - arr) = x by omega] at hhigh

/-- Two sorted parts around the pivot. -/
theorem ascending_join {v : ℕ} (hleft : Ascending mem arr j)
    (hright : Ascending mem (arr + (j + 1)) (N - j - 1))
    (hlow : ∀ x ∈ span arr j, (mem x).key.toNat ≤ v) (hmid : (mem (arr + j)).key.toNat = v)
    (hhigh : ∀ x ∈ span (arr + (j + 1)) (N - j - 1), v ≤ (mem x).key.toNat) :
    Ascending mem arr N := by
  have hle : ∀ x, arr ≤ x → x ≤ arr + j → (mem x).key.toNat ≤ v := by
    intro x hx hxj
    by_cases he : x = arr + j
    · rw [he, hmid]
    · exact hlow x ⟨hx, by omega⟩
  have hge : ∀ x, arr + j ≤ x → x < arr + N → v ≤ (mem x).key.toNat := by
    intro x hx hxN
    by_cases he : x = arr + j
    · rw [he, hmid]
    · exact hhigh x ⟨by omega, by omega⟩
  intro x y hx hxy hy
  by_cases hyj : y < arr + j
  · exact hleft x y hx hxy hyj
  · by_cases hxj : x ≤ arr + j
    · exact (hle x hx hxj).trans (hge y (by omega) hy)
    · exact hright x y (by omega) hxy (by omega)

/-- What is shown of a sort of `N` records from `arr` on. -/
def Sorts (mem mem' : ℤ → RecDataptr) (arr N : ℤ) : Prop :=
  Rearranged (span arr N) mem mem' ∧ Ascending mem' arr N

/-- The two recursive calls sort a partitioned array. -/
theorem sorts_join {mem₁ mem₂ mem₃ : ℤ → RecDataptr} {v : ℕ} (hj : 0 ≤ j) (hjN : j < N)
    (hre : Rearranged (span arr N) mem mem₁) (hlow : ∀ x ∈ span arr j, (mem₁ x).key.toNat ≤ v)
    (hmid : (mem₁ (arr + j)).key.toNat = v)
    (hhigh : ∀ x ∈ span (arr + (j + 1)) (N - j - 1), v ≤ (mem₁ x).key.toNat)
    (hleft : Sorts mem₁ mem₂ arr j) (hright : Sorts mem₂ mem₃ (arr + (j + 1)) (N - j - 1)) :
    Sorts mem mem₃ arr N := by
  obtain ⟨hre1, hasc1⟩ := hleft
  obtain ⟨hre2, hasc2⟩ := hright
  -- the second call leaves the first part and the pivot alone, the first call the rest
  have hkeep : ∀ x, x ≤ arr + j → mem₃ x = mem₂ x := by
    intro x hx
    apply hre2.outside
    intro hmem
    have := hmem.1
    omega
  have hkeep' : ∀ x, arr + j ≤ x → mem₂ x = mem₁ x := by
    intro x hx
    apply hre1.outside
    intro hmem
    have := hmem.2
    omega
  constructor
  · refine hre.trans ((hre1.mono ?_).trans (hre2.mono ?_))
    · exact span_mono (Int.le_refl arr) (by omega)
    · exact span_mono (by omega) (by omega)
  · apply ascending_join (v := v) ?_ hasc2
    · intro x hx
      rw [hkeep x (by have := hx.2; omega)]
      exact hre1.forall_mem (P := fun r => r.key.toNat ≤ v) hlow x hx
    · rw [hkeep _ (Int.le_refl _), hkeep' _ (Int.le_refl _)]
      exact hmid
    · apply hre2.forall_mem (P := fun r => v ≤ r.key.toNat)
      intro x hx
      rw [hkeep' x (by have := hx.1; omega)]
      exact hhigh x hx
    · intro x y hx hxy hy
      rw [hkeep x (by omega), hkeep y (by omega)]
      exact hasc1 x y hx hxy hy

theorem sorts_two (mem : ℤ → RecDataptr) (arr : ℤ) : Sorts mem
    (if (mem (arr + 1)).key.toNat < (mem arr).key.toNat then swap mem arr (arr + 1) else mem) arr 2 := by
  by_cases hlt : (mem (arr + 1)).key.toNat < (mem arr).key.toNat
  · rw [if_pos hlt]
    refine ⟨.swap mem ⟨by omega, by omega⟩ ⟨by omega, by omega⟩, fun x y hx hxy hy => ?_⟩
    by_cases he : x = y
    · rw [he]
    · rw [show x = arr by omega, show y = arr + 1 by omega, swap_left mem (by omega), swap_right]
      exact Nat.le_of_lt hlt
  · rw [if_neg hlt]
    refine ⟨.refl _ _, fun x y hx hxy hy => ?_⟩
    by_cases he : x = y
    · rw [he]
    · rw [show x = arr by omega, show y = arr + 1 by omega]
      exact Nat.le_of_not_lt hlt

theorem quick_sort_spec (mem : ℤ → RecDataptr) (arr N : ℤ) :
    Sorts mem (quick_sort mem arr N) arr N := by
  induction hn : N.toNat using Nat.strong_induction_on generalizing mem arr N with
  | _ n ih =>
      rw [quick_sort]
      by_cases h : N < 2
      · rw [if_pos h]
        refine ⟨.refl _ _, fun x y hx hxy hy => ?_⟩
        rw [show x = y by omega]
      · rw [if_neg h]
        by_cases h2 : N = 2
        · rw [if_pos h2, h2]
          exact sorts_two mem arr
        · rw [if_neg h2]
          have hsplit : Split arr N (mem arr).key.toInt mem 0 N := by
            refine ⟨Int.le_refl 0, Int.le_refl N, (unsigned_toInt _).symm, ?_, ?_⟩
            · intro x hx hx0
              omega
            · intro x hx hxN
              omega
          obtain ⟨hparted, hre⟩ := partition_parted hsplit (by omega)
          obtain ⟨hlow, hmid, hhigh⟩ := hparted.swap
          have hj := hparted.nonneg
          have hjN := hparted.lt
          generalize partition arr N (mem arr).key.toInt mem 0 N = r at *
          have hswap : Rearranged (span arr N) r.1 (Varsort.swap r.1 arr (arr + r.2)) :=
            .swap r.1 ⟨by omega, by omega⟩ ⟨by omega, by omega⟩
          exact sorts_join hj hjN (hre.trans hswap) hlow hmid hhigh (ih _ (by omega) _ _ _ rfl)
            (ih _ (by omega) _ _ _ rfl)

/-- `quick_sort` ends, and leaves the records of the array in the order of their keys; no other
record is touched. -/
theorem quick_sort_sorts (mem : ℤ → RecDataptr) (arr : ℤ) (N : ℕ) :
    (cells (quick_sort mem arr N) arr N).Perm (cells mem arr N) ∧
      ((cells (quick_sort mem arr N) arr N).Pairwise fun r r' => r.key.toNat ≤ r'.key.toNat) ∧
      ∀ x, x < arr ∨ arr + N ≤ x → quick_sort mem arr N x = mem x := by
  obtain ⟨hre, hasc⟩ := quick_sort_spec mem arr N
  refine ⟨hre.cells_perm, ?_, fun x hx => hre.outside ?_⟩
  · unfold cells
    apply List.pairwise_map.mpr
    apply List.pairwise_lt_range.imp_of_mem
    intro i j _ hj hij
    rw [List.mem_range] at hj
    exact hasc _ _ (by omega) (by omega) (by omega)
  · intro hmem
    have h1 := hmem.1
    have h2 := hmem.2
    omega

end

end IntroToOS.Varsort

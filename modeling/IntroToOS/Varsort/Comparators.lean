import IntroToOS.Lib.Comparison
import IntroToOS.Varsort.Sort

/-! # The comparison functions handed to `qsort`

`comparator` of `varsort.c` and the functions of `Project1a/100score_varsort1.c` and
`100score_varsort2.c`. The first two never return a negative number, so they are what `qsort` asks
for on an array of equal keys only; the third returns an unsigned difference as an `int`, which has
the right sign for keys less than `2 ^ 31` apart.
-/

namespace IntroToOS.Varsort
open Lib
set_option autoImplicit false

/-- `comparator` of `100score_varsort1.c`. -/
def Varsort1.comparator (rec1 rec2 : RecDataptr) : ℤ :=
  if rec2.key.toNat < rec1.key.toNat then 1 else 0

/-- `cmpfunc` of `100score_varsort2.c`. -/
def Varsort2.cmpfunc (recA recB : RecDataptr) : ℤ := (recA.key - recB.key).toInt

def keyOf (r : RecDataptr) : ℕ := r.key.toNat

/-- What is claimed of a comparison function on an array of records. -/
structure OrdersKeys (compar : RecDataptr → RecDataptr → ℤ) (base : List RecDataptr) : Prop where
  compares : Compares compar keyOf base
  consistent : Consistent compar base
  sorts : ∀ q : Conforming RecDataptr, (q.sort compar base).Perm base ∧
    (q.sort compar base).Pairwise fun a b => keyOf a ≤ keyOf b

/-- The three programs leave the keys of an array in one order. -/
def SameOrder (base : List RecDataptr) : Prop :=
  ∀ q₁ q₂ q₃ : Conforming RecDataptr,
    (q₁.sort comparator base).map keyOf = (q₂.sort Varsort1.comparator base).map keyOf ∧
      (q₂.sort Varsort1.comparator base).map keyOf = (q₃.sort Varsort2.cmpfunc base).map keyOf

section
variable {compar : RecDataptr → RecDataptr → ℤ} {base : List RecDataptr}

theorem ordersKeys_iff : OrdersKeys compar base ↔ Compares compar keyOf base :=
  ⟨fun h => h.compares, fun h => ⟨h, h.consistent, h.sorts⟩⟩

theorem comparator_compares_iff :
    Compares comparator keyOf base ↔ ∀ a ∈ base, ∀ b ∈ base, a.key = b.key := by
  have hnonneg : ∀ a b, 0 ≤ comparator a b := by
    intro a b
    unfold comparator
    split <;> simp
  constructor
  · intro h a ha b hb
    apply BitVec.eq_of_toNat_eq
    have hab : ¬ keyOf a < keyOf b := fun hlt =>
      Int.not_lt.mpr (hnonneg a b) ((h.neg a ha b hb).mpr hlt)
    have hba : ¬ keyOf b < keyOf a := fun hlt =>
      Int.not_lt.mpr (hnonneg b a) ((h.neg b hb a ha).mpr hlt)
    exact Nat.le_antisymm (Nat.le_of_not_lt hba) (Nat.le_of_not_lt hab)
  · intro h
    have hzero : ∀ a ∈ base, ∀ b ∈ base, comparator a b = 0 := by
      intro a ha b hb
      unfold comparator
      rw [h a ha b hb, if_neg (Nat.lt_irrefl _)]
    refine ⟨?_, ?_, ?_⟩
    all_goals
      intro a ha b hb
      rw [hzero a ha b hb, keyOf, keyOf, h a ha b hb]
      simp

/-- The difference of two keys as an `int`. -/
theorem cmpfunc_eq (a b : RecDataptr) : Varsort2.cmpfunc a b =
    if keyOf b ≤ keyOf a then
      if keyOf a - keyOf b < 2 ^ 31 then ((keyOf a - keyOf b : ℕ) : ℤ)
      else ((keyOf a - keyOf b : ℕ) : ℤ) - 2 ^ 32
    else
      if keyOf b - keyOf a ≤ 2 ^ 31 then -((keyOf b - keyOf a : ℕ) : ℤ)
      else 2 ^ 32 - ((keyOf b - keyOf a : ℕ) : ℤ) := by
  have ha := a.key.isLt
  have hb := b.key.isLt
  unfold Varsort2.cmpfunc keyOf
  rw [BitVec.toInt_eq_toNat_cond, BitVec.toNat_sub]
  generalize a.key.toNat = x at ha
  generalize b.key.toNat = y at hb
  have hmod : (2 ^ 32 - y + x) % 2 ^ 32 = if y ≤ x then x - y else 2 ^ 32 - (y - x) := by
    split <;> omega
  rw [hmod]
  split <;> split <;> split <;> omega

theorem cmpfunc_compares_iff : Compares Varsort2.cmpfunc keyOf base ↔
    ∀ a ∈ base, ∀ b ∈ base, keyOf a < keyOf b + 2 ^ 31 := by
  constructor
  · intro h a ha b hb
    have hpos := h.pos a ha b hb
    rw [cmpfunc_eq] at hpos
    by_contra hfar
    rw [if_pos (by omega), if_neg (by omega)] at hpos
    have hlt := a.key.isLt
    unfold keyOf at hpos hfar
    omega
  · intro h
    have hcmp : ∀ a ∈ base, ∀ b ∈ base, Varsort2.cmpfunc a b = (keyOf a : ℤ) - keyOf b := by
      intro a ha b hb
      have hab := h a ha b hb
      have hba := h b hb a ha
      rw [cmpfunc_eq]
      split <;> split <;> omega
    refine ⟨?_, ?_, ?_⟩
    all_goals
      intro a ha b hb
      rw [hcmp a ha b hb]
      omega

/-- What is claimed of the three programs holds on the arrays of equal keys; `cmpfunc` alone orders
the keys that are less than `2 ^ 31` apart. -/
theorem comparators_iff (base : List RecDataptr) :
    (OrdersKeys comparator base ∧ OrdersKeys Varsort1.comparator base ∧
      OrdersKeys Varsort2.cmpfunc base ∧ SameOrder base ↔
        ∀ a ∈ base, ∀ b ∈ base, a.key = b.key) ∧
      (OrdersKeys comparator base ↔ ∀ a ∈ base, ∀ b ∈ base, a.key = b.key) ∧
      (OrdersKeys Varsort1.comparator base ↔ ∀ a ∈ base, ∀ b ∈ base, a.key = b.key) ∧
      (OrdersKeys Varsort2.cmpfunc base ↔
        ∀ a ∈ base, ∀ b ∈ base, keyOf a < keyOf b + 2 ^ 31) := by
  have hone : OrdersKeys comparator base ↔ ∀ a ∈ base, ∀ b ∈ base, a.key = b.key :=
    ordersKeys_iff.trans comparator_compares_iff
  have htwo : OrdersKeys Varsort1.comparator base ↔ ∀ a ∈ base, ∀ b ∈ base, a.key = b.key := hone
  have hthree : OrdersKeys Varsort2.cmpfunc base ↔
      ∀ a ∈ base, ∀ b ∈ base, keyOf a < keyOf b + 2 ^ 31 :=
    ordersKeys_iff.trans cmpfunc_compares_iff
  refine ⟨⟨fun h => hone.mp h.1, fun h => ?_⟩, hone, htwo, hthree⟩
  have hnear : ∀ a ∈ base, ∀ b ∈ base, keyOf a < keyOf b + 2 ^ 31 := by
    intro a ha b hb
    unfold keyOf
    rw [h a ha b hb]
    omega
  have h1 := hone.mpr h
  have h2 := htwo.mpr h
  have h3 := hthree.mpr hnear
  refine ⟨h1, h2, h3, fun q₁ q₂ q₃ => ⟨?_, ?_⟩⟩
  · exact keys_eq_of_sorted ((h1.sorts q₁).1.trans (h2.sorts q₂).1.symm) (h1.sorts q₁).2 (h2.sorts q₂).2
  · exact keys_eq_of_sorted ((h2.sorts q₂).1.trans (h3.sorts q₃).1.symm) (h2.sorts q₂).2 (h3.sorts q₃).2

end

def keyed (k : BitVec 32) : RecDataptr := ⟨k, 0, 0⟩

/-- With the keys 2 and 1 both comparators call the records in order equal, and a sort that conforms
may leave them as they are; `cmpfunc` puts the largest key before 0. -/
theorem comparators_wrong :
    (¬ OrdersKeys comparator [keyed 2, keyed 1] ∧ comparator (keyed 1) (keyed 2) = 0 ∧
      ∃ q : Conforming RecDataptr, q.sort comparator [keyed 2, keyed 1] = [keyed 2, keyed 1]) ∧
    (¬ OrdersKeys Varsort1.comparator [keyed 2, keyed 1] ∧
      Varsort1.comparator (keyed 1) (keyed 2) = 0) ∧
    ¬ OrdersKeys Varsort2.cmpfunc [keyed 0, keyed 0xffffffff] ∧
      Varsort2.cmpfunc (keyed 0xffffffff) (keyed 0) < 0 := by
  have hbad : ¬ Consistent comparator [keyed 2, keyed 1] := by
    intro h
    have hanti := h.antisymm (keyed 1) (by simp) (keyed 2) (by simp)
    revert hanti
    decide
  have hfar : Varsort2.cmpfunc (keyed 0xffffffff) (keyed 0) < 0 := by decide
  refine ⟨⟨fun h => hbad h.consistent, by decide, ?_⟩, ⟨fun h => hbad h.consistent, by decide⟩,
    fun h => ?_, hfar⟩
  · exact ⟨.returning comparator _ [keyed 2, keyed 1] hbad, Conforming.returning_sort _ hbad⟩
  · have hneg := (h.compares.neg (keyed 0xffffffff) (by simp) (keyed 0) (by simp)).mp hfar
    revert hneg
    decide

end IntroToOS.Varsort

import Mathlib.Data.Fintype.Card
import Mathlib.Logic.Function.Basic

/-! # Tables of slots that hold each value at most once

A table is a map `T : ι → Option α` read on a set `S` of its indices. `Single S T` says that no
value stands in two slots of `S`. Emptying a slot keeps it, and so does storing a value that is
nowhere in the table. A row with as many slots as there are values always has an empty slot left
for a value that is not in the table.
-/

namespace IntroToOS.Lib
set_option autoImplicit false

variable {ι α : Type*}

/-- No value stands in two slots of `S`. -/
def Single (S : ι → Prop) (T : ι → Option α) : Prop :=
  ∀ x y a, S x → S y → T x = some a → T y = some a → x = y

/-- `a` stands in no slot of `S`. -/
def Absent (S : ι → Prop) (T : ι → Option α) (a : α) : Prop := ∀ x, S x → T x ≠ some a

section Update
variable [DecidableEq ι] {S : ι → Prop} {T : ι → Option α} {x : ι} {a b : α}

theorem update_none_eq_some {y : ι} (h : Function.update T x none y = some a) :
    y ≠ x ∧ T y = some a := by
  by_cases hy : y = x
  · subst hy
    simp at h
  · exact ⟨hy, by simpa [Function.update_of_ne hy] using h⟩

theorem Single.clear (h : Single S T) (x : ι) : Single S (Function.update T x none) := by
  intro y z a hy hz hya hza
  exact h y z a hy hz (update_none_eq_some hya).2 (update_none_eq_some hza).2

/-- Emptying the slot of `a` removes `a` from the table. -/
theorem Single.absent_clear (h : Single S T) (hx : S x) (ha : T x = some a) :
    Absent S (Function.update T x none) a := by
  intro y hy hya
  obtain ⟨hne, hT⟩ := update_none_eq_some hya
  exact hne (h y x a hy hx hT ha)

theorem Single.put (h : Single S T) (ha : Absent S T a) (x : ι) :
    Single S (Function.update T x (some a)) := by
  intro y z b hy hz hyb hzb
  by_cases hyx : y = x <;> by_cases hzx : z = x
  · rw [hyx, hzx]
  · subst hyx
    rw [Function.update_self, Option.some.injEq] at hyb
    rw [Function.update_of_ne hzx] at hzb
    exact absurd (hyb ▸ hzb) (ha z hz)
  · subst hzx
    rw [Function.update_self, Option.some.injEq] at hzb
    rw [Function.update_of_ne hyx] at hyb
    exact absurd (hzb ▸ hyb) (ha y hy)
  · rw [Function.update_of_ne hyx] at hyb
    rw [Function.update_of_ne hzx] at hzb
    exact h y z b hy hz hyb hzb

end Update

/-- A row of as many slots as there are values has an empty slot when some value is absent. -/
theorem Single.exists_free [Fintype α] {S : ι → Prop} {T : ι → Option α} {a : α} (h : Single S T)
    (ha : Absent S T a) {n : ℕ} (hn : Fintype.card α ≤ n) (row : Fin n → ι)
    (hrow : Function.Injective row) (hS : ∀ i, S (row i)) : ∃ i, T (row i) = none := by
  classical
  by_contra hfull
  have hsome : ∀ i, ∃ b, T (row i) = some b := fun i =>
    Option.ne_none_iff_exists'.mp fun hi => hfull ⟨i, hi⟩
  choose f hf using hsome
  have hinj : Function.Injective fun i => (⟨f i, fun he => ha _ (hS i) (he ▸ hf i)⟩ : {b // b ≠ a}) := by
    intro i j hij
    have hfij : f i = f j := congrArg Subtype.val hij
    exact hrow (h _ _ (f i) (hS i) (hS j) (hf i) (hfij ▸ hf j))
  have hle := Fintype.card_le_of_injective _ hinj
  have hcard : Fintype.card {b // b ≠ a} = Fintype.card α - 1 := by
    rw [Fintype.card_subtype_compl, Fintype.card_subtype_eq]
  have hpos : 0 < Fintype.card α := Fintype.card_pos_iff.mpr ⟨a⟩
  rw [Fintype.card_fin, hcard] at hle
  omega

end IntroToOS.Lib

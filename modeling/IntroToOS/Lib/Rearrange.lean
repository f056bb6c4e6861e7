import Mathlib

/-! # Rearranging part of a table

`Rearranged S f g` says that `g` is the table `f` with the entries at the indices in `S` put into
another order. A swap of two of these entries is such a rearrangement, and rearrangements compose.
What holds of all entries in `S` holds of them afterwards, and the entries of an interval, as lists,
are permutations of each other.
-/

namespace IntroToOS.Lib
set_option autoImplicit false

variable {ι α : Type*}

def Rearranged (S : Set ι) (f g : ι → α) : Prop :=
  ∃ σ : Equiv.Perm ι, (∀ i, i ∉ S → σ i = i) ∧ g = f ∘ σ

namespace Rearranged
variable {S S' : Set ι} {f g h : ι → α} {i j : ι}

theorem refl (S : Set ι) (f : ι → α) : Rearranged S f f := ⟨1, fun _ _ => rfl, rfl⟩

theorem trans (hfg : Rearranged S f g) (hgh : Rearranged S g h) : Rearranged S f h := by
  obtain ⟨σ, hσ, hg⟩ := hfg
  obtain ⟨τ, hτ, hh⟩ := hgh
  refine ⟨σ * τ, ?_, ?_⟩
  · intro i hi
    rw [Equiv.Perm.mul_apply, hτ i hi, hσ i hi]
  · rw [hh, hg]
    rfl

theorem mono (hfg : Rearranged S f g) (hS : S ⊆ S') : Rearranged S' f g := by
  obtain ⟨σ, hσ, hg⟩ := hfg
  exact ⟨σ, fun i hi => hσ i fun hiS => hi (hS hiS), hg⟩

/-- Two entries are swapped. -/
theorem swap [DecidableEq ι] (f : ι → α) (hi : i ∈ S) (hj : j ∈ S) :
    Rearranged S f (Function.update (Function.update f i (f j)) j (f i)) := by
  refine ⟨Equiv.swap j i, ?_, ?_⟩
  · intro k hk
    apply Equiv.swap_apply_of_ne_of_ne
    · intro hkj
      exact hk (hkj ▸ hj)
    · intro hki
      exact hk (hki ▸ hi)
  · rw [Equiv.comp_swap_eq_update]

theorem outside (hfg : Rearranged S f g) (hi : i ∉ S) : g i = f i := by
  obtain ⟨σ, hσ, hg⟩ := hfg
  rw [hg, Function.comp_apply, hσ i hi]

theorem mem {σ : Equiv.Perm ι} (hσ : ∀ i, i ∉ S → σ i = i) : σ i ∈ S ↔ i ∈ S := by
  constructor
  · intro h
    by_contra hi
    rw [hσ i hi] at h
    exact hi h
  · intro hi
    by_contra h
    have hfix := hσ (σ i) h
    rw [σ.injective hfix] at h
    exact h hi

/-- What holds of every entry in `S` still does. -/
theorem forall_mem (hfg : Rearranged S f g) {P : α → Prop} (hf : ∀ i ∈ S, P (f i)) :
    ∀ i ∈ S, P (g i) := by
  obtain ⟨σ, hσ, hg⟩ := hfg
  intro i hi
  rw [hg, Function.comp_apply]
  exact hf (σ i) ((mem hσ).mpr hi)

end Rearranged

/-- The `n` entries from `a` on. -/
def cells (f : ℤ → α) (a : ℤ) (n : ℕ) : List α := (List.range n).map fun i : ℕ => f (a + i)

theorem Rearranged.cells_perm {f g : ℤ → α} {a : ℤ} {n : ℕ}
    (h : Rearranged (Set.Ico a (a + n)) f g) : (cells g a n).Perm (cells f a n) := by
  obtain ⟨σ, hσ, rfl⟩ := h
  have hindex : ((List.range n).map fun i : ℕ => σ (a + i)).Perm
      ((List.range n).map fun i : ℕ => a + (i : ℤ)) := by
    have hinj : Function.Injective fun i : ℕ => a + (i : ℤ) := by
      intro i j hij
      exact Int.ofNat.inj (Int.add_left_cancel hij)
    apply (List.perm_ext_iff_of_nodup ?_ ?_).mpr
    · intro k
      have hmem : ∀ k : ℤ, (∃ i : ℕ, i < n ∧ a + (i : ℤ) = k) ↔ k ∈ Set.Ico a (a + n) := by
        intro k
        rw [Set.mem_Ico]
        constructor
        · intro ⟨i, hi, hk⟩
          omega
        · intro hk
          exact ⟨(k - a).toNat, by omega, by omega⟩
      simp only [List.mem_map, List.mem_range]
      rw [hmem]
      constructor
      · intro ⟨i, hi, hk⟩
        rw [← hk, Rearranged.mem hσ]
        exact (hmem _).mp ⟨i, hi, rfl⟩
      · intro hk
        have hk' : σ.symm k ∈ Set.Ico a (a + n) := by
          rw [← Rearranged.mem hσ, Equiv.apply_symm_apply]
          exact hk
        obtain ⟨i, hi, he⟩ := (hmem _).mpr hk'
        exact ⟨i, hi, by rw [he, Equiv.apply_symm_apply]⟩
    · exact List.Nodup.map (σ.injective.comp hinj) List.nodup_range
    · exact List.Nodup.map hinj List.nodup_range
  have hmap := hindex.map f
  rw [List.map_map, List.map_map] at hmap
  exact hmap

end IntroToOS.Lib

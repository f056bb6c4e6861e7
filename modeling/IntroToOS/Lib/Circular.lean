import Mathlib.Data.Finset.Max
import Mathlib.Data.Finset.Order
import Mathlib.Dynamics.PeriodicPts.Defs
import Mathlib.Order.Lattice

/-! # Circular lists in order

A finite set whose elements are linked in their order: `next` leads from each element to the least
one above it, and from the greatest to the least of all. Elements are inserted behind a neighbour
and unlinked behind their predecessor; every element is reached from every other.
-/

namespace IntroToOS.Lib
open Function
set_option autoImplicit false

variable {α : Type*} [LinearOrder α] {F : Finset α} {next next' : α → α} {p q b r : α}

structure Circular (F : Finset α) (next : α → α) : Prop where
  mem : ∀ p ∈ F, next p ∈ F
  step : ∀ p ∈ F, (p < next p ∧ ∀ q ∈ F, p < q → next p ≤ q) ∨
    (∀ q ∈ F, q ≤ p) ∧ ∀ q ∈ F, next p ≤ q

/-- `b` belongs between `p` and the element behind it. -/
def Between (next : α → α) (p b : α) : Prop :=
  p < b ∧ b < next p ∨ next p ≤ p ∧ (p < b ∨ b < next p)

instance (next : α → α) (p b : α) : Decidable (Between next p b) :=
  inferInstanceAs (Decidable (_ ∧ _ ∨ _ ∧ (_ ∨ _)))

namespace Circular

theorem congr (h : Circular F next) (hn : ∀ p ∈ F, next' p = next p) : Circular F next' where
  mem := fun p hp => (hn p hp).symm ▸ h.mem p hp
  step := fun p hp => by
    rw [hn p hp]
    exact h.step p hp

theorem singleton (hb : next b = b) : Circular {b} next where
  mem := fun p hp => by
    obtain rfl := Finset.mem_singleton.mp hp
    rw [hb]
    exact hp
  step := fun p hp => by
    obtain rfl := Finset.mem_singleton.mp hp
    refine .inr ⟨fun q hq => ?_, fun q hq => ?_⟩
    · exact (Finset.mem_singleton.mp hq).le
    · rw [hb]
      exact (Finset.mem_singleton.mp hq).ge

/-- Below an element, `next` goes up and not beyond it. -/
theorem next_le (h : Circular F next) (hp : p ∈ F) (hq : q ∈ F) (hlt : p < q) :
    p < next p ∧ next p ≤ q := by
  rcases h.step p hp with ⟨hup, hle⟩ | ⟨hmax, -⟩
  · exact ⟨hup, hle q hq hlt⟩
  · exact absurd (hmax q hq) (not_le.mpr hlt)

/-- Where `next` does not go up, it goes from the greatest element to the least. -/
theorem of_next_le (h : Circular F next) (hp : p ∈ F) (hle : next p ≤ p) :
    (∀ q ∈ F, q ≤ p) ∧ ∀ q ∈ F, next p ≤ q := by
  rcases h.step p hp with ⟨hup, -⟩ | hwrap
  · exact absurd hle (not_le.mpr hup)
  · exact hwrap

theorem eq_of_next_eq (h : Circular F next) (hp : p ∈ F) (he : next p = p) (hq : q ∈ F) : q = p := by
  obtain ⟨hmax, hmin⟩ := h.of_next_le hp he.le
  rw [he] at hmin
  exact le_antisymm (hmax q hq) (hmin q hq)

/-! ## Going round -/

theorem reaches_up (h : Circular F next) (hp : p ∈ F) (hq : q ∈ F) (hle : p ≤ q) :
    ∃ k, next^[k] p = q := by
  -- by induction on the number of elements above `p` and not above `q`
  generalize hn : (F.filter fun r => p < r ∧ r ≤ q).card = n
  induction n using Nat.strongRecOn generalizing p with
  | ind n ih =>
      rcases hle.eq_or_lt with rfl | hlt
      · exact ⟨0, rfl⟩
      · obtain ⟨hup, hnext⟩ := h.next_le hp hq hlt
        have hsub : (F.filter fun r => next p < r ∧ r ≤ q) ⊂ F.filter fun r => p < r ∧ r ≤ q := by
          rw [Finset.ssubset_iff_of_subset]
          · exact ⟨next p, Finset.mem_filter.mpr ⟨h.mem p hp, hup, hnext⟩,
              fun hin => lt_irrefl _ (Finset.mem_filter.mp hin).2.1⟩
          · intro r hr
            obtain ⟨hF, hlo, hhi⟩ := Finset.mem_filter.mp hr
            exact Finset.mem_filter.mpr ⟨hF, hup.trans hlo, hhi⟩
        obtain ⟨k, hk⟩ := ih _ (hn ▸ Finset.card_lt_card hsub) (h.mem p hp) hnext rfl
        exact ⟨k + 1, hk⟩

theorem reaches (h : Circular F next) (hp : p ∈ F) (hq : q ∈ F) : ∃ k, next^[k] p = q := by
  obtain ⟨top, htop, hmax⟩ := Finset.exists_max_image F id ⟨p, hp⟩
  obtain ⟨m, hm⟩ := h.reaches_up hp htop (hmax p hp)
  have hwrap : ∀ r ∈ F, next top ≤ r := by
    rcases h.step top htop with ⟨hup, -⟩ | ⟨-, hmin⟩
    · exact absurd (hmax _ (h.mem top htop)) (not_le.mpr hup)
    · exact hmin
  obtain ⟨n, hn⟩ := h.reaches_up (h.mem top htop) hq (hwrap q hq)
  refine ⟨n + (m + 1), ?_⟩
  rw [iterate_add_apply, iterate_succ_apply', hm, hn]

/-- Going on from behind `r`, every element is met before `r` is passed. -/
theorem reaches_behind (h : Circular F next) (hr : r ∈ F) (hq : q ∈ F) :
    ∃ k, next^[k] (next r) = q ∧ ∀ j < k, next^[j] (next r) ≠ r := by
  classical
  have hex : ∃ k, next^[k] (next r) = q := h.reaches (h.mem r hr) hq
  refine ⟨Nat.find hex, Nat.find_spec hex, fun j hj hback => ?_⟩
  -- once round would have met `q` earlier
  have hlater := Nat.find_spec hex
  have hsplit : Nat.find hex = (Nat.find hex - j - 1) + (1 + j) := by omega
  rw [hsplit, iterate_add_apply, iterate_add_apply, hback] at hlater
  exact Nat.find_min hex (by omega) hlater

theorem iterate_mem (h : Circular F next) (hp : p ∈ F) (k : ℕ) : next^[k] p ∈ F := by
  induction k with
  | zero => exact hp
  | succ k ih =>
      rw [iterate_succ_apply']
      exact h.mem _ ih

/-- There is a place for every new element. -/
theorem exists_between (h : Circular F next) (hne : F.Nonempty) (hb : b ∉ F) :
    ∃ p ∈ F, Between next p b := by
  have hmem : ∀ q ∈ F, q ≠ b := fun q hq he => hb (he ▸ hq)
  by_cases hlow : ∃ q ∈ F, q < b
  · -- behind the greatest element below `b`
    obtain ⟨q, hq, hqb⟩ := hlow
    have hfilter : (F.filter (· < b)).Nonempty := ⟨q, Finset.mem_filter.mpr ⟨hq, hqb⟩⟩
    obtain ⟨p, hp, hmax⟩ := Finset.exists_max_image (F.filter (· < b)) id hfilter
    obtain ⟨hpF, hpb⟩ := Finset.mem_filter.mp hp
    refine ⟨p, hpF, ?_⟩
    rcases h.step p hpF with ⟨hup, -⟩ | ⟨htop, -⟩
    · left
      refine ⟨hpb, lt_of_le_of_ne ?_ (hmem _ (h.mem p hpF)).symm⟩
      by_contra hlt
      exact absurd (hmax _ (Finset.mem_filter.mpr ⟨h.mem p hpF, not_le.mp hlt⟩)) (not_le.mpr hup)
    · exact .inr ⟨htop _ (h.mem p hpF), .inl hpb⟩
  · -- in front of the least one
    push Not at hlow
    obtain ⟨p, hp, hmax⟩ := Finset.exists_max_image F id hne
    have hnext := h.mem p hp
    exact ⟨p, hp, .inr ⟨hmax _ hnext, .inr (lt_of_le_of_ne (hlow _ hnext) (hmem _ hnext).symm)⟩⟩

/-! ## Changes -/

theorem insert (h : Circular F next) (hp : p ∈ F) (hb : b ∉ F) (hbetween : Between next p b) :
    Circular (insert b F) (update (update next b (next p)) p b) := by
  have hne : b ≠ p := fun he => hb (he ▸ hp)
  have hatp : update (update next b (next p)) p b p = b := update_self ..
  have hatb : update (update next b (next p)) p b b = next p := by
    rw [update_of_ne hne, update_self]
  have hat : ∀ q ∈ F, q ≠ p → update (update next b (next p)) p b q = next q := by
    intro q hq hqp
    have hqb : q ≠ b := fun he => hb (he ▸ hq)
    rw [update_of_ne hqp, update_of_ne hqb]
  have hnext := h.mem p hp
  constructor
  · intro q hq
    rcases Finset.mem_insert.mp hq with rfl | hq
    · rw [hatb]
      exact Finset.mem_insert_of_mem hnext
    · by_cases hqp : q = p
      · rw [hqp, hatp]
        exact Finset.mem_insert_self ..
      · rw [hat q hq hqp]
        exact Finset.mem_insert_of_mem (h.mem q hq)
  · intro q hq
    simp only [Finset.forall_mem_insert]
    rcases Finset.mem_insert.mp hq with rfl | hq
    · -- the new element
      rw [hatb]
      rcases hbetween with ⟨hlo, hhi⟩ | ⟨hwrap, hend⟩
      · exact .inl ⟨hhi, fun hlt => absurd hlt (lt_irrefl _),
          fun r hr hlt => (h.next_le hp hr (hlo.trans hlt)).2⟩
      · obtain ⟨hmax, hmin⟩ := h.of_next_le hp hwrap
        rcases hend with hlo | hhi
        · exact .inr ⟨⟨le_rfl, fun r hr => (hmax r hr).trans hlo.le⟩, hwrap.trans hlo.le, hmin⟩
        · exact .inl ⟨hhi, fun hlt => absurd hlt (lt_irrefl _), fun r hr _ => hmin r hr⟩
    · by_cases hqp : q = p
      · -- its predecessor
        rw [hqp, hatp]
        rcases hbetween with ⟨hlo, hhi⟩ | ⟨hwrap, hend⟩
        · exact .inl ⟨hlo, fun _ => le_rfl, fun r hr hlt => hhi.le.trans (h.next_le hp hr hlt).2⟩
        · obtain ⟨hmax, hmin⟩ := h.of_next_le hp hwrap
          rcases hend with hlo | hhi
          · exact .inl ⟨hlo, fun _ => le_rfl, fun r hr hlt => absurd (hmax r hr) (not_le.mpr hlt)⟩
          · exact .inr ⟨⟨hhi.le.trans hwrap, hmax⟩, le_rfl, fun r hr => hhi.le.trans (hmin r hr)⟩
      · rw [hat q hq hqp]
        rcases h.step q hq with ⟨hup, hle⟩ | ⟨hmax, hmin⟩
        · refine .inl ⟨hup, fun hlt => ?_, hle⟩
          rcases hbetween with ⟨hlo, hhi⟩ | ⟨hwrap, hend⟩
          · have hqlt : q < p := by
              refine lt_of_not_ge fun hpq => ?_
              have hjump := (h.next_le hp hq (lt_of_le_of_ne hpq (Ne.symm hqp))).2
              exact absurd (hhi.trans_le hjump) (not_lt.mpr hlt.le)
            exact (hle p hp hqlt).trans hlo.le
          · obtain ⟨htop, hbottom⟩ := h.of_next_le hp hwrap
            have hqlt : q < p := lt_of_le_of_ne (htop q hq) hqp
            rcases hend with hlo | hhi
            · exact (hle p hp hqlt).trans hlo.le
            · exact absurd (hhi.trans_le (hbottom q hq)) (not_lt.mpr hlt.le)
        · rcases hbetween with ⟨hlo, hhi⟩ | ⟨hwrap, -⟩
          · exact .inr ⟨⟨hhi.le.trans (hmax _ hnext), hmax⟩, (hmin p hp).trans hlo.le, hmin⟩
          · exact absurd (le_antisymm ((h.of_next_le hp hwrap).1 q hq) (hmax p hp)) hqp

/-- The element behind `p` is unlinked. -/
theorem erase (h : Circular F next) (hp : p ∈ F) (hne : next p ≠ p) :
    Circular (F.erase (next p)) (update next p (next (next p))) := by
  have hb := h.mem p hp
  have hafter := h.mem _ hb
  have hat : ∀ q, q ≠ p → update next p (next (next p)) q = next q := fun q hq => update_of_ne hq ..
  -- the element behind the unlinked one is another one
  have hne' : next (next p) ≠ next p := fun he => hne (h.eq_of_next_eq hb he hp).symm
  have hinj : ∀ q ∈ F, q ≠ p → next q ≠ next p := by
    intro q hq hqp he
    rcases lt_or_gt_of_ne hqp with hlt | hlt
    · obtain ⟨hup, hle⟩ := h.next_le hq hp hlt
      rw [he] at hup hle
      obtain ⟨-, hmin⟩ := h.of_next_le hp hle
      exact absurd (hmin q hq) (not_le.mpr hup)
    · obtain ⟨hup, hle⟩ := h.next_le hp hq hlt
      rw [← he] at hup hle
      obtain ⟨-, hmin⟩ := h.of_next_le hq hle
      exact absurd (hmin p hp) (not_le.mpr hup)
  constructor
  · intro q hq
    obtain ⟨hqb, hq⟩ := Finset.mem_erase.mp hq
    by_cases hqp : q = p
    · rw [hqp, update_self]
      exact Finset.mem_erase.mpr ⟨hne', hafter⟩
    · rw [hat q hqp]
      exact Finset.mem_erase.mpr ⟨hinj q hq hqp, h.mem q hq⟩
  · intro q hq
    obtain ⟨hqb, hq⟩ := Finset.mem_erase.mp hq
    by_cases hqp : q = p
    · rw [hqp, update_self]
      rcases h.step p hp with ⟨hup, hle⟩ | ⟨hmax, hmin⟩
      · rcases h.step _ hb with ⟨hup', hle'⟩ | ⟨hmax', hmin'⟩
        · refine .inl ⟨hup.trans hup', fun r hr hlt => ?_⟩
          obtain ⟨hrb, hr⟩ := Finset.mem_erase.mp hr
          exact hle' r hr (lt_of_le_of_ne (hle r hr hlt) (Ne.symm hrb))
        · refine .inr ⟨fun r hr => ?_, fun r hr => hmin' r (Finset.mem_of_mem_erase hr)⟩
          obtain ⟨hrb, hr⟩ := Finset.mem_erase.mp hr
          refine le_of_not_gt fun hlt => hrb ?_
          exact le_antisymm (hmax' r hr) (hle r hr hlt)
      · refine .inr ⟨fun r hr => hmax r (Finset.mem_of_mem_erase hr), fun r hr => ?_⟩
        obtain ⟨hrb, hr⟩ := Finset.mem_erase.mp hr
        exact (h.next_le hb hr (lt_of_le_of_ne (hmin r hr) (Ne.symm hrb))).2
    · rw [hat q hqp]
      rcases h.step q hq with ⟨hup, hle⟩ | ⟨hmax, hmin⟩
      · exact .inl ⟨hup, fun r hr => hle r (Finset.mem_of_mem_erase hr)⟩
      · exact .inr ⟨fun r hr => hmax r (Finset.mem_of_mem_erase hr),
          fun r hr => hmin r (Finset.mem_of_mem_erase hr)⟩

end Circular

end IntroToOS.Lib

import Mathlib.Data.Option.Basic

/-! # Mutual exclusion

`Exclusive lock inside` says that the holder of `lock` is the one party that is inside a critical
section. A step of a party acquires the lock, releases it, or leaves both as they are.
-/

namespace IntroToOS.Lib
set_option autoImplicit false

variable {T : Type*} {lock : Option T} {inside inside' : T → Prop} {t u : T}

def Exclusive (lock : Option T) (inside : T → Prop) : Prop := ∀ t, lock = some t ↔ inside t

namespace Exclusive

theorem holds (h : Exclusive lock inside) (ht : inside t) : lock = some t := (h t).mpr ht

theorem unique (h : Exclusive lock inside) (ht : inside t) (hu : inside u) : t = u :=
  Option.some.inj ((h.holds ht).symm.trans (h.holds hu))

theorem not_inside (h : Exclusive none inside) (t : T) : ¬ inside t := by
  intro ht
  cases h.holds ht

theorem keep (h : Exclusive lock inside) (hsame : ∀ u, inside' u ↔ inside u) :
    Exclusive lock inside' := fun u => (h u).trans (hsame u).symm

theorem acquire (h : Exclusive none inside) (ht : inside' t)
    (hother : ∀ u, u ≠ t → (inside' u ↔ inside u)) : Exclusive (some t) inside' := by
  intro u
  by_cases hu : u = t
  · subst hu
    exact ⟨fun _ => ht, fun _ => rfl⟩
  · refine ⟨fun hsome => absurd (Option.some.inj hsome).symm hu, fun hin => ?_⟩
    exact absurd ((hother u hu).mp hin) (h.not_inside u)

theorem release (h : Exclusive lock inside) (hin : inside t) (ht : ¬ inside' t)
    (hother : ∀ u, u ≠ t → (inside' u ↔ inside u)) : Exclusive none inside' := by
  intro u
  refine ⟨fun hnone => (by cases hnone), fun hu => ?_⟩
  by_cases hut : u = t
  · exact absurd (hut ▸ hu) ht
  · exact absurd (h.unique ((hother u hut).mp hu) hin) hut

end Exclusive

end IntroToOS.Lib

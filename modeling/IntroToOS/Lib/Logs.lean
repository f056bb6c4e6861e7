import Mathlib.Data.List.Basic

/-! # Logs of several processes

A log records what happens together with the process that does it. `ofProc t` is the part of one
process.
-/

namespace IntroToOS.Lib
set_option autoImplicit false

variable {T α : Type*} [DecidableEq T] {t u : T} {l : List (T × α)} {x : α}

def ofProc (t : T) (l : List (T × α)) : List α := (l.filter fun x => x.1 = t).map Prod.snd

theorem ofProc_append {l' : List (T × α)} : ofProc t (l ++ l') = ofProc t l ++ ofProc t l' := by
  rw [ofProc, List.filter_append, List.map_append, ← ofProc, ← ofProc]

theorem ofProc_concat_self : ofProc t (l ++ [(t, x)]) = ofProc t l ++ [x] := by
  simp [ofProc]

theorem ofProc_concat_of_ne (h : u ≠ t) : ofProc u (l ++ [(t, x)]) = ofProc u l := by
  simp [ofProc, h.symm]

/-- What one process has done at once. -/
theorem ofProc_tag_self {xs : List α} : ofProc t (xs.map fun x => (t, x)) = xs := by
  induction xs with
  | nil => rfl
  | cons x xs ih => simp_all [ofProc]

theorem ofProc_tag_of_ne {xs : List α} (h : u ≠ t) : ofProc u (xs.map fun x => (t, x)) = [] := by
  induction xs with
  | nil => rfl
  | cons x xs ih => simp_all [ofProc, h.symm]

end IntroToOS.Lib

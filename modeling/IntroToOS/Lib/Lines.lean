import Mathlib.Data.List.Basic

/-! # Lines of bounded length

A reader with a buffer cuts a stream into pieces that end after a terminator `nl`, or earlier when
the piece has reached the length `k`.
-/

namespace IntroToOS.Lib
set_option autoImplicit false

section
variable {α : Type*} [DecidableEq α]

/-- The first piece of a stream. -/
def cut (nl : α) : ℕ → List α → List α
  | 0, _ => []
  | _ + 1, [] => []
  | k + 1, c :: s => if c = nl then [c] else c :: cut nl k s

variable {nl : α} {k : ℕ} {s l : List α}

@[simp] theorem cut_nil (nl : α) (k : ℕ) : cut nl k [] = [] := by
  cases k <;> rfl

theorem cut_append_drop (nl : α) (k : ℕ) (s : List α) :
    cut nl k s ++ s.drop (cut nl k s).length = s := by
  induction k generalizing s with
  | zero => rfl
  | succ k ih =>
      cases s with
      | nil => rfl
      | cons c s =>
          rw [cut]
          by_cases hc : c = nl
          · rw [if_pos hc]
            rfl
          · rw [if_neg hc, List.length_cons, List.drop_succ_cons, List.cons_append, ih]

theorem length_cut_le (nl : α) (k : ℕ) (s : List α) : (cut nl k s).length ≤ k := by
  induction k generalizing s with
  | zero => exact Nat.le_refl 0
  | succ k ih =>
      cases s with
      | nil => exact Nat.zero_le _
      | cons c s =>
          rw [cut]
          by_cases hc : c = nl
          · simp [hc]
          · rw [if_neg hc, List.length_cons]
            exact Nat.succ_le_succ (ih s)

theorem cut_ne_nil (nl : α) (hk : 0 < k) (hs : s ≠ []) : cut nl k s ≠ [] := by
  obtain ⟨k, rfl⟩ : ∃ m, k = m + 1 := ⟨k - 1, by omega⟩
  cases s with
  | nil => exact absurd rfl hs
  | cons c s =>
      rw [cut]
      by_cases hc : c = nl
      · simp [hc]
      · simp [hc]

/-- A terminator in a piece is its end. -/
theorem cut_eq_of_mem (h : nl ∈ cut nl k s) : ∃ l, cut nl k s = l ++ [nl] ∧ nl ∉ l := by
  induction k generalizing s with
  | zero => cases h
  | succ k ih =>
      cases s with
      | nil => cases h
      | cons c s =>
          rw [cut] at h ⊢
          by_cases hc : c = nl
          · rw [if_pos hc]
            exact ⟨[], by simp [hc], by simp⟩
          · rw [if_neg hc] at h ⊢
            obtain h | h := List.mem_cons.mp h
            · exact absurd h.symm hc
            · obtain ⟨l, hl, hnl⟩ := ih h
              refine ⟨c :: l, by rw [hl, List.cons_append], ?_⟩
              rw [List.mem_cons, not_or]
              exact ⟨fun he => hc he.symm, hnl⟩

theorem length_cut_le_length (nl : α) (k : ℕ) (s : List α) : (cut nl k s).length ≤ s.length := by
  have h := congrArg List.length (cut_append_drop nl k s)
  rw [List.length_append] at h
  omega

/-- A shorter bound cuts the piece shorter. -/
theorem cut_eq_take {m : ℕ} (h : k ≤ m) : cut nl k s = (cut nl m s).take k := by
  induction k generalizing m s with
  | zero => rfl
  | succ k ih =>
      obtain ⟨m, rfl⟩ : ∃ n, m = n + 1 := ⟨m - 1, by omega⟩
      cases s with
      | nil => rfl
      | cons c s =>
          rw [cut, cut]
          by_cases hc : c = nl
          · simp [hc]
          · rw [if_neg hc, if_neg hc, List.take_succ_cons, ih (Nat.le_of_succ_le_succ h)]

/-- A bound that the stream does not reach does not matter. -/
theorem cut_eq_of_le {m : ℕ} (hk : s.length ≤ k) (hm : k ≤ m) : cut nl k s = cut nl m s := by
  rw [cut_eq_take hm, List.take_of_length_le]
  exact Nat.le_trans (length_cut_le_length nl m s) hk

/-- A piece is the beginning of a line. -/
theorem cut_eq_take_line (nl : α) (k : ℕ) (s : List α) : cut nl k s = (cut nl s.length s).take k := by
  by_cases hk : k ≤ s.length
  · exact cut_eq_take hk
  · have hlength := length_cut_le_length nl s.length s
    rw [List.take_of_length_le (by omega)]
    exact (cut_eq_of_le (Nat.le_refl _) (by omega)).symm

/-- The pieces of a stream. -/
def pieces (nl : α) (k : ℕ) (s : List α) : List (List α) :=
  if _h : 0 < k ∧ s ≠ [] then cut nl k s :: pieces nl k (s.drop (cut nl k s).length) else []
termination_by s.length
decreasing_by
  have hcut := List.length_pos_iff.mpr (cut_ne_nil nl _h.1 _h.2)
  have hs := List.length_pos_iff.mpr _h.2
  rw [List.length_drop]
  omega

@[simp] theorem pieces_nil (nl : α) (k : ℕ) : pieces nl k [] = [] := by
  rw [pieces, dif_neg (fun h => h.2 rfl)]

theorem pieces_of_ne_nil (hk : 0 < k) (hs : s ≠ []) :
    pieces nl k s = cut nl k s :: pieces nl k (s.drop (cut nl k s).length) := by
  rw [pieces, dif_pos ⟨hk, hs⟩]

theorem pieces_eq_of_le {m : ℕ} (hk : s.length ≤ k) (hm : k ≤ m) : pieces nl k s = pieces nl m s := by
  obtain ⟨len, hlen⟩ : ∃ len, s.length = len := ⟨_, rfl⟩
  induction len using Nat.strongRecOn generalizing s with
  | ind len ih =>
      by_cases hs : s = []
      · rw [hs, pieces_nil, pieces_nil]
      · have hpos := List.length_pos_iff.mpr hs
        have hcut := List.length_pos_iff.mpr (cut_ne_nil nl (k := m) (by omega) hs)
        have hdrop : (s.drop (cut nl m s).length).length < len := by
          rw [List.length_drop]
          omega
        rw [pieces_of_ne_nil (by omega) hs, pieces_of_ne_nil (by omega) hs, cut_eq_of_le hk hm,
          ih _ hdrop (by omega) rfl]

/-- The lines of a stream, each with its terminator; the last one may have none. -/
def lines (nl : α) (s : List α) : List (List α) := pieces nl s.length s

@[simp] theorem lines_nil (nl : α) : lines nl [] = [] := pieces_nil nl 0

theorem lines_of_ne_nil (hs : s ≠ []) :
    lines nl s = cut nl s.length s :: lines nl (s.drop (cut nl s.length s).length) := by
  rw [lines, pieces_of_ne_nil (List.length_pos_iff.mpr hs) hs, lines]
  congr 1
  refine (pieces_eq_of_le (Nat.le_refl _) ?_).symm
  rw [List.length_drop]
  exact Nat.sub_le ..

end

end IntroToOS.Lib

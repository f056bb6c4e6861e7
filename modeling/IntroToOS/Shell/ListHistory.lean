import IntroToOS.Shell.ListOps

/-! # Histories of the linked list -/

namespace IntroToOS.Shell
open Lib LinkedList
set_option autoImplicit false

variable {δ : Type} {s s' : LinkedList δ} {l l₁ l₂ : List (Addr × δ)} {x : Addr × δ}
variable {p : Option Addr} {turns k : ℕ}

/-! ## More turns do not change a result -/

theorem deleteFrom_mono [DecidableEq δ] {key : δ} (hle : turns ≤ k)
    (h : s.deleteFrom key turns p = some s') : s.deleteFrom key k p = some s' := by
  induction turns generalizing k p with
  | zero =>
      cases p with
      | none => cases k <;> exact h
      | some itr => cases h
  | succ turns ih =>
      obtain ⟨k, rfl⟩ : ∃ m, k = m + 1 := ⟨k - 1, by omega⟩
      cases p with
      | none => exact h
      | some itr =>
          rw [deleteFrom] at h ⊢
          obtain ⟨n, hn, h⟩ := Option.bind_eq_some_iff.mp h
          rw [hn, Option.bind_some]
          by_cases hkey : n.data = key
          · rwa [if_pos hkey] at h ⊢
          · rw [if_neg hkey] at h ⊢
            exact ih (by omega) h

theorem findFrom_mono {f : δ → ℕ} {r : Option Addr} (hle : turns ≤ k)
    (h : s.findFrom f turns p = some r) : s.findFrom f k p = some r := by
  induction turns generalizing k p with
  | zero =>
      cases p with
      | none => cases k <;> exact h
      | some itr => cases h
  | succ turns ih =>
      obtain ⟨k, rfl⟩ : ∃ m, k = m + 1 := ⟨k - 1, by omega⟩
      cases p with
      | none => exact h
      | some itr =>
          rw [findFrom] at h ⊢
          obtain ⟨n, hn, h⟩ := Option.bind_eq_some_iff.mp h
          rw [hn, Option.bind_some]
          by_cases hf : f n.data = 1
          · rwa [if_pos hf] at h ⊢
          · rw [if_neg hf] at h ⊢
            exact ih (by omega) h

theorem freeFrom_mono (hle : turns ≤ k) (h : s.freeFrom turns p = some s') :
    s.freeFrom k p = some s' := by
  induction turns generalizing k p s with
  | zero =>
      cases p with
      | none => cases k <;> exact h
      | some itr => cases h
  | succ turns ih =>
      obtain ⟨k, rfl⟩ : ∃ m, k = m + 1 := ⟨k - 1, by omega⟩
      cases p with
      | none => exact h
      | some itr =>
          rw [freeFrom] at h ⊢
          obtain ⟨n, hn, h⟩ := Option.bind_eq_some_iff.mp h
          obtain ⟨s₁, h₁, h⟩ := Option.bind_eq_some_iff.mp h
          obtain ⟨s₂, h₂, h⟩ := Option.bind_eq_some_iff.mp h
          obtain ⟨s₃, h₃, h⟩ := Option.bind_eq_some_iff.mp h
          rw [hn, Option.bind_some]
          dsimp only
          rw [h₁, Option.bind_some, h₂, Option.bind_some, h₃, Option.bind_some]
          exact ih (by omega) h

theorem sizeFrom_mono {count r : BitVec 32} (hle : turns ≤ k)
    (h : s.sizeFrom turns p count = some r) : s.sizeFrom k p count = some r := by
  induction turns generalizing k p count with
  | zero =>
      cases p with
      | none => cases k <;> exact h
      | some itr => cases h
  | succ turns ih =>
      obtain ⟨k, rfl⟩ : ∃ m, k = m + 1 := ⟨k - 1, by omega⟩
      cases p with
      | none => exact h
      | some itr =>
          rw [sizeFrom] at h ⊢
          obtain ⟨n, hn, h⟩ := Option.bind_eq_some_iff.mp h
          rw [hn, Option.bind_some]
          exact ih (by omega) h

theorem exec_mono [DecidableEq δ] {c : Call δ} {r : LinkedList δ × Result} (hle : turns ≤ k)
    (h : exec turns s c = some r) : exec k s c = some r := by
  cases c with
  | insert_head new data => exact h
  | insert_tail new data => exact h
  | delete_head => exact h
  | delete_tail => exact h
  | delete_node key =>
      obtain ⟨s', hs', rfl⟩ := Option.map_eq_some_iff.mp h
      refine Option.map_eq_some_iff.mpr ⟨s', ?_, rfl⟩
      rw [ll_delete_node] at hs' ⊢
      by_cases hhead : s.head = none
      · rwa [if_pos hhead] at hs' ⊢
      rw [if_neg hhead] at hs' ⊢
      obtain ⟨head, hh, hs'⟩ := Option.bind_eq_some_iff.mp hs'
      rw [hh, Option.bind_some]
      by_cases hkey : head.data = key
      · rwa [if_pos hkey] at hs' ⊢
      rw [if_neg hkey] at hs' ⊢
      obtain ⟨tail, ht, hs'⟩ := Option.bind_eq_some_iff.mp hs'
      rw [ht, Option.bind_some]
      by_cases hkey' : tail.data = key
      · rwa [if_pos hkey'] at hs' ⊢
      rw [if_neg hkey'] at hs' ⊢
      exact deleteFrom_mono hle hs'
  | free =>
      obtain ⟨s', hs', rfl⟩ := Option.map_eq_some_iff.mp h
      refine Option.map_eq_some_iff.mpr ⟨s', ?_, rfl⟩
      rw [ll_free] at hs' ⊢
      by_cases hhead : s.head = none
      · rwa [if_pos hhead] at hs' ⊢
      · rw [if_neg hhead] at hs' ⊢
        exact freeFrom_mono hle hs'
  | find key compare =>
      obtain ⟨p, hp, rfl⟩ := Option.map_eq_some_iff.mp h
      exact Option.map_eq_some_iff.mpr ⟨p, findFrom_mono hle hp, rfl⟩
  | size =>
      obtain ⟨n, hn, rfl⟩ := Option.map_eq_some_iff.mp h
      exact Option.map_eq_some_iff.mpr ⟨n, sizeFrom_mono hle hn, rfl⟩

/-! ## Every history -/

/-- What a call does to the sequence, and what it returns. -/
def Effect (l : List (Addr × δ)) : Call δ → List (Addr × δ) → Result → Prop
  | .insert_head new data, l', r => l' = (new, data) :: l ∧ r = .void
  | .insert_tail new data, l', r => l' = l ++ [(new, data)] ∧ r = .void
  | .delete_head, l', r => l' = l.tail ∧ r = .void
  | .delete_tail, l', r => l' = l.dropLast ∧ r = .void
  | .delete_node key, l', r => Deleted key l l' ∧ r = .void
  | .free, l', r => l' = [] ∧ r = .void
  | .find key compare, l', r =>
    l' = l ∧ r = .node ((l.find? fun x => compare key x.2 = 1).map Prod.fst)
  | .size, l', r => l' = l ∧ r = .size (BitVec.ofNat 32 l.length)

/-- A call on a represented list does not fault, and has its effect. -/
theorem exec_rep [DecidableEq δ] (h : Rep s l) (c : Call δ) (hfresh : Fresh s c)
    (hturns : l.length ≤ turns) :
    ∃ s' r l', exec turns s c = some (s', r) ∧ Effect l c l' r ∧ Rep s' l' := by
  have h' : Rep s ([] ++ l) := h
  cases c with
  | insert_head new data =>
      obtain ⟨s', hs', hrep⟩ := insert_head_rep h hfresh
      exact ⟨s', _, _, by rw [exec, hs']; rfl, ⟨rfl, rfl⟩, hrep⟩
  | insert_tail new data =>
      obtain ⟨s', hs', hrep⟩ := insert_tail_rep h hfresh
      exact ⟨s', _, _, by rw [exec, hs']; rfl, ⟨rfl, rfl⟩, hrep⟩
  | delete_head =>
      obtain ⟨s', hs', hrep⟩ := delete_head_rep h
      exact ⟨s', _, _, by rw [exec, hs']; rfl, ⟨rfl, rfl⟩, hrep⟩
  | delete_tail =>
      obtain ⟨s', hs', hrep⟩ := delete_tail_rep h
      exact ⟨s', _, _, by rw [exec, hs']; rfl, ⟨rfl, rfl⟩, hrep⟩
  | delete_node key =>
      obtain ⟨s', l', hs', hrep, hdel⟩ := delete_node_rep key h hturns
      exact ⟨s', _, l', by rw [exec, hs']; rfl, ⟨hdel, rfl⟩, hrep⟩
  | free =>
      obtain ⟨s', hs', hrep⟩ := free_rep h hturns
      exact ⟨s', _, _, by rw [exec, hs']; rfl, ⟨rfl, rfl⟩, hrep⟩
  | find key compare =>
      refine ⟨s, _, l, ?_, ⟨rfl, rfl⟩, h⟩
      rw [exec, ll_find, h.head, findFrom_rep (compare key) h' hturns]
      rfl
  | size =>
      refine ⟨s, _, l, ?_, ⟨rfl, rfl⟩, h⟩
      simpa [exec, ll_size, h.head] using sizeFrom_rep 0 h' hturns

/-- The lists that calls lead to; a label is a call and the turns its loops take. -/
abbrev History [DecidableEq δ] (s : LinkedList δ) : Prop :=
  Run (fun s (a : Call δ × ℕ) => (exec a.2 s a.1).map Prod.fst) (fun s a => Fresh s a.1)
    ( ll_initialize {}) s

theorem History.rep [DecidableEq δ] (h : History s) : ∃ l, Rep s l := by
  refine Run.invariant (P := fun s => ∃ l, Rep s l) h ⟨[], rep_initialize⟩ ?_
  rintro t ⟨c, turns⟩ u ⟨l, hl⟩ hfresh hstep
  obtain ⟨⟨u, r⟩, hexec, rfl⟩ := Option.map_eq_some_iff.mp hstep
  obtain ⟨s', r', l', hexec', -, hrep⟩ := exec_rep hl c hfresh (Nat.le_max_right turns l.length)
  rw [exec_mono (Nat.le_max_left ..) hexec] at hexec'
  obtain ⟨rfl, -⟩ := Prod.mk.inj (Option.some.inj hexec')
  exact ⟨l', hrep⟩

/-- The addresses met from `p` along `link`. -/
def walk (s : LinkedList δ) (link : Node δ → Option Addr) : ℕ → Option Addr → Option (List Addr)
  | _, none => some []
  | 0, some _ => none
  | turns + 1, some itr => (s.heap itr).bind fun n => (walk s link turns (link n)).map (itr :: ·)

theorem walk_next (h : Rep s (l₁ ++ l₂)) (hturns : l₂.length ≤ turns) :
    walk s Node.next turns (first l₂) = some (l₂.map Prod.fst) := by
  induction l₂ generalizing l₁ turns with
  | nil => cases turns <;> rfl
  | cons x l₂ ih =>
      obtain ⟨turns, rfl, hrest⟩ := exists_turn hturns
      have happ : l₁ ++ x :: l₂ = (l₁ ++ [x]) ++ l₂ := by simp
      rw [first_cons, walk, h.node l₁ x l₂ rfl, Option.bind_some, ih (happ ▸ h) hrest]
      rfl

theorem walk_prev (h : Rep s (l₁ ++ l₂)) (hturns : l₁.length ≤ turns) :
    walk s Node.prev turns (last l₁) = some (l₁.map Prod.fst).reverse := by
  induction l₁ using List.reverseRecOn generalizing l₂ turns with
  | nil => cases turns <;> rfl
  | append_singleton l₁ x ih =>
      have happ : l₁ ++ [x] ++ l₂ = l₁ ++ x :: l₂ := by simp
      rw [happ] at h
      obtain ⟨turns, rfl, hrest⟩ : ∃ n, turns = n + 1 ∧ l₁.length ≤ n := by
        rw [List.length_append, List.length_singleton] at hturns
        exact ⟨turns - 1, by omega, by omega⟩
      rw [last_concat, walk, h.node l₁ x l₂ rfl, Option.bind_some, ih h hrest]
      simp

/-- After every history the list is a sequence of nodes, chained in both directions, with nothing
else on the heap, and every call on it goes through with its effect on the sequence. -/
theorem ll_represents [DecidableEq δ] (h : History s) :
    ∃ l : List (Addr × δ), Rep s l ∧ (s.head = none ↔ s.tail = none) ∧
      (∀ turns, l.length ≤ turns → walk s Node.next turns s.head = some (l.map Prod.fst) ∧
        walk s Node.prev turns s.tail = some (l.map Prod.fst).reverse) ∧
      (∀ a, s.heap a ≠ none ↔ a ∈ l.map Prod.fst) ∧
      ∀ c turns, Fresh s c → l.length ≤ turns →
        ∃ s' r l', exec turns s c = some (s', r) ∧ Effect l c l' r ∧ Rep s' l' := by
  obtain ⟨l, hl⟩ := h.rep
  have hleft : Rep s ([] ++ l) := hl
  have hright : Rep s (l ++ []) := by simpa using hl
  refine ⟨l, hl, ?_, fun turns hturns => ⟨?_, ?_⟩, fun a => hl.mem_iff.symm, fun c turns => exec_rep hl c⟩
  · rw [hl.head, hl.tail, first_eq_none, last_eq_none]
  · rw [hl.head]
    exact walk_next hleft hturns
  · rw [hl.tail]
    exact walk_prev hright hturns

/-- Three nodes, of which the one in the middle is deleted. -/
theorem ll_represents_inner : ∃ s : LinkedList ℕ, walk s Node.next 2 s.head = some [7, 9] ∧
    walk s Node.prev 2 s.tail = some [9, 7] ∧ s.heap 8 = none ∧
    ∃ l : List (Addr × ℕ), Rep s l ∧ ∀ c turns, Fresh s c → l.length ≤ turns →
      ∃ s' r l', exec turns s c = some (s', r) ∧ Effect l c l' r ∧ Rep s' l' := by
  obtain ⟨s, h, hvals⟩ : ∃ s : LinkedList ℕ, History s ∧ walk s Node.next 2 s.head = some [7, 9] ∧
      walk s Node.prev 2 s.tail = some [9, 7] ∧ s.heap 8 = none := by
    refine ⟨_, .tail (.delete_node 20, 3) (.tail (.insert_tail 9 30, 0) (.tail (.insert_tail 8 20, 0)
      (.single (.insert_tail 7 10, 0) rfl rfl) rfl rfl) rfl rfl) trivial rfl, rfl, rfl, rfl⟩
  obtain ⟨l, hl, -, -, -, hexec⟩ := ll_represents h
  exact ⟨s, hvals.1, hvals.2.1, hvals.2.2, l, hl, hexec⟩

/-- `n` insertions make a list of `n` nodes. -/
theorem history_of_length (n : ℕ) : ∃ (s : LinkedList Unit) (l : List (Addr × Unit)),
    History s ∧ Rep s l ∧ l.length = n ∧ ∀ a ∈ l.map Prod.fst, a < n := by
  induction n with
  | zero => exact ⟨_, [], .refl, rep_initialize, rfl, by simp⟩
  | succ n ih =>
      obtain ⟨s, l, hs, hl, hlen, hlt⟩ := ih
      have hnew : s.heap n = none := hl.heap_none fun hmem => Nat.lt_irrefl n (hlt n hmem)
      obtain ⟨s', hs', hrep⟩ := insert_head_rep (d := ()) hl hnew
      refine ⟨s', (n, ()) :: l, hs.tail (.insert_head n (), 0) hnew ?_, hrep, by simp [hlen], ?_⟩
      · simp [exec, hs']
      · intro a ha
        obtain rfl | ha := List.mem_cons.mp ha
        · exact Nat.lt_succ_self _
        · exact Nat.lt_succ_of_lt (hlt a ha)

/-- The `int` that `ll_size` counts in is negative for a list of `2 ^ 31` nodes. -/
theorem ll_size_wraps : ¬ ∀ (s : LinkedList Unit) (l : List (Addr × Unit)), History s → Rep s l →
    ∃ turns n, s.ll_size turns = some n ∧ n.toInt = l.length := by
  intro hsize
  obtain ⟨s, l, hs, hl, hlen, -⟩ := history_of_length (2 ^ 31)
  obtain ⟨turns, n, hn, hlength⟩ := hsize s l hs hl
  have h' : Rep s ([] ++ l) := hl
  have hcount := sizeFrom_rep 0 h' (Nat.le_max_right turns l.length)
  rw [ll_size, hl.head] at hn
  rw [sizeFrom_mono (Nat.le_max_left ..) hn, hlen] at hcount
  rw [Option.some.inj hcount, hlen] at hlength
  exact absurd hlength (by decide)

end IntroToOS.Shell

import IntroToOS.Shell.LinkedList

/-! # The operations on a represented list

A call on a list that represents a sequence does not fault, and leaves a list that represents the
sequence the call should make of it.
-/

namespace IntroToOS.Shell
set_option autoImplicit false

variable {δ : Type} {s s' : LinkedList δ} {l l₁ l₂ : List (Addr × δ)} {x y : Addr × δ} {a : Addr}
variable {d : δ} {n : Node δ} {p q : Option Addr} {b : Addr} {turns : ℕ}

namespace LinkedList

@[simp] theorem store_head (s : LinkedList δ) (a : Addr) (n : Option (Node δ)) :
    (s.store a n).head = s.head := rfl

@[simp] theorem store_tail (s : LinkedList δ) (a : Addr) (n : Option (Node δ)) :
    (s.store a n).tail = s.tail := rfl

@[simp] theorem store_same (s : LinkedList δ) (a : Addr) (n : Option (Node δ)) :
    (s.store a n).heap a = n := Function.update_self ..

theorem store_other (s : LinkedList δ) (n : Option (Node δ)) (h : b ≠ a) :
    (s.store a n).heap b = s.heap b := Function.update_of_ne h ..

theorem setNext_of_heap (h : s.heap a = some n) :
    s.setNext (some a) q = some (s.store a (some { n with next := q })) := by
  simp [setNext, h]

theorem setPrev_of_heap (h : s.heap a = some n) :
    s.setPrev (some a) q = some (s.store a (some { n with prev := q })) := by
  simp [setPrev, h]

theorem free_of_heap (h : s.heap a = some n) : s.free (some a) = some (s.store a none) := by
  simp [free, h]

theorem load_of_heap (h : s.heap a = some n) : s.load (some a) = some n := h

end LinkedList
open LinkedList

theorem Rep.first_node (h : Rep s (x :: l)) : s.heap x.1 = some ⟨none, first l, x.2⟩ :=
  h.node [] x l rfl

theorem Rep.last_node (h : Rep s (l ++ [x])) : s.heap x.1 = some ⟨last l, none, x.2⟩ :=
  h.node l x [] rfl

theorem Rep.fresh_ne (h : Rep s l) (hnew : s.heap a = none) (hx : x ∈ l) : x.1 ≠ a := by
  intro he
  exact h.mem_iff.mp (List.mem_map.mpr ⟨x, hx, he⟩) hnew

theorem insert_head_rep (h : Rep s l) (hnew : s.heap a = none) :
    ∃ s', s.ll_insert_head a d = some s' ∧ Rep s' ((a, d) :: l) := by
  have h' : Rep s ([] ++ l) := h
  cases l with
  | nil =>
      refine ⟨{ s.create_new_node a d with head := some a, tail := some a }, ?_, ?_⟩
      · simp [ll_insert_head, create_new_node, h.head]
      · refine Rep.add h' hnew (store_same ..) (by simp) (by simp) (fun b hb _ _ => ?_) rfl rfl
        exact store_other _ _ hb
  | cons y l =>
      have hy : y.1 ≠ a := h.fresh_ne hnew List.mem_cons_self
      have htail : s.tail ≠ none := by
        rw [h.tail, Ne, last_eq_none]
        exact List.cons_ne_nil y l
      have hnode : ∀ m m', ((s.store a m).store a m').heap y.1 = some ⟨none, first l, y.2⟩ := by
        intro m m'
        rw [store_other _ _ hy, store_other _ _ hy]
        exact h.first_node
      refine ⟨{ ((s.create_new_node a d).store a (some ⟨none, some y.1, d⟩)).store y.1
        (some ⟨some a, first l, y.2⟩) with head := some a }, ?_, ?_⟩
      · simp only [ll_insert_head, create_new_node, store_head, store_tail, h.head, first_cons, htail,
          reduceCtorEq, or_self, if_false]
        rw [setNext_of_heap (store_same ..), Option.bind_some, store_head, store_head, h.head, first_cons,
          setPrev_of_heap (hnode _ _)]
        rfl
      · refine Rep.add h' hnew ?_ (by simp) (fun z m hm => ?_) (fun b hb _ hfirst => ?_) rfl ?_
        · exact (store_other _ _ hy.symm).trans (store_same ..)
        · obtain ⟨rfl, rfl⟩ := List.cons.inj hm
          exact store_same ..
        · have hby : b ≠ y.1 := fun he => hfirst (by rw [he, first_cons])
          calc (((s.create_new_node a d).store a (some ⟨none, some y.1, d⟩)).store y.1 _).heap b
              = ((s.create_new_node a d).store a (some ⟨none, some y.1, d⟩)).heap b :=
                store_other _ _ hby
            _ = (s.create_new_node a d).heap b := store_other _ _ hb
            _ = s.heap b := store_other _ _ hb
        · exact h.tail.trans (by simp [last_cons])

theorem insert_tail_rep (h : Rep s l) (hnew : s.heap a = none) :
    ∃ s', s.ll_insert_tail a d = some s' ∧ Rep s' (l ++ [(a, d)]) := by
  have h' : Rep s (l ++ []) := by simpa using h
  induction l using List.reverseRecOn with
  | nil =>
      refine ⟨{ s.create_new_node a d with head := some a, tail := some a }, ?_, ?_⟩
      · simp [ll_insert_tail, create_new_node, h.head]
      · refine Rep.add h' hnew (store_same ..) (by simp) (by simp) (fun b hb _ _ => ?_) rfl rfl
        exact store_other _ _ hb
  | append_singleton l y _ =>
      have hy : y.1 ≠ a := h.fresh_ne hnew (by simp)
      have hhead : s.head ≠ none := by
        rw [h.head, Ne, first_eq_none]
        simp
      have hnode : ∀ m m', ((s.store a m).store a m').heap y.1 = some ⟨last l, none, y.2⟩ := by
        intro m m'
        rw [store_other _ _ hy, store_other _ _ hy]
        exact h.last_node
      refine ⟨{ ((s.create_new_node a d).store a (some ⟨some y.1, none, d⟩)).store y.1
        (some ⟨last l, some a, y.2⟩) with tail := some a }, ?_, ?_⟩
      · simp only [ll_insert_tail, create_new_node, store_head, store_tail, h.tail, last_concat, hhead,
          reduceCtorEq, or_self, if_false]
        rw [setPrev_of_heap (store_same ..), Option.bind_some, store_tail, store_tail, h.tail,
          last_concat, setNext_of_heap (hnode _ _)]
        rfl
      · refine Rep.add h' hnew ?_ (fun m z hm => ?_) (by simp) (fun b hb hlast _ => ?_) ?_
          (last_concat (l ++ [y]) (a, d)).symm
        · rw [last_concat]
          exact (store_other _ _ hy.symm).trans (store_same ..)
        · obtain ⟨rfl, hz⟩ := List.append_inj' hm rfl
          obtain rfl := List.singleton_inj.mp hz
          exact store_same ..
        · have hby : b ≠ y.1 := fun he => hlast (by rw [he, last_concat])
          calc (((s.create_new_node a d).store a (some ⟨some y.1, none, d⟩)).store y.1 _).heap b
              = ((s.create_new_node a d).store a (some ⟨some y.1, none, d⟩)).heap b :=
                store_other _ _ hby
            _ = (s.create_new_node a d).heap b := store_other _ _ hb
            _ = s.heap b := store_other _ _ hb
        · refine h.head.trans ?_
          rw [first_append (l ++ [y])]
          cases hf : first (l ++ [y]) with
          | none => simp [first_eq_none] at hf
          | some b => rfl

theorem delete_head_rep (h : Rep s l) : ∃ s', s.ll_delete_head = some s' ∧ Rep s' l.tail := by
  cases l with
  | nil => exact ⟨s, by simp [ll_delete_head, h.head], h⟩
  | cons x l =>
      have h' : Rep s ([] ++ x :: l) := h
      have hx := h.first_node
      cases l with
      | nil =>
          refine ⟨{ s.store x.1 none with head := none, tail := none }, ?_, ?_⟩
          · simp only [ll_delete_head, h.head, first_cons, reduceCtorEq, if_false, load_of_heap hx,
              Option.bind_some, first_nil, if_true]
            exact free_of_heap hx
          · refine h'.remove (store_same ..) (by simp) (by simp) (fun b hb _ _ => ?_) rfl rfl
            exact store_other _ _ hb
      | cons y l =>
          have hne : y.1 ≠ x.1 := by
            have hn := h.nodup
            simp only [List.map_cons, List.nodup_cons, List.mem_cons, not_or] at hn
            exact fun he => hn.1.1 he.symm
          have hy : s.heap y.1 = some ⟨some x.1, first l, y.2⟩ := h.node [x] y l rfl
          refine ⟨{ (s.store y.1 (some ⟨none, first l, y.2⟩)).store x.1 none with
            head := some y.1 }, ?_, ?_⟩
          · simp only [ll_delete_head, h.head, first_cons, reduceCtorEq, if_false, load_of_heap hx,
              Option.bind_some]
            have hgone : (s.store y.1 (some ⟨none, first l, y.2⟩)).heap x.1 = _ :=
              (store_other _ _ hne.symm).trans hx
            rw [setPrev_of_heap (s := { s with head := some y.1 }) hy, Option.bind_some]
            exact free_of_heap (s := { s.store y.1 _ with head := some y.1 }) hgone
          · refine h'.remove (store_same ..) (by simp) (fun z m hm => ?_) (fun b hb _ hfirst => ?_) rfl ?_
            · obtain ⟨rfl, rfl⟩ := List.cons.inj hm
              exact (store_other _ _ hne).trans (store_same ..)
            · have hby : b ≠ y.1 := fun he => hfirst (by rw [he, first_cons])
              exact (store_other _ _ hb).trans (store_other _ _ hby)
            · exact h.tail.trans (by simp [last_cons])

theorem delete_tail_rep (h : Rep s l) : ∃ s', s.ll_delete_tail = some s' ∧ Rep s' l.dropLast := by
  induction l using List.reverseRecOn with
  | nil => exact ⟨s, by simp [ll_delete_tail, h.tail], h⟩
  | append_singleton l x _ =>
      have hx := h.last_node
      rw [List.dropLast_concat]
      induction l using List.reverseRecOn with
      | nil =>
          refine ⟨{ s.store x.1 none with head := none, tail := none }, ?_, ?_⟩
          · simp only [ll_delete_tail, h.tail, last_concat, reduceCtorEq, if_false, load_of_heap hx,
              Option.bind_some, last_nil, if_true]
            exact free_of_heap hx
          · refine h.remove (store_same ..) (by simp) (by simp) (fun b hb _ _ => ?_) rfl rfl
            exact store_other _ _ hb
      | append_singleton l y _ =>
          have hne : y.1 ≠ x.1 := by
            have hn := h.nodup
            simp only [List.map_append, List.map_cons, List.nodup_append] at hn
            exact hn.2.2 y.1 (by simp) x.1 (by simp)
          have hy : s.heap y.1 = some ⟨last l, some x.1, y.2⟩ := h.node l y [x] (by simp)
          refine ⟨{ (s.store y.1 (some ⟨last l, none, y.2⟩)).store x.1 none with
            tail := some y.1 }, ?_, ?_⟩
          · simp only [ll_delete_tail, h.tail, last_concat, reduceCtorEq, if_false, load_of_heap hx,
              Option.bind_some]
            have hgone : (s.store y.1 (some ⟨last l, none, y.2⟩)).heap x.1 = _ :=
              (store_other _ _ hne.symm).trans hx
            rw [setNext_of_heap (s := { s with tail := some y.1 }) hy, Option.bind_some]
            exact free_of_heap (s := { s.store y.1 _ with tail := some y.1 }) hgone
          · have h' : Rep s (l ++ [y] ++ x :: []) := h
            rw [← List.append_nil (l ++ [y])]
            refine h'.remove (store_same ..) (fun m z hm => ?_) (by simp) (fun b hb hlast _ => ?_) ?_ ?_
            · obtain ⟨rfl, hz⟩ := List.append_inj' hm rfl
              obtain rfl := List.singleton_inj.mp hz
              exact (store_other _ _ hne).trans (store_same ..)
            · have hby : b ≠ y.1 := fun he => hlast (by rw [he, last_concat])
              exact (store_other _ _ hb).trans (store_other _ _ hby)
            · refine h.head.trans ?_
              rw [first_append (l ++ [y]), List.append_nil]
              cases hf : first (l ++ [y]) with
              | none => simp [first_eq_none] at hf
              | some b => rfl
            · rw [List.append_nil, last_concat]

/-- A node between two others is unlinked and freed. -/
theorem unlink_rep {v w : Addr × δ} (h : Rep s ((l₁ ++ [v]) ++ x :: (w :: l₂))) :
    ∃ s', ((s.setNext (some v.1) (some w.1)).bind fun s => (s.heap x.1).bind fun n =>
      (s.setPrev n.next n.prev).bind fun s => s.free (some x.1)) = some s' ∧
      Rep s' ((l₁ ++ [v]) ++ (w :: l₂)) := by
  have hn := h.nodup
  simp only [List.map_append, List.map_cons, List.append_assoc, List.nodup_append,
    List.nodup_cons, List.mem_cons, List.cons_append, List.nil_append] at hn
  have hvx : v.1 ≠ x.1 := fun he => hn.2.1.1 (.inl he)
  have hvw : v.1 ≠ w.1 := fun he => hn.2.1.1 (.inr (.inl he))
  have hxw : x.1 ≠ w.1 := fun he => hn.2.1.2.1 (.inl he)
  have hv : s.heap v.1 = some ⟨last l₁, some x.1, v.2⟩ := h.node l₁ v (x :: w :: l₂) (by simp)
  have hx : s.heap x.1 = some ⟨some v.1, some w.1, x.2⟩ := by
    have hmid := h.node (l₁ ++ [v]) x (w :: l₂) rfl
    rwa [last_concat] at hmid
  have hw : s.heap w.1 = some ⟨some x.1, first l₂, w.2⟩ := by
    have hnext := h.node (l₁ ++ [v] ++ [x]) w l₂ (by simp)
    rwa [last_concat] at hnext
  refine ⟨((s.store v.1 (some ⟨last l₁, some w.1, v.2⟩)).store w.1
    (some ⟨some v.1, first l₂, w.2⟩)).store x.1 none, ?_, ?_⟩
  · rw [setNext_of_heap hv, Option.bind_some, store_other _ _ hvx.symm, hx, Option.bind_some,
      setPrev_of_heap ((store_other _ _ hvw.symm).trans hw), Option.bind_some]
    exact free_of_heap ((store_other _ _ hxw).trans ((store_other _ _ hvx.symm).trans hx))
  · refine h.remove (store_same ..) (fun m z hm => ?_) (fun z m hm => ?_) (fun b hb hlast hfirst => ?_) ?_ ?_
    · obtain ⟨rfl, hz⟩ := List.append_inj' hm rfl
      obtain rfl := List.singleton_inj.mp hz
      exact (store_other _ _ hvx).trans ((store_other _ _ hvw).trans (store_same ..))
    · obtain ⟨rfl, rfl⟩ := List.cons.inj hm
      rw [last_concat]
      exact (store_other _ _ hxw.symm).trans (store_same ..)
    · have hbv : b ≠ v.1 := fun he => hlast (by rw [he, last_concat])
      have hbw : b ≠ w.1 := fun he => hfirst (by rw [he, first_cons])
      exact (store_other _ _ hb).trans ((store_other _ _ hbw).trans (store_other _ _ hbv))
    · refine h.head.trans ?_
      rw [first_append, first_append (l₁ ++ [v])]
      cases hf : first (l₁ ++ [v]) with
      | none => simp [first_eq_none] at hf
      | some b => rfl
    · refine h.tail.trans ?_
      rw [last_append, last_append (l₁ ++ [v]), last_cons, last_cons]
      cases last l₂ <;> rfl

theorem exists_turn (h : (x :: l).length ≤ turns) : ∃ n, turns = n + 1 ∧ l.length ≤ n := by
  rw [List.length_cons] at h
  exact ⟨turns - 1, by omega, by omega⟩

/-- `l'` is `l` without one node carrying `key`, or `l` when there is none. -/
def Deleted (key : δ) (l l' : List (Addr × δ)) : Prop :=
  ((∀ x ∈ l, x.2 ≠ key) ∧ l' = l) ∨
    ∃ l₁ x l₂, l = l₁ ++ x :: l₂ ∧ x.2 = key ∧ l' = l₁ ++ l₂

/-- The loop of `ll_delete_node` has come past `l₁`, and neither end of the list carries `key`. -/
theorem deleteFrom_rep [DecidableEq δ] {key : δ} (h : Rep s (l₁ ++ l₂)) (hturns : l₂.length ≤ turns)
    (hl₁ : ∀ x ∈ l₁, x.2 ≠ key) (hhead : ∀ x m, l₁ ++ l₂ = x :: m → x.2 ≠ key)
    (htail : ∀ m x, l₁ ++ l₂ = m ++ [x] → x.2 ≠ key) :
    ∃ s' l', s.deleteFrom key turns (first l₂) = some s' ∧ Rep s' l' ∧ Deleted key (l₁ ++ l₂) l' := by
  induction l₂ generalizing l₁ turns with
  | nil => exact ⟨s, l₁, by simp [deleteFrom], by simpa using h, .inl ⟨by simpa using hl₁, by simp⟩⟩
  | cons x l₂ ih =>
      obtain ⟨turns, rfl, hrest⟩ := exists_turn hturns
      have hx := h.node l₁ x l₂ rfl
      rw [first_cons, deleteFrom, hx, Option.bind_some]
      by_cases hkey : x.2 = key
      · rw [if_pos hkey]
        -- `x` has a node on both sides, since the ends do not carry `key`
        induction l₁ using List.reverseRecOn with
        | nil => exact absurd hkey (hhead x l₂ rfl)
        | append_singleton l₁ v _ =>
            cases l₂ with
            | nil => exact absurd hkey (htail (l₁ ++ [v]) x rfl)
            | cons w l₂ =>
                obtain ⟨s', hs', hrep⟩ := unlink_rep h
                refine ⟨s', _, ?_, hrep, .inr ⟨_, x, _, rfl, hkey, rfl⟩⟩
                rw [last_concat]
                exact hs'
      · rw [if_neg hkey]
        have happ : l₁ ++ x :: l₂ = (l₁ ++ [x]) ++ l₂ := by simp
        rw [happ] at h hhead htail ⊢
        refine ih h hrest (fun y hy => ?_) hhead htail
        obtain hy | rfl := List.mem_append.mp hy |>.imp_right List.mem_singleton.mp
        · exact hl₁ y hy
        · exact hkey

theorem delete_node_rep [DecidableEq δ] (key : δ) (h : Rep s l) (hturns : l.length ≤ turns) :
    ∃ s' l', s.ll_delete_node turns key = some s' ∧ Rep s' l' ∧ Deleted key l l' := by
  cases l with
  | nil => exact ⟨s, [], by simp [ll_delete_node, h.head], h, .inl ⟨by simp, rfl⟩⟩
  | cons x l =>
      have hload : s.load s.head = some ⟨none, first l, x.2⟩ := by
        rw [h.head]
        exact h.first_node
      have hne : s.head ≠ none := by simp [h.head]
      rw [ll_delete_node, if_neg hne, hload, Option.bind_some]
      by_cases hhead : x.2 = key
      · obtain ⟨s', hs', hrep⟩ := delete_head_rep h
        exact ⟨s', l, by rw [if_pos hhead, hs'], hrep, .inr ⟨[], x, l, rfl, hhead, rfl⟩⟩
      rw [if_neg hhead]
      obtain ⟨m, z, hm⟩ : ∃ m z, x :: l = m ++ [z] :=
        ⟨_, _, (List.dropLast_append_getLast (List.cons_ne_nil x l)).symm⟩
      have hz : s.load s.tail = some ⟨last m, none, z.2⟩ := by
        rw [hm] at h
        rw [h.tail, last_concat]
        exact h.last_node
      rw [hz, Option.bind_some]
      by_cases htail : z.2 = key
      · obtain ⟨s', hs', hrep⟩ := delete_tail_rep h
        rw [hm, List.dropLast_concat] at hrep
        exact ⟨s', m, by rw [if_pos htail, hs'], hrep, .inr ⟨m, z, [], hm, htail, by simp⟩⟩
      rw [if_neg htail, h.head]
      have h' : Rep s ([] ++ x :: l) := h
      refine deleteFrom_rep h' hturns (by simp) (fun y n hy => ?_) (fun n y hy => ?_)
      · obtain ⟨rfl, -⟩ := List.cons.inj hy
        exact hhead
      · rw [List.nil_append, hm] at hy
        obtain ⟨-, hy⟩ := List.append_inj' hy rfl
        rwa [← List.singleton_inj.mp hy]

/-- `ll_free` has come to `l`, and nothing else is left on the heap. -/
theorem freeFrom_rep (hnode : ∀ l₁ x l₂, l = l₁ ++ x :: l₂ → ∃ p, s.heap x.1 = some ⟨p, first l₂, x.2⟩)
    (hall : ∀ a, s.heap a ≠ none → a ∈ l.map Prod.fst) (hn : (l.map Prod.fst).Nodup)
    (hturns : l.length ≤ turns) : ∃ s', s.freeFrom turns (first l) = some s' ∧ Rep s' [] := by
  induction l generalizing s turns with
  | nil =>
      refine ⟨{ s with head := none, tail := none }, by simp [freeFrom], rfl, rfl, hn, by simp, ?_⟩
      exact fun a ha => hall a ha
  | cons x l ih =>
      obtain ⟨turns, rfl, hrest⟩ := exists_turn hturns
      rw [List.map_cons, List.nodup_cons] at hn
      obtain ⟨p, hx⟩ := hnode [] x l rfl
      rw [first_cons, freeFrom, hx, Option.bind_some]
      dsimp only
      rw [setPrev_of_heap hx, Option.bind_some,
        setNext_of_heap (store_same ..), Option.bind_some, free_of_heap (store_same ..), Option.bind_some]
      have hother : ∀ m m' b, b ≠ x.1 →
          (((s.store x.1 m).store x.1 m').store x.1 none).heap b = s.heap b := fun m m' b hb =>
        (store_other _ _ hb).trans ((store_other _ _ hb).trans (store_other _ _ hb))
      refine ih (fun l₁ y l₂ hl => ?_) (fun a ha => ?_) hn.2 hrest
      · obtain ⟨q, hy⟩ := hnode (x :: l₁) y l₂ (by simp [hl])
        have hyx : y.1 ≠ x.1 := fun he => hn.1 (List.mem_map.mpr ⟨y, by simp [hl], he⟩)
        exact ⟨q, (hother _ _ _ hyx).trans hy⟩
      · by_cases hax : a = x.1
        · subst hax
          exact absurd (store_same ..) ha
        · rw [hother _ _ _ hax] at ha
          have hmem := hall a ha
          rw [List.map_cons, List.mem_cons] at hmem
          exact hmem.resolve_left hax

theorem free_rep (h : Rep s l) (hturns : l.length ≤ turns) :
    ∃ s', s.ll_free turns = some s' ∧ Rep s' [] := by
  by_cases hhead : s.head = none
  · refine ⟨s, if_pos hhead, ?_⟩
    rw [h.head, first_eq_none] at hhead
    rwa [hhead] at h
  · rw [ll_free, if_neg hhead, h.head]
    exact freeFrom_rep (fun l₁ x l₂ hl => ⟨_, h.node l₁ x l₂ hl⟩) h.all h.nodup hturns

theorem findFrom_rep (f : δ → ℕ) (h : Rep s (l₁ ++ l₂)) (hturns : l₂.length ≤ turns) :
    s.findFrom f turns (first l₂) = some ((l₂.find? fun x => f x.2 = 1).map Prod.fst) := by
  induction l₂ generalizing l₁ turns with
  | nil => simp [findFrom]
  | cons x l₂ ih =>
      obtain ⟨turns, rfl, hrest⟩ := exists_turn hturns
      rw [first_cons, findFrom, h.node l₁ x l₂ rfl, Option.bind_some]
      by_cases hf : f x.2 = 1
      · simp [hf]
      · have happ : l₁ ++ x :: l₂ = (l₁ ++ [x]) ++ l₂ := by simp
        rw [happ] at h
        simpa [hf] using ih h hrest

theorem sizeFrom_rep (count : BitVec 32) (h : Rep s (l₁ ++ l₂)) (hturns : l₂.length ≤ turns) :
    s.sizeFrom turns (first l₂) count = some (count + BitVec.ofNat 32 l₂.length) := by
  induction l₂ generalizing l₁ turns count with
  | nil => simp [sizeFrom]
  | cons x l₂ ih =>
      obtain ⟨turns, rfl, hrest⟩ := exists_turn hturns
      rw [first_cons, sizeFrom, h.node l₁ x l₂ rfl, Option.bind_some]
      have happ : l₁ ++ x :: l₂ = (l₁ ++ [x]) ++ l₂ := by simp
      rw [happ] at h
      rw [ih (count + 1) h hrest, List.length_cons, BitVec.ofNat_add, BitVec.add_assoc,
        BitVec.add_comm 1]
      rfl

end IntroToOS.Shell

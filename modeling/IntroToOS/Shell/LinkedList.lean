import IntroToOS.Lib.Run
import Mathlib.Algebra.Order.Ring.Nat
import Mathlib.Data.List.Induction
import Mathlib.Data.List.Nodup

/-! # The doubly linked list of Project2a

Translated from `Project2a/linked_list.c`. `heap` holds the nodes that have been allocated and not
freed; reading or writing through `NULL`, or through the address of a node that is not there, is a
fault (`none`), and so is freeing it. `malloc` succeeds with any address that is not in use. The
loops take the number of turns they may make; a loop that runs out of turns is a fault too.
-/

namespace IntroToOS.Shell
open Lib
set_option autoImplicit false

abbrev Addr := ℕ

/-- `node_t`, with `NULL` as `none`. -/
structure Node (δ : Type) where
  prev : Option Addr := none
  next : Option Addr := none
  data : δ

/-- The heap and a `linked_list_t`. -/
structure LinkedList (δ : Type) where
  heap : Addr → Option (Node δ) := fun _ => none
  head : Option Addr := none
  tail : Option Addr := none

namespace LinkedList
variable {δ : Type}

/-- `*p` -/
def load (s : LinkedList δ) (p : Option Addr) : Option (Node δ) := p.bind s.heap

def store (s : LinkedList δ) (a : Addr) (n : Option (Node δ)) : LinkedList δ :=
  { s with heap := Function.update s.heap a n }

/-- `p->next = q` -/
def setNext (s : LinkedList δ) (p q : Option Addr) : Option (LinkedList δ) :=
  p.bind fun a => (s.heap a).map fun n => s.store a (some { n with next := q })

/-- `p->prev = q` -/
def setPrev (s : LinkedList δ) (p q : Option Addr) : Option (LinkedList δ) :=
  p.bind fun a => (s.heap a).map fun n => s.store a (some { n with prev := q })

def free (s : LinkedList δ) (p : Option Addr) : Option (LinkedList δ) :=
  p.bind fun a => (s.heap a).map fun _ => s.store a none

/-- `new` is the address that `malloc` returns. -/
def create_new_node (s : LinkedList δ) (new : Addr) (data : δ) : LinkedList δ :=
  s.store new (some { data := data })

def ll_initialize (s : LinkedList δ) : LinkedList δ := { s with head := none, tail := none }

def ll_insert_head (s : LinkedList δ) (new : Addr) (data : δ) : Option (LinkedList δ) :=
  let s := s.create_new_node new data
  if s.head = none ∨ s.tail = none then some { s with head := some new, tail := some new }
  else
    (s.setNext (some new) s.head).bind fun s =>
    (s.setPrev s.head (some new)).map fun s => { s with head := some new }

def ll_insert_tail (s : LinkedList δ) (new : Addr) (data : δ) : Option (LinkedList δ) :=
  let s := s.create_new_node new data
  if s.head = none ∨ s.tail = none then some { s with head := some new, tail := some new }
  else
    (s.setPrev (some new) s.tail).bind fun s =>
    (s.setNext s.tail (some new)).map fun s => { s with tail := some new }

def ll_delete_head (s : LinkedList δ) : Option (LinkedList δ) :=
  if s.head = none then some s
  else
    let del_node := s.head
    (s.load s.head).bind fun n =>
    let s := { s with head := n.next }
    (if s.head = none then some { s with tail := none } else s.setPrev s.head none).bind fun s =>
    s.free del_node

def ll_delete_tail (s : LinkedList δ) : Option (LinkedList δ) :=
  if s.tail = none then some s
  else
    let del_node := s.tail
    (s.load s.tail).bind fun n =>
    let s := { s with tail := n.prev }
    (if s.tail = none then some { s with head := none } else s.setNext s.tail none).bind fun s =>
    s.free del_node

/-- The loop of `ll_delete_node`. -/
def deleteFrom [DecidableEq δ] (s : LinkedList δ) (key : δ) : ℕ → Option Addr → Option (LinkedList δ)
  | _, none => some s
  | 0, some _ => none
  | turns + 1, some itr =>
    (s.heap itr).bind fun n =>
    if n.data = key then
      (s.setNext n.prev n.next).bind fun s =>
      (s.heap itr).bind fun n =>
      (s.setPrev n.next n.prev).bind fun s =>
      s.free (some itr)
    else deleteFrom s key turns n.next

def ll_delete_node [DecidableEq δ] (turns : ℕ) (s : LinkedList δ) (key : δ) : Option (LinkedList δ) :=
  if s.head = none then some s
  else
    (s.load s.head).bind fun head =>
    if head.data = key then s.ll_delete_head
    else
      (s.load s.tail).bind fun tail =>
      if tail.data = key then s.ll_delete_tail
      else s.deleteFrom key turns s.head

/-- `true` is 1, and `compare` returns an `unsigned int`. -/
def findFrom (s : LinkedList δ) (p : δ → ℕ) : ℕ → Option Addr → Option (Option Addr)
  | _, none => some none
  | 0, some _ => none
  | turns + 1, some itr =>
    (s.heap itr).bind fun n =>
    if p n.data = 1 then some (some itr) else findFrom s p turns n.next

def ll_find (turns : ℕ) (s : LinkedList δ) (key : δ) (compare : δ → δ → ℕ) : Option (Option Addr) :=
  s.findFrom (compare key) turns s.head

/-- The loop of `ll_free`. -/
def freeFrom (s : LinkedList δ) : ℕ → Option Addr → Option (LinkedList δ)
  | _, none => some { s with head := none, tail := none }
  | 0, some _ => none
  | turns + 1, some itr =>
    (s.heap itr).bind fun n =>
    let del_node := some itr
    (s.setPrev del_node none).bind fun s =>
    (s.setNext del_node none).bind fun s =>
    (s.free del_node).bind fun s =>
    freeFrom s turns n.next

def ll_free (turns : ℕ) (s : LinkedList δ) : Option (LinkedList δ) :=
  if s.head = none then some s else s.freeFrom turns s.head

/-- The loop of `ll_size`, on an `int`. -/
def sizeFrom (s : LinkedList δ) : ℕ → Option Addr → BitVec 32 → Option (BitVec 32)
  | _, none, count => some count
  | 0, some _, _ => none
  | turns + 1, some itr, count =>
    (s.heap itr).bind fun n => sizeFrom s turns n.next (count + 1)

def ll_size (turns : ℕ) (s : LinkedList δ) : Option (BitVec 32) := s.sizeFrom turns s.head 0

end LinkedList

/-! ## Histories -/

/-- A call on the list; the insertions come with the address of the new node. -/
inductive Call (δ : Type)
  | insert_head (new : Addr) (data : δ)
  | insert_tail (new : Addr) (data : δ)
  | delete_head
  | delete_tail
  | delete_node (key : δ)
  | free
  | find (key : δ) (compare : δ → δ → ℕ)
  | size

inductive Result
  | void
  | node (p : Option Addr)
  | size (n : BitVec 32)

def exec {δ : Type} [DecidableEq δ] (turns : ℕ) (s : LinkedList δ) :
    Call δ → Option (LinkedList δ × Result)
  | .insert_head new data => (s.ll_insert_head new data).map (·, .void)
  | .insert_tail new data => (s.ll_insert_tail new data).map (·, .void)
  | .delete_head => s.ll_delete_head.map (·, .void)
  | .delete_tail => s.ll_delete_tail.map (·, .void)
  | .delete_node key => (s.ll_delete_node turns key).map (·, .void)
  | .free => (s.ll_free turns).map (·, .void)
  | .find key compare => (s.ll_find turns key compare).map fun p => (s, .node p)
  | .size => (s.ll_size turns).map fun n => (s, .size n)

/-- `malloc` returns an address that is not in use. -/
def Fresh {δ : Type} (s : LinkedList δ) : Call δ → Prop
  | .insert_head new _ => s.heap new = none
  | .insert_tail new _ => s.heap new = none
  | _ => True

/-! ## The sequence a list represents -/

section
variable {δ : Type} {s s' : LinkedList δ} {l l₁ l₂ : List (Addr × δ)} {x y : Addr × δ} {a : Addr}

/-- The address of the first node. -/
def first (l : List (Addr × δ)) : Option Addr := l.head?.map Prod.fst

/-- The address of the last node. -/
def last (l : List (Addr × δ)) : Option Addr := l.getLast?.map Prod.fst

@[simp] theorem first_nil : first ([] : List (Addr × δ)) = none := rfl

@[simp] theorem first_cons (x : Addr × δ) (l : List (Addr × δ)) : first (x :: l) = some x.1 := rfl

@[simp] theorem last_nil : last ([] : List (Addr × δ)) = none := rfl

@[simp] theorem last_concat (l : List (Addr × δ)) (x : Addr × δ) : last (l ++ [x]) = some x.1 := by
  simp [last]

theorem first_append (l₁ l₂ : List (Addr × δ)) : first (l₁ ++ l₂) = (first l₁).or (first l₂) := by
  cases l₁ <;> simp [first]

theorem last_append (l₁ l₂ : List (Addr × δ)) : last (l₁ ++ l₂) = (last l₂).or (last l₁) := by
  induction l₂ using List.reverseRecOn with
  | nil => simp
  | append_singleton l₂ x _ => simp [← List.append_assoc]

theorem last_cons (x : Addr × δ) (l : List (Addr × δ)) : last (x :: l) = (last l).or (some x.1) := by
  have h := last_append [x] l
  exact h

theorem first_eq_none : first l = none ↔ l = [] := by
  cases l <;> simp

theorem last_eq_none : last l = none ↔ l = [] := by
  simp [last]

/-- The list is the sequence `l` of nodes with their data: each node points to its two neighbours,
and no other node is left on the heap. -/
structure Rep (s : LinkedList δ) (l : List (Addr × δ)) : Prop where
  head : s.head = first l
  tail : s.tail = last l
  nodup : (l.map Prod.fst).Nodup
  node : ∀ l₁ x l₂, l = l₁ ++ x :: l₂ → s.heap x.1 = some ⟨last l₁, first l₂, x.2⟩
  all : ∀ a, s.heap a ≠ none → a ∈ l.map Prod.fst

theorem rep_initialize : Rep ({} : LinkedList δ) [] where
  head := rfl
  tail := rfl
  nodup := List.nodup_nil
  node := by simp
  all := fun _ h => absurd rfl h

theorem Rep.heap_none (h : Rep s l) (ha : a ∉ l.map Prod.fst) : s.heap a = none := by
  by_contra hne
  exact ha (h.all a hne)

theorem Rep.mem_iff (h : Rep s l) : a ∈ l.map Prod.fst ↔ s.heap a ≠ none := by
  refine ⟨fun ha hnone => ?_, h.all a⟩
  obtain ⟨x, hx, rfl⟩ := List.mem_map.mp ha
  obtain ⟨l₁, l₂, rfl⟩ := List.append_of_mem hx
  rw [h.node l₁ x l₂ rfl] at hnone
  cases hnone

theorem mem_of_first (h : first l = some a) : a ∈ l.map Prod.fst := by
  cases l with
  | nil => cases h
  | cons x l =>
      rw [first_cons] at h
      simp [Option.some.inj h]

theorem mem_of_last (h : last l = some a) : a ∈ l.map Prod.fst := by
  induction l using List.reverseRecOn with
  | nil => cases h
  | append_singleton l x _ =>
      rw [last_concat] at h
      simp [Option.some.inj h]

/-- No inner node of `l₁` is its last, or the first of `l₂`. -/
theorem apart_left (hn : ((l₁ ++ l₂).map Prod.fst).Nodup) {m₁ m₂ : List (Addr × δ)}
    (h : l₁ = m₁ ++ y :: m₂) (hm : m₂ ≠ []) : some y.1 ≠ last l₁ ∧ some y.1 ≠ first l₂ := by
  rw [h, List.append_assoc, List.map_append, List.nodup_append] at hn
  obtain ⟨-, hn, -⟩ := hn
  rw [List.cons_append, List.map_cons, List.nodup_cons, List.map_append, List.mem_append, not_or] at hn
  refine ⟨fun he => hn.1.1 ?_, fun he => hn.1.2 (mem_of_first he.symm)⟩
  rw [h, last_append, last_cons] at he
  cases hl : last m₂ with
  | none => exact absurd (last_eq_none.mp hl) hm
  | some b =>
      rw [hl] at he
      rw [Option.some.inj he]
      exact mem_of_last hl

/-- No inner node of `l₂` is its first, or the last of `l₁`. -/
theorem apart_right (hn : ((l₁ ++ l₂).map Prod.fst).Nodup) {m₁ m₂ : List (Addr × δ)}
    (h : l₂ = m₁ ++ y :: m₂) (hm : m₁ ≠ []) : some y.1 ≠ last l₁ ∧ some y.1 ≠ first l₂ := by
  have hy : ∀ a ∈ (l₁ ++ m₁).map Prod.fst, a ≠ y.1 := by
    intro a ha
    rw [h, ← List.append_assoc, List.map_append, List.nodup_append] at hn
    exact hn.2.2 a ha y.1 (by simp)
  rw [List.map_append] at hy
  refine ⟨fun he => ?_, fun he => ?_⟩
  · exact hy y.1 (List.mem_append_left _ (mem_of_last he.symm)) rfl
  · rw [h, first_append] at he
    cases hf : first m₁ with
    | none => exact absurd (first_eq_none.mp hf) hm
    | some b =>
        rw [hf] at he
        refine hy y.1 (List.mem_append_right _ ?_) rfl
        rw [Option.some.inj he]
        exact mem_of_first hf

/-- Where a node of `l₁ ++ x :: l₂` stands. -/
theorem split_cases {m₁ m₂ : List (Addr × δ)} (h : l₁ ++ x :: l₂ = m₁ ++ y :: m₂) :
    (m₁ = l₁ ∧ y = x ∧ m₂ = l₂) ∨ (∃ t, l₁ = m₁ ++ y :: t ∧ m₂ = t ++ x :: l₂) ∨
      ∃ t, l₂ = t ++ y :: m₂ ∧ m₁ = l₁ ++ x :: t := by
  rw [List.append_eq_append_iff] at h
  obtain ⟨t, ht, hx⟩ | ⟨t, ht, hy⟩ := h
  · cases t with
    | nil =>
        obtain ⟨rfl, rfl⟩ := List.cons.inj hx
        exact .inl ⟨by simpa using ht, rfl, rfl⟩
    | cons z t =>
        obtain ⟨rfl, rfl⟩ := List.cons.inj hx
        exact .inr (.inr ⟨t, rfl, ht⟩)
  · cases t with
    | nil =>
        obtain ⟨rfl, rfl⟩ := List.cons.inj hy
        exact .inl ⟨by simpa using ht.symm, rfl, rfl⟩
    | cons z t =>
        obtain ⟨rfl, rfl⟩ := List.cons.inj hy
        exact .inr (.inl ⟨t, ht, rfl⟩)

/-- `x` is put between `l₁` and `l₂`. -/
theorem Rep.add (h : Rep s (l₁ ++ l₂)) (hfree : s.heap x.1 = none)
    (hx : s'.heap x.1 = some ⟨last l₁, first l₂, x.2⟩)
    (hleft : ∀ m y, l₁ = m ++ [y] → s'.heap y.1 = some ⟨last m, some x.1, y.2⟩)
    (hright : ∀ y m, l₂ = y :: m → s'.heap y.1 = some ⟨some x.1, first m, y.2⟩)
    (hother : ∀ a, a ≠ x.1 → some a ≠ last l₁ → some a ≠ first l₂ → s'.heap a = s.heap a)
    (hhead : s'.head = first (l₁ ++ x :: l₂)) (htail : s'.tail = last (l₁ ++ x :: l₂)) :
    Rep s' (l₁ ++ x :: l₂) := by
  have hnew : x.1 ∉ (l₁ ++ l₂).map Prod.fst := fun hmem => h.mem_iff.mp hmem hfree
  refine ⟨hhead, htail, ?_, fun m₁ y m₂ he => ?_, fun a ha => ?_⟩
  · rw [List.map_append, List.map_cons, List.nodup_middle, List.nodup_cons, ← List.map_append]
    exact ⟨hnew, h.nodup⟩
  · have hold : y ∈ l₁ ++ l₂ → y.1 ≠ x.1 := fun hmem heq =>
      hnew (List.mem_map.mpr ⟨y, hmem, heq⟩)
    obtain ⟨rfl, rfl, rfl⟩ | ⟨t, hl, hm⟩ | ⟨t, hl, hm⟩ := split_cases he
    · exact hx
    · by_cases ht : t = []
      · subst ht
        rw [hm]
        exact hleft m₁ y hl
      · obtain ⟨hlast, hfirst⟩ := apart_left h.nodup hl ht
        rw [hother y.1 (hold (by simp [hl])) hlast hfirst, h.node m₁ y (t ++ l₂) (by simp [hl]), hm,
          first_append, first_append]
        cases hf : first t with
        | none => exact absurd (first_eq_none.mp hf) ht
        | some b => rfl
    · by_cases ht : t = []
      · subst ht
        rw [hm, last_concat]
        exact hright y m₂ hl
      · obtain ⟨hlast, hfirst⟩ := apart_right h.nodup hl ht
        rw [hother y.1 (hold (by simp [hl])) hlast hfirst, h.node (l₁ ++ t) y m₂ (by simp [hl]), hm,
          last_append, last_append, last_cons]
        cases hf : last t with
        | none => exact absurd (last_eq_none.mp hf) ht
        | some b => rfl
  · by_contra hmem
    simp only [List.map_append, List.map_cons, List.mem_append, List.mem_cons, not_or] at hmem
    refine ha ((hother a hmem.2.1 (fun he => ?_) fun he => ?_).trans (h.heap_none ?_))
    · exact hmem.1 (mem_of_last he.symm)
    · exact hmem.2.2 (mem_of_first he.symm)
    · simp [hmem.1, hmem.2.2]

/-- `x` is taken out from between `l₁` and `l₂`. -/
theorem Rep.remove (h : Rep s (l₁ ++ x :: l₂)) (hx : s'.heap x.1 = none)
    (hleft : ∀ m y, l₁ = m ++ [y] → s'.heap y.1 = some ⟨last m, first l₂, y.2⟩)
    (hright : ∀ y m, l₂ = y :: m → s'.heap y.1 = some ⟨last l₁, first m, y.2⟩)
    (hother : ∀ a, a ≠ x.1 → some a ≠ last l₁ → some a ≠ first l₂ → s'.heap a = s.heap a)
    (hhead : s'.head = first (l₁ ++ l₂)) (htail : s'.tail = last (l₁ ++ l₂)) :
    Rep s' (l₁ ++ l₂) := by
  have hn := h.nodup
  rw [List.map_append, List.map_cons, List.nodup_middle, List.nodup_cons, ← List.map_append] at hn
  obtain ⟨hold, hn⟩ := hn
  refine ⟨hhead, htail, hn, fun m₁ y m₂ he => ?_, fun a ha => ?_⟩
  · have hyx : y.1 ≠ x.1 := fun heq => hold (List.mem_map.mpr ⟨y, by simp [he], heq⟩)
    rw [List.append_eq_append_iff] at he
    obtain ⟨t, hm, hl⟩ | ⟨t, hl, hm⟩ := he
    · by_cases ht : t = []
      · subst ht
        rw [hm, List.append_nil]
        exact hright y m₂ hl
      · obtain ⟨hlast, hfirst⟩ := apart_right hn hl ht
        rw [hother y.1 hyx hlast hfirst, h.node (l₁ ++ x :: t) y m₂ (by simp [hl]), hm, last_append,
          last_append, last_cons]
        cases hf : last t with
        | none => exact absurd (last_eq_none.mp hf) ht
        | some b => rfl
    · cases t with
      | nil =>
          rw [List.append_nil] at hl
          rw [← hl]
          exact hright y m₂ hm.symm
      | cons z t =>
          obtain ⟨rfl, hm₂⟩ := List.cons.inj hm
          replace hm₂ : m₂ = t ++ l₂ := hm₂
          subst hm₂
          by_cases ht : t = []
          · subst ht
            exact hleft m₁ y hl
          · obtain ⟨hlast, hfirst⟩ := apart_left hn hl ht
            rw [hother y.1 hyx hlast hfirst, h.node m₁ y (t ++ x :: l₂) (by simp [hl]), first_append,
              first_append]
            cases hf : first t with
            | none => exact absurd (first_eq_none.mp hf) ht
            | some b => rfl
  · by_contra hmem
    simp only [List.map_append, List.mem_append, not_or] at hmem
    have hne : a ≠ x.1 := by
      intro he
      rw [he] at ha
      exact ha hx
    refine ha ((hother a hne (fun he => ?_) fun he => ?_).trans (h.heap_none ?_))
    · exact hmem.1 (mem_of_last he.symm)
    · exact hmem.2 (mem_of_first he.symm)
    · simp [hmem.1, hmem.2, hne]

end

end IntroToOS.Shell

import IntroToOS.Threads.Kernel
import IntroToOS.Lib.Run
import IntroToOS.Lib.Tally

/-! # The user library

Translated from `Project4b/xv6/user/thread.c`. The process is seen as the library sees it: its table
`g_threads`, and what `malloc`, `clone` and `join` return, which are choices of the label. The list
`children` holds the threads that `clone` has made and `join` has not returned, with the stack that
`clone` was given; `allocated` and `freed` are the blocks that `malloc` has handed out and the
arguments of `free`. A user program is loaded at address 0, so `memset` of NULL overwrites it
(`overwritten`).
-/

namespace IntroToOS.Threads.User
open Lib
set_option autoImplicit false

/-- An address; NULL is 0. -/
abbrev Ptr := ℕ

structure Thread where
  stack : Ptr := 0
  pid : ℤ := 0
  parent_pid : ℤ := 0
  in_use : Bool := false
  deriving DecidableEq

/-- A thread that has not been joined. -/
structure Child where
  pid : ℤ
  stack : Ptr
  deriving DecidableEq

structure Process where
  g_threads : Fin NPROC → Thread := fun _ => {}
  getpid : ℤ
  allocated : List Ptr := []
  freed : List Ptr := []
  children : List Child := []
  overwritten : Bool := false

def Process.setThread (s : Process) (i : Fin NPROC) (x : Thread) : Process :=
  { s with g_threads := Function.update s.g_threads i x }

def alloc_thread (s : Process) : Process × Option (Fin NPROC) :=
  match (List.finRange NPROC).find? fun i => !(s.g_threads i).in_use with
  | some i => (s.setThread i { s.g_threads i with in_use := true, parent_pid := s.getpid }, some i)
  | none => (s, none)

/-- `malloc` is its result, `none` for NULL; `clone` is the pid of the thread, `none` for -1. -/
def thread_create (s : Process) (malloc : Option Ptr) (clone : Option ℤ) : Process × ℤ :=
  match alloc_thread s with
  | (s, none) => (s, -1)
  | (s, some i) =>
    match malloc with
    | none => ({ s with overwritten := true }, -1)
    | some stack =>
      let s := { s.setThread i { s.g_threads i with stack } with allocated := stack :: s.allocated }
      match clone with
      | none => (s.setThread i { s.g_threads i with pid := -1 }, -1)
      | some pid =>
        ({ s.setThread i { s.g_threads i with pid } with children := ⟨pid, stack⟩ :: s.children },
          pid)

def free (s : Process) (ap : Ptr) : Process :=
  { s with allocated := s.allocated.erase ap, freed := s.freed ++ [ap] }

/-- `join` is the thread that `join` returns, `none` for -1; `junk` is the value that the variable
`stack` has before the call. -/
def thread_join (s : Process) (join : Option Child) (junk : Ptr) : Process × ℤ :=
  match join with
  | some child => (free { s with children := s.children.erase child } child.stack, child.pid)
  | none => (free s junk, -1)

/-! ## Steps -/

inductive Call
  | create (malloc : Option Ptr) (clone : Option ℤ)
  | join (join : Option Child) (junk : Ptr)

/-- What the callees promise: `malloc` hands out new blocks, pids are positive, and `join` returns a
thread that has not been joined. -/
def enabled (s : Process) : Call → Bool
  | .create malloc clone => (∀ stack ∈ malloc, stack ≠ 0 ∧ stack ∉ s.allocated) ∧
      ∀ pid ∈ clone, 0 < pid
  | .join join _ => ∀ child ∈ join, child ∈ s.children

def call (s : Process) : Call → Process × ℤ
  | .create malloc clone => thread_create s malloc clone
  | .join join junk => thread_join s join junk

def step (s : Process) (c : Call) : Option Process :=
  if enabled s c then some (call s c).1 else none

/-! ## What the library is for -/

/-- The number of entries in use. -/
def inUse (s : Process) : ℕ := tally (fun x : Thread => if x.in_use then 1 else 0) s.g_threads

/-- The blocks that a call is to free: a join frees the stack of the thread that it joins. -/
def toFree : Call → List Ptr
  | .join (some child) _ => [child.stack]
  | .join none _ | .create .. => []

/-- A call of the library from `s` is as it should be. -/
structure Right (s : Process) (c : Call) : Prop where
  balanced : inUse (call s c).1 = (call s c).1.children.length
  frees : (call s c).1.freed = s.freed ++ toFree c
  clean : ∀ malloc clone, c = .create malloc clone → (call s c).2 = -1 →
    (call s c).1.allocated = s.allocated
  room : ∀ malloc clone, c = .create (some malloc) (some clone) → (call s c).2 = -1 →
    NPROC ≤ s.children.length

/-- The calls that the library gets right: a `thread_create` in which nothing fails, or one that
finds every entry in use. -/
def Supported (s : Process) : Call → Prop
  | .create malloc clone =>
    (∀ i, (s.g_threads i).in_use = true) ∨ malloc.isSome = true ∧ clone.isSome = true
  | .join _ _ => False

instance Supported.decidable (s : Process) : ∀ c, Decidable (Supported s c)
  | .create _ _ => inferInstanceAs (Decidable (_ ∨ _ ∧ _))
  | .join _ _ => isFalse id

section
variable {s t : Process} {c : Call} {malloc : Option Ptr} {clone : Option ℤ}

/-- What a `thread_create` does when the table is full. -/
theorem thread_create_of_full (h : ∀ i, (s.g_threads i).in_use = true) (malloc : Option Ptr)
    (clone : Option ℤ) : thread_create s malloc clone = (s, -1) := by
  have hnone : (List.finRange NPROC).find? (fun i => !(s.g_threads i).in_use) = none := by
    rw [List.find?_eq_none]
    intro i _
    simp [h i]
  rw [thread_create, alloc_thread, hnone]

/-- A `thread_create` that finds an entry takes it for good. -/
theorem thread_create_of_entry (h : ¬ ∀ i, (s.g_threads i).in_use = true) (malloc : Option Ptr)
    (clone : Option ℤ) : inUse (thread_create s malloc clone).1 = inUse s + 1 := by
  cases hfind : (List.finRange NPROC).find? fun i => !(s.g_threads i).in_use with
  | none =>
      rw [List.find?_eq_none] at hfind
      exact absurd (fun i => by simpa using hfind i (List.mem_finRange i)) h
  | some i =>
      have hfree : (s.g_threads i).in_use = false := by simpa using List.find?_some hfind
      have hother : ∀ j, j ≠ i → (thread_create s malloc clone).1.g_threads j = s.g_threads j := by
        intro j hj
        cases malloc <;> cases clone <;>
          simp [thread_create, alloc_thread, hfind, Process.setThread, hj]
      have hself : ((thread_create s malloc clone).1.g_threads i).in_use = true := by
        cases malloc <;> cases clone <;>
          simp [thread_create, alloc_thread, hfind, Process.setThread]
      have := tally_change (fun x : Thread => if x.in_use then 1 else 0) s.g_threads
        (thread_create s malloc clone).1.g_threads i hother
      simp only [hfree, hself, Bool.false_eq_true, if_false, if_true] at this
      simpa [inUse] using this

/-- What else it does depends on which call fails. -/
theorem thread_create_eq (h : ¬ ∀ i, (s.g_threads i).in_use = true) (malloc : Option Ptr)
    (clone : Option ℤ) :
    (thread_create s malloc clone).1.freed = s.freed ∧
      (thread_create s malloc clone).1.children = (match malloc, clone with
        | some stack, some pid => ⟨pid, stack⟩ :: s.children
        | _, _ => s.children) ∧
      (thread_create s malloc clone).2 = (match malloc, clone with
        | some _, some pid => pid
        | _, _ => -1) := by
  cases hfind : (List.finRange NPROC).find? fun i => !(s.g_threads i).in_use with
  | none =>
      rw [List.find?_eq_none] at hfind
      exact absurd (fun i => by simpa using hfind i (List.mem_finRange i)) h
  | some i =>
      cases malloc <;> cases clone <;>
        simp [thread_create, alloc_thread, hfind, Process.setThread]

theorem inUse_of_full (h : ∀ i, (s.g_threads i).in_use = true) : inUse s = NPROC := by
  have hone : ∀ i, (fun x : Thread => if x.in_use then 1 else 0) (s.g_threads i) = 1 := by
    intro i
    simp [h i]
  rw [inUse, tally_eq_card hone, Fintype.card_fin]

/-- A `thread_create` is right if and only if nothing fails or no entry is found. -/
theorem right_create_iff (hs : inUse s = s.children.length)
    (hen : enabled s (.create malloc clone) = true) :
    Right s (.create malloc clone) ↔ Supported s (.create malloc clone) := by
  by_cases hfull : ∀ i, (s.g_threads i).in_use = true
  · have heq := thread_create_of_full hfull malloc clone
    refine ⟨fun _ => .inl hfull, fun _ => ⟨?_, ?_, ?_, ?_⟩⟩
    · rw [call, heq]
      exact hs
    · rw [call, heq]
      simp [toFree]
    · intro _ _ _ _
      rw [call, heq]
    · intro _ _ _ _
      rw [← hs, inUse_of_full hfull]
  · obtain ⟨hfreed, hchildren, hret⟩ := thread_create_eq hfull malloc clone
    have hentry := thread_create_of_entry hfull malloc clone
    have hnot : ¬ (malloc.isSome = true ∧ clone.isSome = true) →
        ¬ Right s (.create malloc clone) := by
      intro hfail h
      have hb := h.balanced
      rw [call, hentry, hchildren] at hb
      cases malloc <;> cases clone <;> simp_all
    constructor
    · intro h
      exact .inr (by_contra fun hfail => hnot hfail h)
    · rintro (hall | ⟨hm, hc⟩)
      · exact absurd hall hfull
      · obtain ⟨stack, rfl⟩ := Option.isSome_iff_exists.mp hm
        obtain ⟨pid, rfl⟩ := Option.isSome_iff_exists.mp hc
        have hpid : 0 < pid := by simpa [enabled] using (of_decide_eq_true hen).2
        refine ⟨?_, ?_, fun _ _ _ hr => ?_, fun _ _ _ hr => ?_⟩
        · rw [call, hentry, hchildren, hs, List.length_cons]
        · rw [call, hfreed]
          simp [toFree]
        · rw [call, hret] at hr
          have hr' : pid = -1 := hr
          omega
        · rw [call, hret] at hr
          have hr' : pid = -1 := hr
          omega

/-- No `thread_join` is right: with a thread its entry stays in use, without one an address is freed
that is no block. -/
theorem not_right_join (hs : inUse s = s.children.length) {join : Option Child} {junk : Ptr}
    (hen : enabled s (.join join junk) = true) : ¬ Right s (.join join junk) := by
  intro h
  cases join with
  | none =>
      have hf := h.frees
      simp [call, thread_join, free, toFree] at hf
  | some child =>
      have hmem : child ∈ s.children := by simpa [enabled] using hen
      have hb : inUse s = (s.children.erase child).length := h.balanced
      have hpos := List.length_pos_of_mem hmem
      rw [List.length_erase_of_mem hmem] at hb
      omega

theorem right_iff (hs : inUse s = s.children.length) (hen : enabled s c = true) :
    Right s c ↔ Supported s c := by
  cases c with
  | create malloc clone => exact right_create_iff hs hen
  | join join junk => exact iff_of_false (not_right_join hs hen) id

theorem step_eq_some : step s c = some t ↔ enabled s c = true ∧ (call s c).1 = t := by
  simp [step]

theorem playOk_right_iff {cs : List Call} (hs : inUse s = s.children.length)
    (h : play step cs s = some t) : PlayOk step Right cs s ↔ PlayOk step Supported cs s := by
  induction cs generalizing s with
  | nil => exact Iff.rfl
  | cons c cs ih =>
      obtain ⟨u, hu, hplay⟩ := Option.bind_eq_some_iff.mp h
      obtain ⟨hen, hcall⟩ := step_eq_some.mp hu
      have hiff := right_iff hs hen
      have hnext : Right s c → ((∀ v ∈ step s c, PlayOk step Right cs v) ↔
          ∀ v ∈ step s c, PlayOk step Supported cs v) := by
        intro hr
        have hb := hr.balanced
        rw [hcall] at hb
        rw [hu]
        simp only [Option.mem_def, Option.some.injEq, forall_eq']
        exact ih hb hplay
      constructor
      · rintro ⟨hr, hrest⟩
        exact ⟨hiff.mp hr, (hnext hr).mp hrest⟩
      · rintro ⟨hsup, hrest⟩
        have hr := hiff.mpr hsup
        exact ⟨hr, (hnext hr).mpr hrest⟩

theorem inUse_init (pid : ℤ) : inUse { getpid := pid } = 0 := tally_eq_zero fun _ => rfl

end

/-- Every call of a sequence is right if and only if every call of it is supported: the library is
balanced until the first call that is not. -/
theorem library_right_iff {cs : List Call} {pid : ℤ} {t : Process}
    (h : play step cs { getpid := pid } = some t) :
    PlayOk step Right cs { getpid := pid } ↔ PlayOk step Supported cs { getpid := pid } :=
  playOk_right_iff (inUse_init pid) h

/-- Two threads. -/
def twoThreads : List Call := [.create (some 4096) (some 4), .create (some 8200) (some 5)]

theorem twoThreads_right : PlayOk step Right twoThreads { getpid := 3 } := by
  have hsome : (play step twoThreads { getpid := 3 }).isSome = true := by decide +kernel
  obtain ⟨t, ht⟩ := Option.isSome_iff_exists.mp hsome
  exact (library_right_iff ht).mpr (by decide +kernel)

/-- A thread is created and joined, and its entry is still in use. -/
theorem joined_in_use : ∃ t,
    play step [.create (some 4096) (some 4), .join (some ⟨4, 4096⟩) 0] { getpid := 3 } = some t ∧
      inUse t = 1 ∧ t.children = [] ∧ t.freed = [4096] ∧
      ¬ PlayOk step Right [.create (some 4096) (some 4), .join (some ⟨4, 4096⟩) 0]
        { getpid := 3 } := by
  have hrun : (play step [.create (some 4096) (some 4), .join (some ⟨4, 4096⟩) 0]
      { getpid := 3 }).map (fun t => (inUse t, t.children, t.freed)) = some (1, [], [4096]) := by
    decide +kernel
  obtain ⟨t, ht, hfacts⟩ := Option.map_eq_some_iff.mp hrun
  obtain ⟨huse, hfacts⟩ := Prod.mk.inj hfacts
  obtain ⟨hchildren, hfreed⟩ := Prod.mk.inj hfacts
  refine ⟨t, ht, huse, hchildren, hfreed, fun h => ?_⟩
  have hsup := (playOk_right_iff (inUse_init 3) ht).mp h
  revert hsup
  decide +kernel

end IntroToOS.Threads.User

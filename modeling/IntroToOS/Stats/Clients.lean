import IntroToOS.Lib.Bytes
import IntroToOS.Lib.Mutex
import IntroToOS.Lib.Run
import IntroToOS.Lib.Slots
import Mathlib.Data.Rat.Init

/-! # The clients of the statistics server

Translated from `Project3a/stats.c`, with what `stats_client.c` does between the two calls. A client
is known by its pid, which another process may get once the client has exited. Every access to the
shared memory is a step of its own, the assignment of a whole entry one for each field. A client
whose `stats_init` has returned `NULL` exits.
-/

namespace IntroToOS.Stats
open Lib
set_option autoImplicit false

abbrev MAX_CLIENTS : ℕ := 16

abbrev Slot := Fin MAX_CLIENTS

/-- `stats_t`. -/
structure Stat where
  pid : ℕ := 0
  counter : ℕ := 0
  priority : ℕ := 0
  cpu_secs : ℚ := 0
  in_use : ℕ := 0
  argv : List Byte := []
  modified : ℕ := 0

def zero : Stat := {}

/-- The assignments of `stats_init`, in order. -/
def fillField (pid : ℕ) : ℕ → Stat → Stat
  | 0, x => { x with pid }
  | 1, x => { x with counter := 0 }
  | 2, x => { x with priority := 0 }
  | 3, x => { x with cpu_secs := 0 }
  | 4, x => { x with argv := [] }
  | 5, x => { x with in_use := 1 }
  | _, x => { x with modified := 0 }

/-- The parts of `shm[i] = zero`. -/
def zeroField : ℕ → Stat → Stat
  | 0, x => { x with pid := zero.pid }
  | 1, x => { x with counter := zero.counter }
  | 2, x => { x with priority := zero.priority }
  | 3, x => { x with cpu_secs := zero.cpu_secs }
  | 4, x => { x with in_use := zero.in_use }
  | 5, x => { x with argv := zero.argv }
  | _, x => { x with modified := zero.modified }

/-- What `stats_init` is about to return; the two other results are `NULL`. -/
inductive Result
  | slot (i : Slot)
  | noRoom
  | failed
  deriving DecidableEq

/-- Where a client is; `i` is the entry that it has got from `stats_init`. -/
inductive Pc
  | out
  | initWait
  | shmget
  | shmat
  | search (j : ℕ)
  | fill (i : Slot) (k : ℕ)
  | initPost (r : Result)
  | running (i : Slot)
  | unlinkWait (i : Slot)
  | find (i : Slot) (j : ℕ)
  | findPid (i : Slot) (j : Slot)
  | clear (j : Slot) (k : ℕ)
  | shmdt
  | unlinkPost
  deriving DecidableEq

structure State where
  sem : ℕ := 1
  shm : Slot → Stat := fun _ => zero
  pc : ℕ → Pc := fun _ => .out

def State.goto (s : State) (c : ℕ) (pc : Pc) : State := { s with pc := Function.update s.pc c pc }

def State.write (s : State) (i : Slot) (x : Stat) : State :=
  { s with shm := Function.update s.shm i x }

/-- What a client does next: `go` is the next step of its code, with the result of a system call;
`work` is an update of its own entry by the main program. -/
inductive Event
  | go (ok : Bool)
  | work (counter priority modified : ℕ) (cpu_secs : ℚ) (argv : List Byte)

/-- The step of client `c` in `stats_init` or `stats_unlink`. -/
def advance (s : State) (c : ℕ) (ok : Bool) : Option State :=
  match s.pc c with
  | .out => some (s.goto c .initWait)
  | .initWait => if 0 < s.sem then some ({ s with sem := s.sem - 1 }.goto c .shmget) else none
  | .shmget => some (s.goto c (if ok then .shmat else .initPost .failed))
  | .shmat => some (s.goto c (if ok then .search 0 else .initPost .failed))
  | .search j =>
    if h : j < MAX_CLIENTS then
      if (s.shm ⟨j, h⟩).in_use = 0 then some (s.goto c (.fill ⟨j, h⟩ 0))
      else some (s.goto c (.search (j + 1)))
    else some (s.goto c (.initPost .noRoom))
  | .fill i k =>
    some ((s.write i (fillField c k (s.shm i))).goto c
      (if k < 6 then .fill i (k + 1) else .initPost (.slot i)))
  | .initPost r =>
    some ({ s with sem := s.sem + 1 }.goto c
      (match r with
      | .slot i => .running i
      | _ => .out))
  | .running i => some (s.goto c (.unlinkWait i))
  | .unlinkWait i => if 0 < s.sem then some ({ s with sem := s.sem - 1 }.goto c (.find i 0)) else none
  | .find i j =>
    if h : j < MAX_CLIENTS then
      if (s.shm ⟨j, h⟩).in_use = 1 then some (s.goto c (.findPid i ⟨j, h⟩))
      else some (s.goto c (.find i (j + 1)))
    else some (s.goto c .shmdt)
  | .findPid i j =>
    if (s.shm j).pid = c then some (s.goto c (.clear j 0))
    else some (s.goto c (.find i (j + 1)))
  | .clear j k =>
    some ((s.write j (zeroField k (s.shm j))).goto c (if k < 6 then .clear j (k + 1) else .shmdt))
  | .shmdt => some (s.goto c .unlinkPost)
  | .unlinkPost => some ({ s with sem := s.sem + 1 }.goto c .out)

def step (s : State) (a : ℕ × Event) : Option State :=
  match a.2 with
  | .go ok => advance s a.1 ok
  | .work counter priority modified cpu_secs argv =>
    match s.pc a.1 with
    | .running i => some (s.write i { s.shm i with counter, priority, modified, cpu_secs, argv })
    | _ => none

def init : State := {}

/-! ## What clients have -/

/-- The client is between its `sem_wait` and its `sem_post`. -/
def Pc.inside : Pc → Bool
  | .out | .initWait | .running _ | .unlinkWait _ => false
  | _ => true

/-- The entry that belongs to a client at `pc`. -/
def Pc.keeps : Pc → Option Slot
  | .initPost (.slot i) | .running i | .unlinkWait i | .find i _ | .findPid i _ => some i
  | _ => none

/-- The entry that a client at `pc` is writing. -/
def Pc.writes : Pc → Option Slot
  | .fill i _ | .clear i _ => some i
  | _ => none

/-- The client has returned from a successful `stats_init`, and not got past the `sem_wait` of
`stats_unlink`. -/
def Owns (s : State) (c : ℕ) (i : Slot) : Prop := s.pc c = .running i ∨ s.pc c = .unlinkWait i

/-- What a client at `pc` knows of the entries. -/
def Local (shm : Slot → Stat) (c : ℕ) : Pc → Prop
  | .search j => ∀ i : Slot, i.val < j → (shm i).in_use ≠ 0
  | .fill i k => (0 < k → (shm i).pid = c) ∧ (5 < k → (shm i).in_use = 1) ∧ k ≤ 6
  | .initPost .noRoom => ∀ i : Slot, (shm i).in_use ≠ 0
  | .initPost (.slot i) | .running i | .unlinkWait i => (shm i).pid = c ∧ (shm i).in_use = 1
  | .find i j => ((shm i).pid = c ∧ (shm i).in_use = 1) ∧ j ≤ i.val
  | .findPid i j => ((shm i).pid = c ∧ (shm i).in_use = 1) ∧ j.val ≤ i.val ∧ (shm j).in_use = 1
  | .clear i k => (4 < k → (shm i).in_use = 0) ∧ k ≤ 6
  | _ => True

structure Inv (s : State) : Prop where
  lock : ∃ holder, Exclusive holder (fun c => (s.pc c).inside = true) ∧
    s.sem = if holder.isNone then 1 else 0
  one : Single (fun _ => True) fun c => (s.pc c).keeps
  knows : ∀ c, Local s.shm c (s.pc c)
  apart : ∀ c i, (s.pc c).writes = some i → ∀ d, (s.pc d).keeps ≠ some i
  free : ∀ i, (∀ c, (s.pc c).keeps ≠ some i ∧ (s.pc c).writes ≠ some i) → (s.shm i).in_use = 0

section
variable {s t : State} {c d : ℕ} {i j : Slot} {pc old : Pc} {ok : Bool}

theorem goto_self : (s.goto c pc).pc c = pc := Function.update_self ..

theorem goto_of_ne (h : d ≠ c) : (s.goto c pc).pc d = s.pc d := Function.update_of_ne h ..

theorem Pc.inside_of_writes (h : pc.writes = some i) : pc.inside = true := by
  cases pc with
  | fill j k => rfl
  | clear j k => rfl
  | _ => cases h

theorem Local.entry {shm : Slot → Stat} (h : Local shm c pc) (hk : pc.keeps = some i) :
    (shm i).pid = c ∧ (shm i).in_use = 1 := by
  cases pc with
  | initPost r =>
      cases r with
      | slot j => cases hk; exact h
      | noRoom => cases hk
      | failed => cases hk
  | running j => cases hk; exact h
  | unlinkWait j => cases hk; exact h
  | find j k => cases hk; exact h.1
  | findPid j k => cases hk; exact h.1
  | out => cases hk
  | initWait => cases hk
  | shmget => cases hk
  | shmat => cases hk
  | search k => cases hk
  | fill j k => cases hk
  | clear j k => cases hk
  | shmdt => cases hk
  | unlinkPost => cases hk

/-- A client outside knows of its own entry only. -/
theorem Local.outside {shm shm' : Slot → Stat} (h : Local shm c pc) (hout : pc.inside = false)
    (hsame : ∀ i, pc.keeps = some i → (shm' i).pid = (shm i).pid ∧ (shm' i).in_use = (shm i).in_use) :
    Local shm' c pc := by
  cases pc with
  | running j =>
      obtain ⟨h1, h2⟩ := hsame j rfl
      exact ⟨h1.trans h.1, h2.trans h.2⟩
  | unlinkWait j =>
      obtain ⟨h1, h2⟩ := hsame j rfl
      exact ⟨h1.trans h.1, h2.trans h.2⟩
  | out => trivial
  | initWait => trivial
  | shmget => cases hout
  | shmat => cases hout
  | search k => cases hout
  | fill j k => cases hout
  | initPost r => cases hout
  | find j k => cases hout
  | findPid j k => cases hout
  | clear j k => cases hout
  | shmdt => cases hout
  | unlinkPost => cases hout

/-- The step of client `c` to `pc`: it writes only the entry it is writing, and what it has or
writes afterwards it had or wrote before, or is free. -/
theorem Inv.move (h : Inv s) (hpc : t.pc = Function.update s.pc c pc)
    (hlock : ∃ holder, Exclusive holder (fun d => (t.pc d).inside = true) ∧
      t.sem = if holder.isNone then 1 else 0)
    (hshm : ∀ i, (s.pc c).writes ≠ some i → t.shm i = s.shm i)
    (hlocal : Local t.shm c pc)
    (hkeeps : ∀ i, pc.keeps = some i → (s.pc c).keeps = some i ∨ (s.pc c).writes = some i)
    (hwrites : ∀ i, pc.writes = some i →
      (s.pc c).writes = some i ∨ (s.pc c).keeps = some i ∨ (s.shm i).in_use = 0)
    (hgone : ∀ i, (s.pc c).keeps = some i ∨ (s.pc c).writes = some i →
      pc.keeps ≠ some i → pc.writes ≠ some i → (t.shm i).in_use = 0) : Inv t := by
  have hself : t.pc c = pc := by rw [hpc, Function.update_self]
  have hother : ∀ d, d ≠ c → t.pc d = s.pc d := fun d hd => by rw [hpc, Function.update_of_ne hd]
  obtain ⟨holder, hexcl, -⟩ := h.lock
  refine ⟨hlock, ?_, ?_, ?_, ?_⟩
  · -- nobody else has the entries that `c` has now
    have hnew : ∀ d, d ≠ c → ∀ i, pc.keeps = some i → (s.pc d).keeps ≠ some i := by
      intro d hd i hi hdi
      rcases hkeeps i hi with hk | hw
      · exact hd (h.one d c i trivial trivial hdi hk)
      · exact h.apart c i hw d hdi
    intro d e i _ _ hdi hei
    dsimp only at hdi hei
    by_cases hd : d = c <;> by_cases he : e = c
    · rw [hd, he]
    · subst hd
      rw [hself] at hdi
      rw [hother e he] at hei
      exact absurd hei (hnew e he i hdi)
    · subst he
      rw [hself] at hei
      rw [hother d hd] at hdi
      exact absurd hdi (hnew d hd i hei)
    · rw [hother d hd] at hdi
      rw [hother e he] at hei
      exact h.one d e i trivial trivial hdi hei
  · intro d
    by_cases hd : d = c
    · subst hd
      rw [hself]
      exact hlocal
    · rw [hother d hd]
      by_cases hw : ∃ i, (s.pc c).writes = some i
      · obtain ⟨i, hi⟩ := hw
        have hout : (s.pc d).inside = false := by
          rw [← Bool.not_eq_true]
          exact fun hin => hd (hexcl.unique hin (Pc.inside_of_writes hi))
        refine (h.knows d).outside hout fun j hj => ?_
        rw [hshm j fun hwj => h.apart c j hwj d hj]
        exact ⟨rfl, rfl⟩
      · have hall : t.shm = s.shm := funext fun i => hshm i fun hi => hw ⟨i, hi⟩
        rw [hall]
        exact h.knows d
  · intro d i hi e hei
    by_cases hd : d = c
    · subst hd
      rw [hself] at hi
      by_cases he : e = d
      · subst he
        rw [hself] at hei
        cases hp : pc <;> rw [hp] at hi hei <;> cases hi <;> cases hei
      · rw [hother e he] at hei
        rcases hwrites i hi with hw | hk | hzero
        · exact h.apart d i hw e hei
        · exact he (h.one e d i trivial trivial hei hk)
        · have := ((h.knows e).entry hei).2
          omega
    · rw [hother d hd] at hi
      by_cases he : e = c
      · subst he
        rw [hself] at hei
        rcases hkeeps i hei with hk | hw
        · exact h.apart d i hi e hk
        · exact hd (hexcl.unique (Pc.inside_of_writes hi) (Pc.inside_of_writes hw))
      · rw [hother e he] at hei
        exact h.apart d i hi e hei
  · intro i hi
    have hc := hi c
    rw [hself] at hc
    by_cases hhad : (s.pc c).keeps = some i ∨ (s.pc c).writes = some i
    · exact hgone i hhad hc.1 hc.2
    · rw [hshm i fun hw => hhad (.inr hw)]
      refine h.free i fun d => ?_
      by_cases hd : d = c
      · subst hd
        exact ⟨fun hk => hhad (.inl hk), fun hw => hhad (.inr hw)⟩
      · have := hi d
        rwa [hother d hd] at this

/-! ## The steps -/

/-- The semaphore is left alone by a step within the critical section or outside it. -/
theorem Inv.lock_same (h : Inv s) (hpc : t.pc = Function.update s.pc c pc) (hsem : t.sem = s.sem)
    (hin : pc.inside = (s.pc c).inside) : ∃ holder,
      Exclusive holder (fun d => (t.pc d).inside = true) ∧
        t.sem = if holder.isNone then 1 else 0 := by
  obtain ⟨holder, hexcl, hval⟩ := h.lock
  refine ⟨holder, hexcl.keep fun d => ?_, hsem.trans hval⟩
  by_cases hd : d = c
  · subst hd
    rw [hpc, Function.update_self, hin]
  · rw [hpc, Function.update_of_ne hd]

theorem Inv.lock_wait (h : Inv s) (hpc : t.pc = Function.update s.pc c pc) (hpos : 0 < s.sem)
    (hsem : t.sem = s.sem - 1) (hin : pc.inside = true) : ∃ holder,
      Exclusive holder (fun d => (t.pc d).inside = true) ∧
        t.sem = if holder.isNone then 1 else 0 := by
  obtain ⟨holder, hexcl, hval⟩ := h.lock
  obtain rfl : holder = none := by
    cases holder with
    | none => rfl
    | some x =>
        rw [hval] at hpos
        exact absurd hpos (Nat.lt_irrefl 0)
  refine ⟨some c, hexcl.acquire ?_ fun d hd => ?_, by rw [hsem, hval]; rfl⟩
  · rw [hpc, Function.update_self]
    exact hin
  · rw [hpc, Function.update_of_ne hd]

theorem Inv.lock_post (h : Inv s) (hpc : t.pc = Function.update s.pc c pc)
    (hsem : t.sem = s.sem + 1) (hc : (s.pc c).inside = true) (hin : pc.inside = false) : ∃ holder,
      Exclusive holder (fun d => (t.pc d).inside = true) ∧
        t.sem = if holder.isNone then 1 else 0 := by
  obtain ⟨holder, hexcl, hval⟩ := h.lock
  obtain rfl : holder = some c := hexcl.holds hc
  refine ⟨none, hexcl.release hc ?_ fun d hd => ?_, by rw [hsem, hval]; rfl⟩
  · rw [hpc, Function.update_self, hin]
    exact Bool.false_ne_true
  · rw [hpc, Function.update_of_ne hd]

/-- A step that leaves the memory alone, and `c` with the entry that it has. -/
theorem Inv.stay (h : Inv s) (hpc : s.pc c = old) (ht : t.pc = Function.update s.pc c pc)
    (hshm : t.shm = s.shm) (hlock : ∃ holder, Exclusive holder (fun d => (t.pc d).inside = true) ∧
      t.sem = if holder.isNone then 1 else 0) (hlocal : Local s.shm c pc)
    (hkeeps : pc.keeps = old.keeps) (hwrites : pc.writes = old.writes) : Inv t := by
  subst hpc
  refine h.move ht hlock (fun _ _ => by rw [hshm]) (hshm ▸ hlocal) ?_ ?_ ?_
  · exact fun i hi => .inl (hkeeps ▸ hi)
  · exact fun i hi => .inl (hwrites ▸ hi)
  · intro i hi hk hw
    rw [hkeeps] at hk
    rw [hwrites] at hw
    exact absurd hi (not_or.mpr ⟨hk, hw⟩)

theorem Inv.go (h : Inv s) (hpc : s.pc c = old) (hlocal : Local s.shm c pc)
    (hin : pc.inside = old.inside) (hkeeps : pc.keeps = old.keeps) (hwrites : pc.writes = old.writes) :
    Inv (s.goto c pc) :=
  h.stay hpc rfl rfl (h.lock_same rfl rfl (hpc ▸ hin)) hlocal hkeeps hwrites

/-- `sem_wait`. -/
theorem Inv.wait (h : Inv s) (hpc : s.pc c = old) (hpos : 0 < s.sem) (hlocal : Local s.shm c pc)
    (hin : pc.inside = true) (hkeeps : pc.keeps = old.keeps) (hwrites : pc.writes = old.writes) :
    Inv ({ s with sem := s.sem - 1 }.goto c pc) :=
  h.stay hpc rfl rfl (h.lock_wait rfl hpos rfl hin) hlocal hkeeps hwrites

/-- `sem_post`. -/
theorem Inv.post (h : Inv s) (hpc : s.pc c = old) (hc : old.inside = true) (hlocal : Local s.shm c pc)
    (hin : pc.inside = false) (hkeeps : pc.keeps = old.keeps) (hwrites : pc.writes = old.writes) :
    Inv ({ s with sem := s.sem + 1 }.goto c pc) :=
  h.stay hpc rfl rfl (h.lock_post rfl rfl (hpc ▸ hc) hin) hlocal hkeeps hwrites

/-- `c` begins to write an entry that is free or that it has. -/
theorem Inv.claim (h : Inv s) (hpc : s.pc c = old) (hlocal : Local s.shm c pc)
    (hin : pc.inside = old.inside) (hkeeps : pc.keeps = none) (hold : old.writes = none)
    (hwrites : pc.writes = some i) (hfree : old.keeps = some i ∨ old.keeps = none ∧ (s.shm i).in_use = 0) :
    Inv (s.goto c pc) := by
  subst hpc
  refine h.move rfl (h.lock_same rfl rfl hin) (fun _ _ => rfl) hlocal ?_ ?_ ?_
  · intro j hj
    rw [hkeeps] at hj
    cases hj
  · intro j hj
    obtain rfl := Option.some.inj (hwrites.symm.trans hj)
    exact .inr (hfree.imp_right And.right)
  · intro j hj _ hw
    rw [hold] at hj
    have hk : (s.pc c).keeps = some j := hj.resolve_right fun he => nomatch he
    rcases hfree with hi | ⟨hnone, -⟩
    · rw [hwrites, ← hk, hi] at hw
      exact absurd rfl hw
    · cases hnone.symm.trans hk

theorem fillField_pid (k : ℕ) (x : Stat) :
    (fillField c k x).pid = if k = 0 then c else x.pid := by
  unfold fillField
  split <;> simp_all

theorem fillField_in_use (k : ℕ) (x : Stat) :
    (fillField c k x).in_use = if k = 5 then 1 else x.in_use := by
  unfold fillField
  split <;> simp_all

theorem zeroField_in_use (k : ℕ) (x : Stat) :
    (zeroField k x).in_use = if k = 4 then 0 else x.in_use := by
  unfold zeroField
  split <;> simp_all [zero]

/-- The step writes the entry that `c` is writing, and `c` goes on to `pc` with it. -/
theorem Inv.put (h : Inv s) (hw : (s.pc c).writes = some i) {x : Stat}
    (hlocal : Local (Function.update s.shm i x) c pc) (hin : pc.inside = true)
    (hkeeps : ∀ j, pc.keeps = some j → j = i) (hwrites : ∀ j, pc.writes = some j → j = i)
    (hgone : pc.keeps ≠ some i → pc.writes ≠ some i → x.in_use = 0) :
    Inv ((s.write i x).goto c pc) := by
  have hnone : (s.pc c).keeps = none := by
    cases hp : s.pc c <;> rw [hp] at hw <;> first | rfl | cases hw
  refine h.move rfl (h.lock_same rfl rfl (hin.trans (Pc.inside_of_writes hw).symm)) ?_ hlocal ?_ ?_ ?_
  · intro j hj
    have hne : j ≠ i := fun he => hj (he ▸ hw)
    exact Function.update_of_ne hne _ _
  · exact fun j hj => .inr (hkeeps j hj ▸ hw)
  · exact fun j hj => .inl (hwrites j hj ▸ hw)
  · intro j hj hk' hw'
    obtain rfl : i = j := by
      rcases hj with hj | hj
      · rw [hnone] at hj
        cases hj
      · exact Option.some.inj (hw.symm.trans hj)
    show (Function.update s.shm i x i).in_use = 0
    rw [Function.update_self]
    exact hgone hk' hw'

/-- A step of the search for an entry that is not in use. -/
theorem Inv.search {k : ℕ} (h : Inv s) (hpc : s.pc c = .search k)
    (hs : advance s c ok = some t) : Inv t := by
  have hknows := h.knows c
  rw [hpc] at hknows
  unfold advance at hs
  rw [hpc] at hs
  dsimp only at hs
  split at hs
  · next hk =>
    split at hs
    · next hzero =>
      obtain rfl := Option.some.inj hs
      refine h.claim hpc ?_ rfl rfl rfl rfl (.inr ⟨rfl, hzero⟩)
      exact ⟨fun hk => absurd hk (by decide), fun hk => absurd hk (by decide), by decide⟩
    · next hne =>
      obtain rfl := Option.some.inj hs
      refine h.go hpc (fun i hi => ?_) rfl rfl rfl
      rcases Nat.lt_or_eq_of_le (Nat.le_of_lt_succ hi) with hlt | heq
      · exact hknows i hlt
      · have : i = ⟨k, hk⟩ := Fin.ext heq
        exact this ▸ hne
  · next hk =>
    obtain rfl := Option.some.inj hs
    exact h.go hpc (fun i => hknows i (by have := i.isLt; omega)) rfl rfl rfl

/-- An assignment of `stats_init`. -/
theorem Inv.fill {k : ℕ} (h : Inv s) (hpc : s.pc c = .fill i k) (hs : advance s c ok = some t) :
    Inv t := by
  have hknows := h.knows c
  rw [hpc] at hknows
  obtain ⟨hpid, huse, hk⟩ := hknows
  unfold advance at hs
  rw [hpc] at hs
  obtain rfl := Option.some.inj hs
  have hw : (s.pc c).writes = some i := by rw [hpc]; rfl
  by_cases hlast : k < 6
  · rw [if_pos hlast]
    refine h.put hw ?_ rfl (fun j hj => nomatch hj) (fun j hj => (Option.some.inj hj).symm)
      fun _ hne => absurd rfl hne
    refine ⟨fun _ => ?_, fun _ => ?_, hlast⟩
    · rw [Function.update_self, fillField_pid]
      split
      · rfl
      · exact hpid (by omega)
    · rw [Function.update_self, fillField_in_use, if_pos (by omega)]
  · rw [if_neg hlast]
    refine h.put hw ?_ rfl (fun j hj => (Option.some.inj hj).symm) (fun j hj => nomatch hj)
      fun hne _ => absurd rfl hne
    constructor
    · rw [Function.update_self, fillField_pid, if_neg (by omega)]
      exact hpid (by omega)
    · rw [Function.update_self, fillField_in_use, if_neg (by omega)]
      exact huse (by omega)

/-- A step of the search for the client's own entry, which the search meets before it ends. -/
theorem Inv.find {k : ℕ} (h : Inv s) (hpc : s.pc c = .find i k) (hs : advance s c ok = some t) :
    Inv t := by
  have hknows := h.knows c
  rw [hpc] at hknows
  obtain ⟨hown, hle⟩ := hknows
  unfold advance at hs
  rw [hpc] at hs
  dsimp only at hs
  split at hs
  · next hk =>
    split at hs
    · next huse =>
      obtain rfl := Option.some.inj hs
      exact h.go hpc ⟨hown, hle, huse⟩ rfl rfl rfl
    · next huse =>
      obtain rfl := Option.some.inj hs
      have hne : k ≠ i.val := by
        rintro rfl
        exact huse hown.2
      exact h.go hpc ⟨hown, by omega⟩ rfl rfl rfl
  · next hk =>
    have := i.isLt
    omega

/-- An entry in use with the pid of the client that is in `stats_unlink` is the one that it has. -/
theorem Inv.eq_of_pid (h : Inv s) (hpc : s.pc c = .findPid i j) (huse : (s.shm j).in_use = 1)
    (hpid : (s.shm j).pid = c) : j = i := by
  have hkeeps : (s.pc c).keeps = some i := by rw [hpc]; rfl
  have hc : (s.pc c).inside = true := by rw [hpc]; rfl
  by_contra hne
  have hnobody : ∀ d, (s.pc d).keeps ≠ some j := by
    intro d hd
    have hdc : d = c := ((h.knows d).entry hd).1.symm.trans hpid
    rw [hdc, hkeeps] at hd
    exact hne (Option.some.inj hd).symm
  have hnowrite : ∀ d, (s.pc d).writes ≠ some j := by
    intro d hw
    obtain ⟨holder, hexcl, -⟩ := h.lock
    obtain rfl := hexcl.unique (Pc.inside_of_writes hw) hc
    rw [hpc] at hw
    cases hw
  have hfree := h.free j fun d => ⟨hnobody d, hnowrite d⟩
  omega

theorem Inv.findPid (h : Inv s) (hpc : s.pc c = .findPid i j) (hs : advance s c ok = some t) :
    Inv t := by
  have hknows := h.knows c
  rw [hpc] at hknows
  obtain ⟨hown, hle, huse⟩ := hknows
  unfold advance at hs
  rw [hpc] at hs
  dsimp only at hs
  split at hs
  · next hpid =>
    obtain rfl := Option.some.inj hs
    obtain rfl := h.eq_of_pid hpc huse hpid
    exact h.claim hpc ⟨fun hk => absurd hk (by decide), by decide⟩ rfl rfl rfl rfl (.inl rfl)
  · next hpid =>
    obtain rfl := Option.some.inj hs
    have hne : j ≠ i := by
      rintro rfl
      exact hpid hown.1
    have hlt : j.val < i.val := Nat.lt_of_le_of_ne hle fun he => hne (Fin.ext he)
    exact h.go hpc ⟨hown, hlt⟩ rfl rfl rfl

/-- A part of `shm[i] = zero`. -/
theorem Inv.clear {k : ℕ} (h : Inv s) (hpc : s.pc c = .clear j k) (hs : advance s c ok = some t) :
    Inv t := by
  have hknows := h.knows c
  rw [hpc] at hknows
  obtain ⟨huse, hk⟩ := hknows
  unfold advance at hs
  rw [hpc] at hs
  obtain rfl := Option.some.inj hs
  have hw : (s.pc c).writes = some j := by rw [hpc]; rfl
  by_cases hlast : k < 6
  · rw [if_pos hlast]
    refine h.put hw ⟨fun _ => ?_, hlast⟩ rfl (fun i hi => nomatch hi)
      (fun i hi => (Option.some.inj hi).symm) fun _ hne => absurd rfl hne
    rw [Function.update_self, zeroField_in_use]
    split
    · rfl
    · exact huse (by omega)
  · rw [if_neg hlast]
    refine h.put hw trivial rfl (fun i hi => nomatch hi) (fun i hi => nomatch hi) fun _ _ => ?_
    rw [zeroField_in_use, if_neg (by omega)]
    exact huse (by omega)

theorem advance_inv (h : Inv s) (hs : advance s c ok = some t) : Inv t := by
  have hknows := h.knows c
  have hstep := hs
  unfold advance at hs
  split at hs
  · next hpc => exact Option.some.inj hs ▸ h.go hpc trivial rfl rfl rfl
  · next hpc =>
    obtain ⟨hpos, hs⟩ := Option.ite_none_right_eq_some.mp hs
    exact Option.some.inj hs ▸ h.wait hpc hpos trivial rfl rfl rfl
  · next hpc =>
    obtain rfl := Option.some.inj hs
    cases ok with
    | true => exact h.go hpc trivial rfl rfl rfl
    | false => exact h.go hpc trivial rfl rfl rfl
  · next hpc =>
    obtain rfl := Option.some.inj hs
    cases ok with
    | true => exact h.go hpc (fun i hi => absurd hi (Nat.not_lt_zero _)) rfl rfl rfl
    | false => exact h.go hpc trivial rfl rfl rfl
  · next hpc => exact h.search hpc hstep
  · next hpc => exact h.fill hpc hstep
  · next r hpc =>
    rw [hpc] at hknows
    obtain rfl := Option.some.inj hs
    cases r with
    | slot i => exact h.post hpc rfl hknows rfl rfl rfl
    | noRoom => exact h.post hpc rfl trivial rfl rfl rfl
    | failed => exact h.post hpc rfl trivial rfl rfl rfl
  · next i hpc =>
    rw [hpc] at hknows
    exact Option.some.inj hs ▸ h.go hpc hknows rfl rfl rfl
  · next i hpc =>
    rw [hpc] at hknows
    obtain ⟨hpos, hs⟩ := Option.ite_none_right_eq_some.mp hs
    exact Option.some.inj hs ▸ h.wait hpc hpos ⟨hknows, Nat.zero_le _⟩ rfl rfl rfl
  · next hpc => exact h.find hpc hstep
  · next hpc => exact h.findPid hpc hstep
  · next hpc => exact h.clear hpc hstep
  · next hpc => exact Option.some.inj hs ▸ h.go hpc trivial rfl rfl rfl
  · next hpc => exact Option.some.inj hs ▸ h.post hpc rfl trivial rfl rfl rfl

/-- What a client knows are pids and marks. -/
theorem Local.congr {shm shm' : Slot → Stat} (h : Local shm c pc)
    (hsame : ∀ i, (shm' i).pid = (shm i).pid ∧ (shm' i).in_use = (shm i).in_use) :
    Local shm' c pc := by
  obtain ⟨hpid, huse⟩ := forall_and.mp hsame
  cases pc with
  | initPost r =>
      cases r with
      | slot i => simpa only [Local, hpid, huse] using h
      | noRoom => simpa only [Local, huse] using h
      | failed => trivial
  | search j => simpa only [Local, huse] using h
  | fill i k => simpa only [Local, hpid, huse] using h
  | running i => simpa only [Local, hpid, huse] using h
  | unlinkWait i => simpa only [Local, hpid, huse] using h
  | find i j => simpa only [Local, hpid, huse] using h
  | findPid i j => simpa only [Local, hpid, huse] using h
  | clear i k => simpa only [Local, huse] using h
  | _ => trivial

theorem step_inv {a : ℕ × Event} (h : Inv s) (hs : step s a = some t) : Inv t := by
  unfold step at hs
  split at hs
  · exact advance_inv h hs
  · split at hs
    · next counter priority modified cpu_secs argv _ _ i hpc =>
      obtain rfl := Option.some.inj hs
      have hsame : ∀ j, ((s.write i { s.shm i with counter, priority, modified, cpu_secs, argv }).shm
          j).pid = (s.shm j).pid ∧ ((s.write i { s.shm i with
            counter, priority, modified, cpu_secs, argv }).shm j).in_use = (s.shm j).in_use := by
        intro j
        by_cases hj : j = i
        · subst hj
          simp [State.write]
        · simp [State.write, hj]
      exact ⟨h.lock, h.one, fun c => (h.knows c).congr hsame, h.apart,
        fun j hj => (hsame j).2.trans (h.free j hj)⟩
    · cases hs

theorem init_inv : Inv init := by
  have hexcl : Exclusive none fun c => (init.pc c).inside = true :=
    fun c => iff_of_false (fun hc => nomatch hc) Bool.false_ne_true
  exact ⟨⟨none, hexcl, rfl⟩, fun c d i _ _ hc => (nomatch hc), fun c => trivial,
    fun c i hi => (nomatch hi), fun i _ => rfl⟩

/-! ## The entries in every run -/

/-- What the semaphore is for. -/
structure SlotsOwned (s : State) : Prop where
  distinct : ∀ c d i, Owns s c i → Owns s d i → c = d
  marked : ∀ c i, Owns s c i → (s.shm i).in_use = 1 ∧ (s.shm i).pid = c
  noRoom : ∀ c, s.pc c = .initPost .noRoom → ∀ i, ∃ d, Owns s d i
  outside : (∀ c, (s.pc c).inside = false) → s.sem = 1 ∧
    ∀ i, ((s.shm i).in_use = 1 ↔ ∃ c, Owns s c i) ∧ ((s.shm i).in_use = 0 ↔ ¬ ∃ c, Owns s c i)

theorem Owns.keeps (h : Owns s c i) : (s.pc c).keeps = some i := by
  rcases h with h | h
  · rw [h]
    rfl
  · rw [h]
    rfl

theorem owns_of_keeps (h : (s.pc c).keeps = some i) (hout : (s.pc c).inside = false) :
    Owns s c i := by
  unfold Owns
  cases hpc : s.pc c with
  | running j =>
      rw [hpc] at h
      exact .inl (congrArg Pc.running (Option.some.inj h))
  | unlinkWait j =>
      rw [hpc] at h
      exact .inr (congrArg Pc.unlinkWait (Option.some.inj h))
  | out => rw [hpc] at h; cases h
  | initWait => rw [hpc] at h; cases h
  | _ => rw [hpc] at hout; cases hout

/-- An entry in use that nobody is writing has an owner. -/
theorem Inv.exists_keeps (h : Inv s) (huse : (s.shm i).in_use ≠ 0)
    (hw : ∀ c, (s.pc c).writes ≠ some i) : ∃ c, (s.pc c).keeps = some i := by
  by_contra hno
  exact huse (h.free i fun c => ⟨not_exists.mp hno c, hw c⟩)

theorem Inv.slotsOwned (h : Inv s) : SlotsOwned s := by
  have hmarked : ∀ c i, Owns s c i → (s.shm i).in_use = 1 ∧ (s.shm i).pid = c :=
    fun c i hc => ((h.knows c).entry hc.keeps).symm
  refine ⟨?_, hmarked, ?_, ?_⟩
  · exact fun c d i hc hd => h.one c d i trivial trivial hc.keeps hd.keeps
  · intro c hpc i
    obtain ⟨holder, hexcl, -⟩ := h.lock
    have hin : (s.pc c).inside = true := by rw [hpc]; rfl
    have huse : (s.shm i).in_use ≠ 0 := by
      have := h.knows c
      rw [hpc] at this
      exact this i
    have hother : ∀ d, (s.pc d).inside = true → s.pc d = .initPost .noRoom := by
      intro d hd
      rw [hexcl.unique hd hin, hpc]
    obtain ⟨d, hd⟩ := h.exists_keeps huse fun d hw => by
      rw [hother d (Pc.inside_of_writes hw)] at hw
      cases hw
    refine ⟨d, owns_of_keeps hd ?_⟩
    rw [← Bool.not_eq_true]
    intro hdin
    rw [hother d hdin] at hd
    cases hd
  · intro hout
    obtain ⟨holder, hexcl, hsem⟩ := h.lock
    obtain rfl : holder = none := by
      cases holder with
      | none => rfl
      | some c =>
          have hc : (s.pc c).inside = true := (hexcl c).mp rfl
          rw [hout c] at hc
          cases hc
    have hnobody : ∀ i, (s.shm i).in_use ≠ 0 → ∃ c, Owns s c i := by
      intro i huse
      obtain ⟨c, hc⟩ := h.exists_keeps huse fun c hw => by
        have hin := Pc.inside_of_writes hw
        rw [hout c] at hin
        cases hin
      exact ⟨c, owns_of_keeps hc (hout c)⟩
    refine ⟨hsem, fun i => ⟨⟨fun huse => ?_, fun ⟨c, hc⟩ => ?_⟩, ⟨fun huse => ?_, fun hno => ?_⟩⟩⟩
    · exact hnobody i (by omega)
    · exact (hmarked c i hc).1
    · rintro ⟨c, hc⟩
      have := (hmarked c i hc).1
      omega
    · by_contra huse
      exact hno (hnobody i huse)

theorem slotsOwned_of_run (h : Run step (fun _ _ => True) init s) : SlotsOwned s :=
  (h.invariant init_inv fun _ _ _ ht _ hs => step_inv ht hs).slotsOwned

/-- Client 7 gets an entry, while the `shmget` of client 9 fails. -/
theorem slotsOwned_seven : ∃ s, SlotsOwned s ∧ Owns s 7 0 ∧ s.pc 9 = .out := by
  obtain ⟨s, hs, hpc⟩ : ∃ s, play step (List.replicate 12 (7, Event.go true) ++
      [(7, .go true), (9, .go true), (9, .go true), (9, .go false), (9, .go true)]) init = some s ∧
        s.pc 7 = .running 0 ∧ s.pc 9 = .out := ⟨_, rfl, by decide, by decide⟩
  exact ⟨s, slotsOwned_of_run (.of_play hs), .inl hpc.1, hpc.2⟩

end

end IntroToOS.Stats

import IntroToOS.Threads.AddressSpaces

/-! # Who is in the table

The part of a process that `wait` and `join` go by: whether its slot is in use, whether it is a
zombie, its pid, its parent, and what `clone` has recorded. Most calls leave all of it alone
(`SameTable`); the rest of this module says what `fork`, `clone` and `exit` do to it.
-/

namespace IntroToOS.Threads
open Lib
set_option autoImplicit false

/-- What the table says about the processes in it is the same, and no pid is handed out twice. -/
structure SameTable (s s' : Kernel) : Prop where
  initproc : s'.initproc = s.initproc
  nextpid : s.nextpid ≤ s'.nextpid
  unused : ∀ p, (s'.proc p).state = .UNUSED ↔ (s.proc p).state = .UNUSED
  zombie : ∀ p, (s'.proc p).state = .ZOMBIE ↔ (s.proc p).state = .ZOMBIE
  is_thread : ∀ p, (s'.proc p).is_thread = (s.proc p).is_thread
  kept : ∀ p, (s.proc p).state ≠ .UNUSED → (s'.proc p).pid = (s.proc p).pid ∧
    (s'.proc p).parent = (s.proc p).parent ∧ (s'.proc p).stack = (s.proc p).stack

section
variable {s s' t : Kernel} {p q : ProcId} {x : Proc}

theorem SameTable.refl (s : Kernel) : SameTable s s :=
  ⟨rfl, Nat.le_refl _, fun _ => Iff.rfl, fun _ => Iff.rfl, fun _ => rfl, fun _ _ => ⟨rfl, rfl, rfl⟩⟩

theorem SameTable.trans (h : SameTable s s') (h' : SameTable s' t) : SameTable s t where
  initproc := h'.initproc.trans h.initproc
  nextpid := Nat.le_trans h.nextpid h'.nextpid
  unused p := (h'.unused p).trans (h.unused p)
  zombie p := (h'.zombie p).trans (h.zombie p)
  is_thread p := (h'.is_thread p).trans (h.is_thread p)
  kept := by
    intro p hp
    obtain ⟨h1, h2, h3⟩ := h.kept p hp
    obtain ⟨h4, h5, h6⟩ := h'.kept p (fun hu => hp ((h.unused p).mp hu))
    exact ⟨h4.trans h1, h5.trans h2, h6.trans h3⟩

/-- The parts of a process that the table is about. -/
structure SameEntry (x y : Proc) : Prop where
  unused : y.state = .UNUSED ↔ x.state = .UNUSED
  zombie : y.state = .ZOMBIE ↔ x.state = .ZOMBIE
  is_thread : y.is_thread = x.is_thread
  pid : y.pid = x.pid
  parent : y.parent = x.parent
  stack : y.stack = x.stack

theorem SameEntry.refl (x : Proc) : SameEntry x x := ⟨Iff.rfl, Iff.rfl, rfl, rfl, rfl, rfl⟩

theorem SameTable.of_entries (hi : s'.initproc = s.initproc) (hn : s'.nextpid = s.nextpid)
    (h : ∀ p, SameEntry (s.proc p) (s'.proc p)) : SameTable s s' :=
  ⟨hi, Nat.le_of_eq hn.symm, fun p => (h p).unused, fun p => (h p).zombie,
    fun p => (h p).is_thread, fun p _ => ⟨(h p).pid, (h p).parent, (h p).stack⟩⟩

theorem SameTable.setProc (h : SameEntry (s.proc p) x) : SameTable s (s.setProc p x) := by
  refine .of_entries rfl rfl fun q => ?_
  by_cases hq : q = p
  · subst hq
    rwa [Kernel.setProc_self]
  · rw [Kernel.setProc_of_ne hq]
    exact .refl _

theorem SameTable.setFiles (files : Files) : SameTable s (s.setFiles files) :=
  .of_entries rfl rfl fun p => .refl (s.proc p)

theorem wakeup1_entry (s : Kernel) (chan p : ProcId) :
    SameEntry (s.proc p) ((wakeup1 s chan).proc p) := by
  simp only [wakeup1]
  split
  · next h => exact ⟨by simp [h.1], by simp [h.1], rfl, rfl, rfl, rfl⟩
  · exact .refl _

theorem SameTable.wakeup1 (chan : ProcId) : SameTable s (wakeup1 s chan) :=
  .of_entries rfl rfl (wakeup1_entry s chan)

theorem embryo_is_thread (s : Kernel) (np : ProcId) :
    ((s.embryo np).proc np).is_thread = (s.proc np).is_thread := by
  rw [embryo_proc_self]

theorem embryo_pid (s : Kernel) (np : ProcId) : ((s.embryo np).proc np).pid = s.nextpid := by
  rw [embryo_proc_self]

/-- A slot that `allocproc` has taken is given up again. -/
theorem SameTable.abandon {u : Kernel} (hfree : (s.proc p).state = .UNUSED)
    (hu : ∀ q, q ≠ p → u.proc q = s.proc q) (hi : u.initproc = s.initproc)
    (hn : s.nextpid ≤ u.nextpid) (hx : x.state = .UNUSED)
    (ht : x.is_thread = (s.proc p).is_thread) : SameTable s (u.setProc p x) where
  initproc := hi
  nextpid := hn
  unused := by
    intro q
    by_cases hq : q = p
    · subst hq
      rw [Kernel.setProc_self]
      exact iff_of_true hx hfree
    · rw [Kernel.setProc_of_ne hq, hu q hq]
  zombie := by
    intro q
    by_cases hq : q = p
    · subst hq
      rw [Kernel.setProc_self, hx, hfree]
    · rw [Kernel.setProc_of_ne hq, hu q hq]
  is_thread := by
    intro q
    by_cases hq : q = p
    · subst hq
      rw [Kernel.setProc_self, ht]
    · rw [Kernel.setProc_of_ne hq, hu q hq]
  kept := by
    intro q hq
    have hqp : q ≠ p := by
      rintro rfl
      exact hq hfree
    rw [Kernel.setProc_of_ne hqp, hu q hqp]
    exact ⟨rfl, rfl, rfl⟩

theorem SameTable.allocproc {k : Bool} (h : allocproc s k = (s', none)) : SameTable s s' := by
  rcases allocproc_none h with rfl | ⟨np, hfree, rfl⟩
  · exact .refl _
  · exact .abandon hfree (fun q hq => embryo_proc_of_ne hq) rfl (Nat.le_succ _) rfl
      (embryo_is_thread s np)

/-! ## A new process -/

/-- Slot `np` is taken for a child of `p`; `stack` is that of a thread. -/
structure Makes (s : Kernel) (p np : ProcId) (stack : Option ℕ) (s' : Kernel) : Prop where
  initproc : s'.initproc = s.initproc
  nextpid : s'.nextpid = s.nextpid + 1
  free : (s.proc np).state = .UNUSED
  state : (s'.proc np).state = .RUNNABLE
  pid : (s'.proc np).pid = s.nextpid
  parent : (s'.proc np).parent = some p
  is_thread : (s'.proc np).is_thread = (stack.isSome || (s.proc np).is_thread)
  stack : ∀ st ∈ stack, (s'.proc np).stack = st
  others : ∀ q, q ≠ np → s'.proc q = s.proc q

theorem fork_entries {k : Bool} {c : Copy} {r : Reply} (hf : fork s p k c = .ok (t, r)) :
    SameTable s t ∨ ∃ np, Makes s p np none t := by
  unfold fork at hf
  split at hf
  · next u halloc =>
    obtain ⟨rfl, -⟩ := Prod.mk.inj (Except.ok.inj hf)
    exact .inl (.allocproc halloc)
  · next u np halloc =>
    obtain ⟨hfree, -, rfl⟩ := allocproc_some halloc
    obtain ⟨⟨v, pgdir⟩, hcopy, hf⟩ := bind_eq_ok.mp hf
    cases c with
    | noDir =>
        obtain ⟨rfl, rfl⟩ := Prod.mk.inj (Except.ok.inj hcopy)
        obtain ⟨rfl, -⟩ := Prod.mk.inj (Except.ok.inj hf)
        exact .inl (.abandon hfree (fun q hq => embryo_proc_of_ne hq) rfl (Nat.le_succ _) rfl
          (embryo_is_thread s np))
    | noPage =>
        obtain ⟨rfl, rfl⟩ := Prod.mk.inj (Except.ok.inj hcopy)
        obtain ⟨rfl, -⟩ := Prod.mk.inj (Except.ok.inj hf)
        exact .inl (.abandon hfree (fun q hq => embryo_proc_of_ne hq) rfl (Nat.le_succ _) rfl
          (embryo_is_thread s np))
    | done =>
        obtain ⟨rfl, rfl⟩ := Prod.mk.inj (Except.ok.inj hcopy)
        obtain ⟨⟨files, ofile⟩, -, hf⟩ := bind_eq_ok.mp hf
        obtain ⟨⟨files', cwd⟩, -, hf⟩ := bind_eq_ok.mp hf
        obtain ⟨rfl, -⟩ := Prod.mk.inj (Except.ok.inj hf)
        refine .inr ⟨np, rfl, rfl, hfree, ?_, ?_, ?_, ?_, ?_, fun q hq => ?_⟩
        · rw [Kernel.setProc_self]
        · rw [Kernel.setProc_self]
          exact embryo_pid s np
        · rw [Kernel.setProc_self]
        · rw [Kernel.setProc_self]
          exact embryo_is_thread s np
        · simp
        · rw [Kernel.setProc_of_ne hq]
          exact embryo_proc_of_ne hq

theorem thread_fork_entries {k : Bool} {stack : ℕ} :
    SameTable s (thread_fork s p k stack).1 ∨
      ∃ np, Makes s p np (some stack) (thread_fork s p k stack).1 := by
  unfold thread_fork
  split
  · next u halloc => exact .inl (.allocproc halloc)
  · next u np halloc =>
    obtain ⟨hfree, -, rfl⟩ := allocproc_some halloc
    refine .inr ⟨np, rfl, rfl, hfree, ?_, ?_, ?_, ?_, ?_, fun q hq => ?_⟩
    · rw [Kernel.setProc_self]
    · rw [Kernel.setProc_self]
      exact embryo_pid s np
    · rw [Kernel.setProc_self]
    · rw [Kernel.setProc_self]
      rfl
    · rw [Kernel.setProc_self]
      simp
    · rw [Kernel.setProc_of_ne hq]
      exact embryo_proc_of_ne hq

/-! ## A process leaves -/

/-- `p` becomes a zombie and its children those of `init`. -/
structure Leaves (s : Kernel) (p init : ProcId) (s' : Kernel) : Prop where
  notInit : p ≠ init
  initproc : s.initproc = some init
  initproc' : s'.initproc = some init
  nextpid : s'.nextpid = s.nextpid
  unused : ∀ q, (s'.proc q).state = .UNUSED ↔ (s.proc q).state = .UNUSED
  zombie : ∀ q, (s'.proc q).state = .ZOMBIE ↔ q = p ∨ (s.proc q).state = .ZOMBIE
  kept : ∀ q, (s'.proc q).is_thread = (s.proc q).is_thread ∧ (s'.proc q).pid = (s.proc q).pid ∧
    (s'.proc q).stack = (s.proc q).stack
  parent : ∀ q, (s'.proc q).parent =
    if (s.proc q).parent = some p then some init else (s.proc q).parent

theorem SameEntry.trans {x y z : Proc} (h : SameEntry x y) (h' : SameEntry y z) :
    SameEntry x z :=
  ⟨h'.unused.trans h.unused, h'.zombie.trans h.zombie, h'.is_thread.trans h.is_thread,
    h'.pid.trans h.pid, h'.parent.trans h.parent, h'.stack.trans h.stack⟩

/-- One turn of the loop of `exit` that passes the children on. -/
def adopt (p init : ProcId) (s : Kernel) (r : ProcId) : Kernel :=
  if (s.proc r).parent = some p then
    let s := s.setProc r { s.proc r with parent := some init }
    if (s.proc r).state = .ZOMBIE then wakeup1 s init else s
  else s

def adopted (p init : ProcId) (x : Proc) : Proc :=
  { x with parent := if x.parent = some p then some init else x.parent }

theorem adopt_other {init r : ProcId} (hq : q ≠ r) :
    SameEntry (s.proc q) ((adopt p init s r).proc q) := by
  have hset : (s.setProc r { s.proc r with parent := some init }).proc q = s.proc q :=
    Kernel.setProc_of_ne hq
  unfold adopt
  by_cases hr : (s.proc r).parent = some p
  · rw [if_pos hr]
    by_cases hz : ((s.setProc r { s.proc r with parent := some init }).proc r).state = .ZOMBIE
    · have hwake := wakeup1_entry (s.setProc r { s.proc r with parent := some init }) init q
      rw [hset] at hwake
      simpa only [if_pos hz] using hwake
    · simp only [if_neg hz, hset]
      exact .refl _
  · rw [if_neg hr]
    exact .refl _

theorem adopt_self (init r : ProcId) :
    SameEntry (adopted p init (s.proc r)) ((adopt p init s r).proc r) := by
  unfold adopt adopted
  by_cases hr : (s.proc r).parent = some p
  · have hset : (s.setProc r { s.proc r with parent := some init }).proc r =
        { s.proc r with parent := some init } := Kernel.setProc_self
    rw [if_pos hr, if_pos hr]
    by_cases hz : (s.proc r).state = .ZOMBIE
    · have hwake := wakeup1_entry (s.setProc r { s.proc r with parent := some init }) init r
      rw [hset] at hwake
      simpa only [hset, if_pos hz] using hwake
    · simp only [hset, if_neg hz]
      exact .refl _
  · rw [if_neg hr, if_neg hr]
    exact .refl _

theorem adopted_adopted {init : ProcId} (h : p ≠ init) (x : Proc) :
    adopted p init (adopted p init x) = adopted p init x := by
  unfold adopted
  by_cases hx : x.parent = some p
  · have hne : ¬ some init = some p := fun he => h (Option.some.inj he).symm
    simp [hx, hne]
  · simp [hx]

theorem SameEntry.adopted {x y : Proc} (h : SameEntry x y) (p init : ProcId) :
    SameEntry (adopted p init x) (adopted p init y) :=
  ⟨h.unused, h.zombie, h.is_thread, h.pid, by simp only [Threads.adopted, h.parent], h.stack⟩

/-- The loop passes on the children that it meets. -/
theorem foldl_adopt {init : ProcId} (h : p ≠ init) (l : List ProcId) (s : Kernel) (q : ProcId) :
    SameEntry (if q ∈ l then adopted p init (s.proc q) else s.proc q)
      ((l.foldl (adopt p init) s).proc q) := by
  induction l generalizing s with
  | nil => exact .refl _
  | cons r l ih =>
      rw [List.foldl_cons]
      refine SameEntry.trans ?_ (ih (adopt p init s r))
      by_cases hq : q = r
      · subst hq
        have hself : SameEntry (adopted p init (s.proc q)) ((adopt p init s q).proc q) :=
          adopt_self init q
        rw [if_pos (List.mem_cons_self ..)]
        by_cases hl : q ∈ l
        · have htwice := hself.adopted p init
          rw [adopted_adopted h] at htwice
          rwa [if_pos hl]
        · rwa [if_neg hl]
      · have hother : SameEntry (s.proc q) ((adopt p init s r).proc q) := adopt_other hq
        by_cases hl : q ∈ l
        · rw [if_pos (List.mem_cons_of_mem r hl), if_pos hl]
          exact hother.adopted p init
        · have hcons : q ∉ r :: l := by simp [hq, hl]
          rw [if_neg hcons, if_neg hl]
          exact hother

theorem reparent_eq (s : Kernel) (p init : ProcId) :
    reparent s p init = (List.finRange NPROC).foldl (adopt p init) s := rfl

theorem reparent_entry {init : ProcId} (h : p ≠ init) (s : Kernel) (q : ProcId) :
    SameEntry (adopted p init (s.proc q)) ((reparent s p init).proc q) := by
  have hfold : ∀ l : List ProcId, q ∈ l →
      SameEntry (adopted p init (s.proc q)) ((l.foldl (adopt p init) s).proc q) := by
    intro l hl
    have := foldl_adopt h l s q
    rwa [if_pos hl] at this
  rw [reparent_eq]
  exact hfold (List.finRange NPROC) (List.mem_finRange q)

theorem reparent_rest (s : Kernel) (p init : ProcId) :
    (reparent s p init).initproc = s.initproc ∧ (reparent s p init).nextpid = s.nextpid := by
  have hadopt : ∀ (s : Kernel) r, (adopt p init s r).initproc = s.initproc ∧
      (adopt p init s r).nextpid = s.nextpid := by
    intro s r
    simp only [adopt]
    split
    · split
      · exact ⟨rfl, rfl⟩
      · exact ⟨rfl, rfl⟩
    · exact ⟨rfl, rfl⟩
  have hfold : ∀ (l : List ProcId) (s : Kernel), (l.foldl (adopt p init) s).initproc = s.initproc ∧
      (l.foldl (adopt p init) s).nextpid = s.nextpid := by
    intro l
    induction l with
    | nil => exact fun s => ⟨rfl, rfl⟩
    | cons r l ih =>
        intro s
        obtain ⟨h1, h2⟩ := ih (adopt p init s r)
        exact ⟨h1.trans (hadopt s r).1, h2.trans (hadopt s r).2⟩
  exact hfold (List.finRange NPROC) s

theorem wakeupParent_entry (s : Kernel) (p q : ProcId) :
    SameEntry (s.proc q) ((wakeupParent s p).proc q) := by
  unfold wakeupParent
  split
  · exact .refl _
  · exact wakeup1_entry s _ q

theorem wakeupParent_rest (s : Kernel) (p : ProcId) :
    (wakeupParent s p).initproc = s.initproc ∧ (wakeupParent s p).nextpid = s.nextpid := by
  unfold wakeupParent
  split <;> exact ⟨rfl, rfl⟩

theorem exit_entries {r : Reply} (hp : (s.proc p).state = .RUNNING)
    (he : exit s p = .ok (t, r)) : ∃ init, Leaves s p init t := by
  unfold exit at he
  split at he
  · cases he
  · next init hinit =>
    split at he
    · cases he
    · next hne =>
      obtain ⟨⟨files, ofile⟩, -, he⟩ := bind_eq_ok.mp he
      obtain ⟨rfl, -⟩ := Prod.mk.inj (Except.ok.inj he)
      generalize hA : (s.setFiles files).setProc p { s.proc p with ofile, cwd := none } = A
      have hentryA : ∀ q, SameEntry (s.proc q) (A.proc q) := by
        intro q
        subst hA
        by_cases hq : q = p
        · subst hq
          rw [Kernel.setProc_self]
          exact ⟨Iff.rfl, Iff.rfl, rfl, rfl, rfl, rfl⟩
        · rw [Kernel.setProc_of_ne hq]
          exact .refl _
      have hrestA : A.initproc = s.initproc ∧ A.nextpid = s.nextpid := by
        subst hA
        exact ⟨rfl, rfl⟩
      generalize hC : reparent (wakeupParent A p) p init = C
      have hentry : ∀ q, SameEntry (adopted p init (s.proc q)) (C.proc q) := by
        intro q
        subst hC
        exact (((hentryA q).trans (wakeupParent_entry A p q)).adopted p init).trans
          (reparent_entry hne _ q)
      have hrest : C.initproc = s.initproc ∧ C.nextpid = s.nextpid := by
        subst hC
        exact ⟨(reparent_rest ..).1.trans ((wakeupParent_rest A p).1.trans hrestA.1),
          (reparent_rest ..).2.trans ((wakeupParent_rest A p).2.trans hrestA.2)⟩
      have hself : (C.setState p .ZOMBIE).proc p = { C.proc p with state := .ZOMBIE } :=
        Kernel.setProc_self
      have hother : ∀ q, q ≠ p → (C.setState p .ZOMBIE).proc q = C.proc q := fun q hq =>
        Kernel.setState_of_ne hq
      refine ⟨init, hne, hinit, hrest.1.trans hinit, hrest.2, fun q => ?_, fun q => ?_,
        fun q => ?_, fun q => ?_⟩
      · by_cases hq : q = p
        · subst hq
          rw [hself, hp]
          exact iff_of_false (by simp) (by simp)
        · rw [hother q hq]
          exact (hentry q).unused
      · by_cases hq : q = p
        · subst hq
          rw [hself]
          simp
        · rw [hother q hq]
          exact (hentry q).zombie.trans (by simp [adopted, hq])
      · have hC := hentry q
        by_cases hq : q = p
        · subst hq
          rw [hself]
          exact ⟨hC.is_thread, hC.pid, hC.stack⟩
        · rw [hother q hq]
          exact ⟨hC.is_thread, hC.pid, hC.stack⟩
      · have hC := (hentry q).parent
        by_cases hq : q = p
        · subst hq
          rw [hself]
          exact hC
        · rw [hother q hq]
          exact hC

/-! ## The other calls -/

theorem finish_entries (s : Kernel) (p : ProcId) : SameTable s (finish s p) :=
  .setProc ⟨Iff.rfl, Iff.rfl, rfl, rfl, rfl, rfl⟩

theorem sleep_entries {c : Blocking} (hp : (s.proc p).state = .RUNNING) :
    SameTable s (sleep s p c) :=
  .setProc ⟨by simp [hp], by simp [hp], rfl, rfl, rfl, rfl⟩

theorem kill_entries (pid : ℕ) : SameTable s (kill s pid).1 := by
  unfold kill
  split
  · exact .refl s
  · next q _ =>
    refine .setProc ⟨?_, ?_, rfl, rfl, rfl, rfl⟩
    · show (if (s.proc q).state = .SLEEPING then ProcState.RUNNABLE else (s.proc q).state) = _ ↔ _
      split
      · next h => simp [h]
      · exact Iff.rfl
    · show (if (s.proc q).state = .SLEEPING then ProcState.RUNNABLE else (s.proc q).state) = _ ↔ _
      split
      · next h => simp [h]
      · exact Iff.rfl

theorem sbrk_entries (n : ℤ) (enough : Bool) : SameTable s (sbrk s p n enough).1 := by
  have hshare : ∀ (u : Kernel) sz, SameTable u (shareSize u p sz) := by
    intro u sz
    refine .of_entries rfl rfl fun q => ?_
    simp only [shareSize]
    split
    · exact ⟨Iff.rfl, Iff.rfl, rfl, rfl, rfl, rfl⟩
    · exact .refl _
  unfold sbrk growproc
  simp only
  split
  · exact .refl s
  · refine SameTable.trans ?_ (hshare _ _)
    exact .setProc ⟨Iff.rfl, Iff.rfl, rfl, rfl, rfl, rfl⟩

theorem freevm_entries {pgdir : Option ℕ} (h : freevm s pgdir = .ok t) : SameTable s t := by
  unfold freevm at h
  split at h
  · cases h
  · obtain rfl := Except.ok.inj h
    exact .of_entries rfl rfl fun q => .refl _

theorem execLoad_entries {load : Load} {r : Reply} (he : execLoad s p load = .ok (t, r)) :
    SameTable s t := by
  have hdir : SameTable s (setupkvm s).1 := .of_entries rfl rfl fun q => .refl _
  cases load with
  | noDir =>
      obtain ⟨rfl, -⟩ := Prod.mk.inj (Except.ok.inj he)
      exact .refl _
  | bad =>
      obtain ⟨u, hfree, he⟩ := bind_eq_ok.mp he
      obtain ⟨rfl, -⟩ := Prod.mk.inj (Except.ok.inj he)
      exact hdir.trans (freevm_entries hfree)
  | done sz =>
      obtain ⟨u, hfree, he⟩ := bind_eq_ok.mp he
      obtain ⟨rfl, -⟩ := Prod.mk.inj (Except.ok.inj he)
      refine hdir.trans (SameTable.trans (.setProc ?_) (freevm_entries hfree))
      exact ⟨Iff.rfl, Iff.rfl, rfl, rfl, rfl, rfl⟩

theorem exec_entries {path : Path} {load : Load} {r : Reply} (he : exec s p path load = .ok (t, r)) :
    SameTable s t := by
  obtain ⟨⟨files, ip⟩, hn, he⟩ := bind_eq_ok.mp he
  cases ip with
  | none =>
      obtain ⟨rfl, -⟩ := Prod.mk.inj (Except.ok.inj he)
      exact .setFiles files
  | some ip =>
      obtain ⟨-, -, he⟩ := bind_eq_ok.mp he
      obtain ⟨files', -, he⟩ := bind_eq_ok.mp he
      exact SameTable.trans (.setFiles files') (execLoad_entries he)

/-- The open files of a process are no concern of the table. -/
theorem files_entries {files : Files} {ofile : Fin NOFILE → Option Fd} {cwd : Option Cwd} :
    SameTable s ((s.setFiles files).setProc p { s.proc p with ofile, cwd }) :=
  SameTable.trans (.setFiles files) (.setProc ⟨Iff.rfl, Iff.rfl, rfl, rfl, rfl, rfl⟩)

theorem sys_dup_entries {fd : ℤ} {r : Reply} (h : sys_dup s p fd = .ok (t, r)) : SameTable s t := by
  unfold sys_dup at h
  split at h
  · exact (Prod.mk.inj (Except.ok.inj h)).1 ▸ .refl s
  · split at h
    · exact (Prod.mk.inj (Except.ok.inj h)).1 ▸ .refl s
    · obtain ⟨files, -, h⟩ := bind_eq_ok.mp h
      obtain ⟨rfl, -⟩ := Prod.mk.inj (Except.ok.inj h)
      exact files_entries

theorem sys_close_entries {fd : ℤ} {r : Reply} (h : sys_close s p fd = .ok (t, r)) :
    SameTable s t := by
  unfold sys_close at h
  split at h
  · exact (Prod.mk.inj (Except.ok.inj h)).1 ▸ .refl s
  · obtain ⟨files, -, h⟩ := bind_eq_ok.mp h
    obtain ⟨rfl, -⟩ := Prod.mk.inj (Except.ok.inj h)
    refine SameTable.trans (.setProc ?_) (.setFiles files)
    exact ⟨Iff.rfl, Iff.rfl, rfl, rfl, rfl, rfl⟩

theorem sys_fstat_entries {fd : ℤ} {r : Reply} (h : sys_fstat s p fd = .ok (t, r)) :
    SameTable s t := by
  unfold sys_fstat at h
  split at h
  · exact (Prod.mk.inj (Except.ok.inj h)).1 ▸ .refl s
  · obtain ⟨x, -, h⟩ := bind_eq_ok.mp h
    exact (Prod.mk.inj (Except.ok.inj h)).1 ▸ .refl s

theorem openInode_entries {ip : InodeId} {r : Reply} (h : openInode s p ip = .ok (t, r)) :
    SameTable s t := by
  unfold openInode at h
  split at h
  · obtain ⟨files, -, h⟩ := bind_eq_ok.mp h
    exact (Prod.mk.inj (Except.ok.inj h)).1 ▸ .setFiles files
  · split at h
    · obtain ⟨_, -, h⟩ := bind_eq_ok.mp h
      obtain ⟨files, -, h⟩ := bind_eq_ok.mp h
      exact (Prod.mk.inj (Except.ok.inj h)).1 ▸ .setFiles files
    · obtain ⟨_, -, h⟩ := bind_eq_ok.mp h
      obtain ⟨rfl, -⟩ := Prod.mk.inj (Except.ok.inj h)
      exact files_entries

theorem sys_open_entries {path : Path} {refused : Bool} {r : Reply}
    (h : sys_open s p path refused = .ok (t, r)) : SameTable s t := by
  obtain ⟨⟨files, ip⟩, -, h⟩ := bind_eq_ok.mp h
  cases ip with
  | none => exact (Prod.mk.inj (Except.ok.inj h)).1 ▸ .setFiles files
  | some ip =>
      obtain ⟨-, -, h⟩ := bind_eq_ok.mp h
      cases refused with
      | false => exact SameTable.trans (.setFiles files) (openInode_entries h)
      | true =>
          obtain ⟨files', -, h⟩ := bind_eq_ok.mp h
          exact (Prod.mk.inj (Except.ok.inj h)).1 ▸ .setFiles files'

theorem sys_chdir_entries {path : Path} {isDir : Bool} {r : Reply}
    (h : sys_chdir s p path isDir = .ok (t, r)) : SameTable s t := by
  obtain ⟨⟨files, ip⟩, -, h⟩ := bind_eq_ok.mp h
  cases ip with
  | none => exact (Prod.mk.inj (Except.ok.inj h)).1 ▸ .setFiles files
  | some ip =>
      obtain ⟨-, -, h⟩ := bind_eq_ok.mp h
      cases isDir with
      | false =>
          obtain ⟨files', -, h⟩ := bind_eq_ok.mp h
          exact (Prod.mk.inj (Except.ok.inj h)).1 ▸ .setFiles files'
      | true =>
          obtain ⟨-, -, h⟩ := bind_eq_ok.mp h
          obtain ⟨files', -, h⟩ := bind_eq_ok.mp h
          obtain ⟨rfl, -⟩ := Prod.mk.inj (Except.ok.inj h)
          exact files_entries

end

end IntroToOS.Threads

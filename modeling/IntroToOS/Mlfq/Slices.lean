import IntroToOS.Mlfq.Queues

/-! # Time slices

The counters of a process are moved by five things only (`SliceStep`): `fork` sets its priority, the
timer interrupt charges it, the starvation check raises it, and the code after `swtch` looks at the
counter of the row that the process was dispatched from. When that row is the priority of the
process, and the counters of a new process are zero, every process is within its allotment
(`accounted_of_run`).
-/

namespace IntroToOS.Mlfq
open Lib
set_option autoImplicit false

/-- The part of `struct proc` that the accounting is about. -/
@[ext] structure Slice where
  priority : ℕ
  ticks : ℕ → ℕ
  accumulatedTicks : ℕ → ℕ

def Proc.slice (x : Proc) : Slice := ⟨x.priority, x.ticks, x.accumulatedTicks⟩

namespace Slice

/-- `trap` charges a tick. -/
def spend (x : Slice) : Slice where
  priority := x.priority
  ticks := Function.update x.ticks x.priority (x.ticks x.priority + 1)
  accumulatedTicks := Function.update x.accumulatedTicks x.priority (x.accumulatedTicks x.priority + 1)

/-- The starvation check raises a process. -/
def boost (x : Slice) : Slice :=
  { x with
    priority := x.priority - 1
    ticks := fun j => if x.priority - 1 ≤ j ∧ j ≤ x.priority then 0 else x.ticks j }

/-- The code after `swtch`, for a process dispatched from `row`. -/
def quantum (row : ℕ) (x : Slice) : Slice :=
  if x.ticks row = allotment row then
    { x with
      ticks := Function.update x.ticks row 0
      priority := if row < 3 then x.priority + 1 else x.priority }
  else x

variable {x : Slice} {row : ℕ}

theorem quantum_of_ne (h : x.ticks row ≠ allotment row) : x.quantum row = x := if_neg h

@[simp] theorem quantum_accumulatedTicks : (x.quantum row).accumulatedTicks = x.accumulatedTicks := by
  unfold quantum
  split <;> rfl

end Slice

/-- The process that a step charges a tick to. -/
def charged (s : Kernel) : Call → Option ProcId
  | .timer c user =>
    match (s.cpu c).current with
    | none => none
    | some d =>
      if (s.proc d.p).killed = true ∧ user = true then none
      else if (s.proc d.p).state = .RUNNING then some d.p
      else none
  | _ => none

/-- What a step does to the counters of one process. -/
inductive SliceStep (s : Kernel) (a : Call) (p : ProcId) (y : Proc) : Prop
  | idle (hc : charged s a ≠ some p) (hy : y.slice = (s.proc p).slice)
      (hused : y.state ≠ .UNUSED → (s.proc p).state ≠ .UNUSED)
  | forked (c : ℕ) (ha : a = .fork c true true) (hp : findUnused s = some p)
      (hy : y.slice = { (s.proc p).slice with priority := 0 })
  | gone (c : ℕ) (d : Dispatch) (hc : charged s a ≠ some p) (hd : (s.cpu c).current = some d)
      (hp : d.p = p) (hy : y.slice = (s.proc p).slice.quantum d.q.1)
  | boosted (c : ℕ) (user : Bool) (ha : a = .timer c user) (hc : charged s a ≠ some p)
      (hpos : 0 < (s.proc p).priority) (hstate : (s.proc p).state ≠ .UNUSED)
      (hy : y.slice = (s.proc p).slice.boost)
  | spent (c : ℕ) (d : Dispatch) (hc : charged s a = some p) (hd : (s.cpu c).current = some d)
      (hp : d.p = p) (hy : y.slice = (s.proc p).slice.spend.quantum d.q.1)

/-! ## The parts of a step -/

/-- The counters of every process are as they were, and no UNUSED process has come into use. -/
structure Keeps (s t : Kernel) : Prop where
  slice : ∀ p, (t.proc p).slice = (s.proc p).slice
  used : ∀ p, (t.proc p).state ≠ .UNUSED → (s.proc p).state ≠ .UNUSED

section
variable {s t u : Kernel} {p q : ProcId} {x : Proc}

theorem Keeps.refl : Keeps s s := ⟨fun _ => rfl, fun _ h => h⟩

theorem Keeps.trans (h : Keeps s t) (h' : Keeps t u) : Keeps s u :=
  ⟨fun p => (h'.slice p).trans (h.slice p), fun p hp => h.used p (h'.used p hp)⟩

@[simp] theorem setProc_self : (s.setProc p x).proc p = x := Function.update_self ..

theorem setProc_of_ne (h : q ≠ p) : (s.setProc p x).proc q = s.proc q := Function.update_of_ne h ..

theorem Keeps.setProc (hx : x.slice = (s.proc p).slice)
    (hused : x.state ≠ .UNUSED → (s.proc p).state ≠ .UNUSED) : Keeps s (s.setProc p x) := by
  constructor
  · intro q
    by_cases hq : q = p
    · subst hq
      rw [setProc_self, hx]
    · rw [setProc_of_ne hq]
  · intro q
    by_cases hq : q = p
    · subst hq
      rw [setProc_self]
      exact hused
    · rw [setProc_of_ne hq]
      exact id

theorem Keeps.setState (h : Keeps s t) (hp : (s.proc p).state ≠ .UNUSED) (st : ProcState) :
    Keeps s (t.setState p st) := by
  refine ⟨fun q => ?_, fun q hq => ?_⟩
  · by_cases hqp : q = p
    · subst hqp
      rw [Kernel.setState, setProc_self]
      exact h.slice q
    · rw [Kernel.setState, setProc_of_ne hqp]
      exact h.slice q
  · by_cases hqp : q = p
    · subst hqp
      exact hp
    · rw [Kernel.setState, setProc_of_ne hqp] at hq
      exact h.used q hq

/-- Changes of the other parts of the kernel. -/
theorem Keeps.of_proc (h : t.proc = s.proc) : Keeps s t := by
  constructor
  · intro p
    rw [h]
  · intro p
    rw [h]
    exact id

theorem wakeup1_keeps (s : Kernel) (chan : Chan) : Keeps s (wakeup1 s chan) := by
  constructor
  · intro p
    simp only [wakeup1]
    split <;> rfl
  · intro p hp
    simp only [wakeup1] at hp
    split at hp
    · next hs => simp [hs.1]
    · exact hp

theorem wakeup1_running (chan : Chan) (h : (s.proc p).state = .RUNNING) :
    (wakeup1 s chan).proc p = s.proc p := by
  simp [wakeup1, h]

theorem reparent_keeps (s : Kernel) (p init : ProcId) : Keeps s (reparent s p init) := by
  unfold reparent
  generalize List.finRange NPROC = l
  induction l generalizing s with
  | nil => exact .refl
  | cons q l ih =>
      rw [List.foldl_cons]
      have hset : Keeps s (s.setProc q { s.proc q with parent := some init }) :=
        .setProc rfl id
      split
      · simp only
        split
        · exact (hset.trans (wakeup1_keeps _ _)).trans (ih _)
        · exact hset.trans (ih _)
      · exact ih _

theorem kill_keeps (s : Kernel) (pid : ℕ) : Keeps s (kill s pid) := by
  unfold kill
  split
  · exact .refl
  · refine .setProc rfl fun h => ?_
    split at h
    · next hs => simp [hs]
    · exact h

theorem dispatch_keeps (s : Kernel) (c : ℕ) : Keeps s (dispatch s c) := by
  obtain ⟨-, -, h3⟩ := scan_spec s.proc (scanOrder (s.cpu c).lastRR) s.queues
  unfold dispatch
  split
  · exact .of_proc rfl
  · next qs d hs =>
    rw [hs] at h3
    have hrun := (h3 d rfl).2.2
    have hset : Keeps s (s.setProc d.p
        { s.proc d.p with state := .RUNNING, lastTick := s.ticks, chan := none }) :=
      .setProc rfl fun _ => by simp [hrun]
    exact hset.trans (.of_proc rfl)

/-- What is left in the slot that `allocproc` takes, and in all others, is as it was. -/
theorem allocproc_slice {kstack : Bool} {r : Option ProcId} (h : allocproc s kstack = (t, r)) :
    (∀ q, (t.proc q).slice = (s.proc q).slice) ∧ (r = none → Keeps s t) ∧
      (∀ q, r = some q → findUnused s = some q ∧ kstack = true ∧
        ∀ q', q' ≠ q → t.proc q' = s.proc q') := by
  unfold allocproc at h
  cases hf : findUnused s with
  | none =>
      rw [hf] at h
      obtain ⟨rfl, rfl⟩ := Prod.mk.inj h
      exact ⟨fun _ => rfl, fun _ => .refl, fun q hq => (nomatch hq)⟩
  | some q =>
      rw [hf] at h
      cases kstack with
      | true =>
          obtain ⟨rfl, rfl⟩ := Prod.mk.inj h
          refine ⟨fun q' => ?_, fun h => (nomatch h), fun q' hq' => ?_⟩
          · show (Function.update s.proc q _ q').slice = _
            by_cases hq : q' = q
            · subst hq
              rw [Function.update_self]
              rfl
            · rw [Function.update_of_ne hq]
          · obtain rfl := Option.some.inj hq'
            exact ⟨rfl, rfl, fun _ hne => Function.update_of_ne hne _ _⟩
      | false =>
          obtain ⟨rfl, rfl⟩ := Prod.mk.inj h
          have hk : Keeps s (s.setProc q { s.proc q with pid := s.nextpid, state := .UNUSED }) :=
            .setProc rfl fun h => (h rfl).elim
          have he : (Kernel.setState { s.setProc q
              { s.proc q with state := .EMBRYO, pid := s.nextpid } with
                nextpid := s.nextpid + 1 } q .UNUSED).proc =
              (s.setProc q { s.proc q with pid := s.nextpid, state := .UNUSED }).proc := by
            simp [Kernel.setState, Kernel.setProc]
          exact ⟨(hk.trans (.of_proc he)).slice, fun _ => hk.trans (.of_proc he),
            fun q hq => (nomatch hq)⟩

/-- The code after `swtch` looks at the counters of the process that it has dispatched. -/
theorem afterSwtch_slice (s : Kernel) (c : ℕ) (d : Dispatch) :
    ((afterSwtch s c d).proc d.p).slice = (s.proc d.p).slice.quantum d.q.1 ∧
      ((afterSwtch s c d).proc d.p).state = (s.proc d.p).state ∧
      ∀ q, q ≠ d.p → (afterSwtch s c d).proc q = s.proc q := by
  unfold afterSwtch Slice.quantum
  by_cases ht : (s.proc d.p).ticks d.q.1 = allotment d.q.1
  · have ht' : (s.proc d.p).slice.ticks d.q.1 = allotment d.q.1 := ht
    by_cases hr : d.q.1 < 3
    · simp only [ht, ht', hr, if_true]
      exact ⟨by rw [setProc_self]; rfl, by rw [setProc_self], fun q hq => setProc_of_ne hq⟩
    · simp only [ht, ht', hr, if_true, if_false]
      exact ⟨by rw [setProc_self]; rfl, by rw [setProc_self], fun q hq => setProc_of_ne hq⟩
  · have ht' : ¬ (s.proc d.p).slice.ticks d.q.1 = allotment d.q.1 := ht
    simp only [ht, ht', if_false]
    exact ⟨trivial, trivial, fun _ _ => trivial⟩

/-! ## The starvation check -/

theorem boost_of_ne {now : ℕ} (h : p ≠ q) : (boost now s q).proc p = s.proc p := by
  unfold boost
  simp only
  split
  · split
    · exact setProc_of_ne h
    · rfl
  · rfl

theorem boost_self (now : ℕ) (s : Kernel) (p : ProcId) :
    ((boost now s p).proc p).slice = (s.proc p).slice ∧
        ((boost now s p).proc p).state = (s.proc p).state ∨
      0 < (s.proc p).priority ∧ (s.proc p).state = .RUNNABLE ∧
        ((boost now s p).proc p).slice = (s.proc p).slice.boost := by
  unfold boost
  simp only
  split
  · next hrun =>
    split
    · next hpos =>
      refine .inr ⟨hpos, hrun.1, ?_⟩
      show ((s.setProc p _).proc p).slice = _
      rw [setProc_self]
      rfl
    · exact .inl ⟨rfl, rfl⟩
  · exact .inl ⟨rfl, rfl⟩

theorem boost_all_of_notMem {now : ℕ} {l : List ProcId} (h : p ∉ l) :
    (l.foldl (boost now) s).proc p = s.proc p := by
  induction l generalizing s with
  | nil => rfl
  | cons q l ih =>
      obtain ⟨hne, hl⟩ := List.ne_and_not_mem_of_not_mem_cons h
      exact (ih hl).trans (boost_of_ne hne)

theorem boost_all_slice {now : ℕ} {l : List ProcId} (hl : l.Nodup) (s : Kernel) (p : ProcId) :
    ((l.foldl (boost now) s).proc p).slice = (s.proc p).slice ∧
        ((l.foldl (boost now) s).proc p).state = (s.proc p).state ∨
      0 < (s.proc p).priority ∧ (s.proc p).state = .RUNNABLE ∧
        ((l.foldl (boost now) s).proc p).slice = (s.proc p).slice.boost := by
  induction l generalizing s with
  | nil => exact .inl ⟨rfl, rfl⟩
  | cons q l ih =>
      obtain ⟨hq, hl⟩ := List.nodup_cons.mp hl
      rw [List.foldl_cons]
      by_cases hp : p = q
      · subst hp
        rw [boost_all_of_notMem hq]
        exact boost_self now s p
      · have := ih hl (boost now s q)
        rwa [boost_of_ne hp] at this

theorem starvationCheck_slice (s : Kernel) (p : ProcId) :
    ((starvationCheck s).proc p).slice = (s.proc p).slice ∧
        ((starvationCheck s).proc p).state = (s.proc p).state ∨
      0 < (s.proc p).priority ∧ (s.proc p).state = .RUNNABLE ∧
        ((starvationCheck s).proc p).slice = (s.proc p).slice.boost := by
  unfold starvationCheck
  split
  · exact boost_all_slice (List.nodup_finRange _) _ p
  · exact .inl ⟨rfl, rfl⟩

/-! ## One step -/

theorem fork_slice (s : Kernel) (c : ℕ) (q : ProcId) (kstack copied : Bool) (p : ProcId) :
    SliceStep s (.fork c kstack copied) p ((fork s q kstack copied).proc p) := by
  unfold fork
  cases ha : allocproc s kstack with
  | mk s' r =>
      obtain ⟨hslice, hnone, hsome⟩ := allocproc_slice ha
      cases r with
      | none => exact .idle (nofun) (hslice p) ((hnone rfl).used p)
      | some np =>
          obtain ⟨hf, rfl, hother⟩ := hsome np rfl
          cases copied with
          | true =>
              simp only [if_true]
              by_cases hp : p = np
              · subst hp
                refine .forked c rfl hf ?_
                show ((s'.setProc p _).proc p).slice = _
                rw [setProc_self, ← hslice p]
                rfl
              · refine .idle (nofun) ?_ ?_
                · show ((s'.setProc np _).proc p).slice = _
                  rw [setProc_of_ne hp, hslice p]
                · show ((s'.setProc np _).proc p).state ≠ _ → _
                  rw [setProc_of_ne hp, hother p hp]
                  exact id
          | false =>
              simp only [Bool.false_eq_true, if_false]
              have hkeep : Keeps s' (s'.setState np .UNUSED) := .setProc rfl fun h => (h rfl).elim
              refine .idle (nofun) ((hkeep.slice p).trans (hslice p)) ?_
              by_cases hp : p = np
              · subst hp
                rw [Kernel.setState, setProc_self]
                exact fun h => (h rfl).elim
              · rw [Kernel.setState, setProc_of_ne hp, hother p hp]
                exact id

/-- A process that gives its CPU up uncharged. -/
theorem gone_slice {a : Call} {c : ℕ} {d : Dispatch} (h : Keeps s t)
    (hd : (s.cpu c).current = some d) (hc : charged s a = none) (p : ProcId) :
    SliceStep s a p ((afterSwtch t c d).proc p) := by
  have hc' : charged s a ≠ some p := by simp [hc]
  obtain ⟨hself, -, hother⟩ := afterSwtch_slice t c d
  by_cases hp : p = d.p
  · subst hp
    exact .gone c d hc' hd rfl (by rw [hself, h.slice])
  · rw [hother p hp]
    exact .idle hc' (h.slice p) (h.used p)

theorem exit_slice {a : Call} {c : ℕ} {d : Dispatch} (h : Keeps s t)
    (hd : (s.cpu c).current = some d) (hrun : (t.proc d.p).state ≠ .UNUSED)
    (hc : charged s a = none) (he : exit t c d = some u) (p : ProcId) :
    SliceStep s a p (u.proc p) := by
  unfold exit at he
  cases hi : t.initproc with
  | none => simp [hi] at he
  | some init =>
      simp only [hi] at he
      split at he
      · cases he
      · obtain rfl := Option.some.inj he
        have hzombie : ∀ t', Keeps t t' →
            Keeps s ((reparent t' d.p init).setState d.p .ZOMBIE) := by
          intro t' ht'
          have hre := (h.trans ht').trans (reparent_keeps t' d.p init)
          exact hre.setState (h.used d.p hrun) .ZOMBIE
        split
        · exact gone_slice (hzombie _ (wakeup1_keeps t _)) hd hc p
        · exact gone_slice (hzombie _ .refl) hd hc p

theorem sleep_slice {a : Call} {c : ℕ} {d : Dispatch} {chan : Chan}
    (hd : (s.cpu c).current = some d) (hrun : (s.proc d.p).state ≠ .UNUSED)
    (hc : charged s a = none) (p : ProcId) : SliceStep s a p ((sleep s c d chan).proc p) := by
  refine gone_slice ?_ hd hc p
  have h₁ : Keeps s (s.setProc d.p { s.proc d.p with chan := some chan }) := .setProc rfl id
  exact h₁.trans (.setProc rfl fun _ => by rwa [setProc_self])

theorem wait_slice {c : ℕ} {d : Dispatch} (hd : (s.cpu c).current = some d)
    (hrun : (s.proc d.p).state ≠ .UNUSED) (p : ProcId) :
    SliceStep s (.wait c) p ((wait s c d).proc p) := by
  have hkeeps : ∀ t, Keeps s t → SliceStep s (.wait c) p (t.proc p) :=
    fun t h => .idle nofun (h.slice p) (h.used p)
  unfold wait
  split
  · exact hkeeps _ (.setProc rfl fun h => (h rfl).elim)
  · split
    · exact hkeeps _ .refl
    · exact sleep_slice hd hrun rfl p

/-- The tick of a process: it is charged, the starvation check passes it by, and it yields. -/
theorem tick_slice {c : ℕ} {user : Bool} {d : Dispatch} (h : Keeps s t)
    (hd : (s.cpu c).current = some d) (hc : charged s (.timer c user) = some d.p)
    (hrun : (t.proc d.p).state = .RUNNING) (p : ProcId) :
    SliceStep s (.timer c user) p ((yield (starvationCheck (account t d.p)) c d).proc p) := by
  have haccount : ((account t d.p).proc d.p).slice = (t.proc d.p).slice.spend ∧
      ((account t d.p).proc d.p).state = .RUNNING := by
    constructor
    · show ((t.setProc d.p _).proc d.p).slice = _
      rw [setProc_self]
      rfl
    · show ((t.setProc d.p _).proc d.p).state = _
      rw [setProc_self]
      exact hrun
  have hother : ∀ q, q ≠ d.p → (account t d.p).proc q = t.proc q := fun q hq => setProc_of_ne hq
  obtain ⟨hself, -, hrest⟩ :=
    afterSwtch_slice ((starvationCheck (account t d.p)).setState d.p .RUNNABLE) c d
  have hcheck := starvationCheck_slice (account t d.p) p
  unfold yield
  by_cases hp : p = d.p
  · subst hp
    rcases hcheck with ⟨hslice, -⟩ | ⟨-, hstate, -⟩
    · refine .spent c d hc hd rfl ?_
      rw [hself, Kernel.setState, setProc_self, ← h.slice, ← haccount.1, ← hslice]
      rfl
    · rw [haccount.2] at hstate
      cases hstate
  · have hc' : charged s (.timer c user) ≠ some p := by
      rw [hc]
      exact fun he => hp (Option.some.inj he).symm
    rw [hrest p hp, Kernel.setState, setProc_of_ne hp]
    rw [hother p hp] at hcheck
    rcases hcheck with ⟨hslice, hstate⟩ | ⟨hpos, hstate, hslice⟩
    · refine .idle hc' (hslice.trans (h.slice p)) fun hu => h.used p ?_
      rwa [hstate] at hu
    · have hprio : (t.proc p).priority = (s.proc p).priority := congrArg Slice.priority (h.slice p)
      exact .boosted c user rfl hc' (hprio ▸ hpos) (h.used p (by simp [hstate]))
        (by rw [hslice, h.slice])

theorem timer_slice {c : ℕ} {user : Bool} (hs : timer s c user = some u)
    (hrun : ∀ d, (s.cpu c).current = some d → (s.proc d.p).state = .RUNNING) (p : ProcId) :
    SliceStep s (.timer c user) p (u.proc p) := by
  unfold timer at hs
  simp only at hs
  have hkeeps : Keeps s (if c = 0 then wakeup1 { s with ticks := (s.ticks + 1) % 2 ^ 32 } .ticks
      else s) := by
    split
    · have htick : Keeps s { s with ticks := (s.ticks + 1) % 2 ^ 32 } := .of_proc rfl
      exact htick.trans (wakeup1_keeps _ _)
    · exact .refl
  have hcpu : (if c = 0 then wakeup1 { s with ticks := (s.ticks + 1) % 2 ^ 32 } .ticks else s).cpu =
      s.cpu := by split <;> rfl
  have hsame : ∀ q, (s.proc q).state = .RUNNING → (if c = 0 then
      wakeup1 { s with ticks := (s.ticks + 1) % 2 ^ 32 } .ticks else s).proc q = s.proc q := by
    intro q hq
    split
    · exact wakeup1_running (s := { s with ticks := (s.ticks + 1) % 2 ^ 32 }) _ hq
    · rfl
  generalize (if c = 0 then wakeup1 { s with ticks := (s.ticks + 1) % 2 ^ 32 } .ticks else s) = t
    at hs hkeeps hcpu hsame
  rw [hcpu] at hs
  cases hd : (s.cpu c).current with
  | none =>
      rw [hd] at hs
      obtain rfl := Option.some.inj hs
      exact .idle (by simp [charged, hd]) (hkeeps.slice p) (hkeeps.used p)
  | some d =>
      have hr := hrun d hd
      have ht := hsame d.p hr
      rw [hd] at hs
      simp only [ht, hr, if_true] at hs
      split at hs
      · next hk =>
        refine exit_slice hkeeps hd ?_ ?_ hs p
        · simp [ht, hr]
        · simp [charged, hd, hk]
      · next hk =>
        obtain rfl := Option.some.inj hs
        refine tick_slice hkeeps hd ?_ (by rw [ht, hr]) p
        simp [charged, hd, hk, hr]

end

/-- The processes that CPUs run are RUNNING. -/
def CurrentRunning (s : Kernel) : Prop :=
  ∀ c d, (s.cpu c).current = some d → (s.proc d.p).state = .RUNNING

theorem step_slice {s t : Kernel} {a : Call} (h : CurrentRunning s) (hs : step s a = some t)
    (p : ProcId) : SliceStep s a p (t.proc p) := by
  have hused : ∀ c d, (s.cpu c).current = some d → (s.proc d.p).state ≠ .UNUSED :=
    fun c d hd => by simp [h c d hd]
  cases a with
  | dispatch c =>
      simp only [step, Option.ite_none_right_eq_some, Option.some.injEq] at hs
      obtain ⟨-, rfl⟩ := hs
      exact .idle (by rintro ⟨⟩) ((dispatch_keeps s c).slice p) ((dispatch_keeps s c).used p)
  | fork c kstack copied =>
      obtain ⟨d, -, rfl⟩ := Option.map_eq_some_iff.mp hs
      exact fork_slice s c d.p kstack copied p
  | exit c =>
      obtain ⟨d, hd, he⟩ := Option.bind_eq_some_iff.mp hs
      exact exit_slice .refl hd (hused c d hd) rfl he p
  | wait c =>
      obtain ⟨d, hd, rfl⟩ := Option.map_eq_some_iff.mp hs
      exact wait_slice hd (hused c d hd) p
  | sleep c chan =>
      obtain ⟨d, hd, rfl⟩ := Option.map_eq_some_iff.mp hs
      exact sleep_slice hd (hused c d hd) rfl p
  | wakeup chan =>
      obtain rfl := Option.some.inj hs
      exact .idle (by rintro ⟨⟩) ((wakeup1_keeps s chan).slice p) ((wakeup1_keeps s chan).used p)
  | kill pid =>
      obtain rfl := Option.some.inj hs
      exact .idle (by rintro ⟨⟩) ((kill_keeps s pid).slice p) ((kill_keeps s pid).used p)
  | timer c user => exact timer_slice hs (h c) p

/-! ## Within the allotment -/

/-- Only the counter of its own level is running, and it has not come to the allotment. -/
structure Slice.Within (x : Slice) : Prop where
  other : ∀ j < 4, j ≠ x.priority → x.ticks j = 0
  own : x.ticks x.priority < allotment x.priority

namespace Slice.Within
variable {x : Slice}

theorem quantum (h : x.Within) : x.quantum x.priority = x := quantum_of_ne (Nat.ne_of_lt h.own)

theorem fresh (h : ∀ j < 4, x.ticks j = 0) : Within { x with priority := 0 } where
  other := fun j hj _ => h j hj
  own := by
    show x.ticks 0 < 5
    rw [h 0 (by omega)]
    omega

theorem allotment_pos (k : ℕ) : 0 < allotment k := by
  unfold allotment
  split <;> omega

theorem boost (h : x.Within) : x.boost.Within where
  other := by
    intro j hj hne
    simp only [Slice.boost] at hne ⊢
    split
    · rfl
    · exact h.other j hj (by omega)
  own := by
    simp only [Slice.boost]
    rw [if_pos ⟨Nat.le_refl _, Nat.sub_le ..⟩]
    exact allotment_pos _

theorem spend_ticks (x : Slice) : x.spend.ticks x.priority = x.ticks x.priority + 1 :=
  Function.update_self ..

/-- The last tick of an allotment. -/
theorem quantum_last (hlast : x.ticks x.priority + 1 = allotment x.priority) :
    x.spend.quantum x.priority = { x.spend with
      ticks := Function.update x.ticks x.priority 0
      priority := if x.priority < 3 then x.priority + 1 else x.priority } := by
  unfold Slice.quantum
  rw [if_pos ((spend_ticks x).trans hlast)]
  simp [spend]

theorem quantum_before (hlast : x.ticks x.priority + 1 ≠ allotment x.priority) :
    x.spend.quantum x.priority = x.spend :=
  quantum_of_ne fun h => hlast ((spend_ticks x).symm.trans h)

theorem spent (h : x.Within) : (x.spend.quantum x.priority).Within := by
  have hzero : ∀ (n j : ℕ), j < 4 → j ≠ x.priority → Function.update x.ticks x.priority n j = 0 := by
    intro n j hj hne
    rw [Function.update_of_ne hne]
    exact h.other j hj hne
  by_cases hlast : x.ticks x.priority + 1 = allotment x.priority
  · rw [quantum_last hlast]
    have hall : ∀ j < 4, Function.update x.ticks x.priority 0 j = 0 := by
      intro j hj
      by_cases hne : j = x.priority
      · rw [hne, Function.update_self]
      · exact hzero 0 j hj hne
    refine ⟨fun j hj _ => hall j hj, ?_⟩
    simp only
    split
    · rw [hall _ (by omega)]
      exact allotment_pos _
    · rw [Function.update_self]
      exact allotment_pos _
  · rw [quantum_before hlast]
    refine ⟨fun j hj hne => hzero _ j hj hne, ?_⟩
    have hown := h.own
    show x.spend.ticks x.priority < allotment x.priority
    rw [spend_ticks]
    omega

end Slice.Within

/-- In a state in which no tick is being handled. -/
def Accounted (s : Kernel) : Prop :=
  ∀ p, (s.proc p).state ≠ .UNUSED →
    (∀ j < 4, j ≠ (s.proc p).priority → (s.proc p).ticks j = 0) ∧
      (s.proc p).ticks (s.proc p).priority < allotment (s.proc p).priority

/-- A step demotes a process exactly when it charges it the last tick of its allotment, and the
counter of the level is the number of ticks that the process has been charged there. -/
structure StepAccounted (s : Kernel) (a : Call) (t : Kernel) : Prop where
  demoted : ∀ p k, (s.proc p).state ≠ .UNUSED → k < 3 → (s.proc p).priority = k →
    ((t.proc p).priority = k + 1 ↔ charged s a = some p ∧ (s.proc p).ticks k + 1 = allotment k)
  counted : ∀ p k, (s.proc p).state ≠ .UNUSED → (s.proc p).priority = k →
    (t.proc p).ticks (t.proc p).priority =
      if (t.proc p).priority ≠ k then 0
      else if charged s a = some p then ((s.proc p).ticks k + 1) % allotment k
      else (s.proc p).ticks k

/-- The condition on a step: a `fork` that succeeds is given a process that no slot of the queues
points to and whose counters are zero. -/
def ForksFresh (s : Kernel) : Call → Prop
  | .fork _ true true => ∀ p, findUnused s = some p →
      Unqueued s p ∧ ∀ j < 4, (s.proc p).ticks j = 0
  | _ => True

section
variable {s t : Kernel} {a : Call} {p : ProcId}

theorem ForksFresh.unqueued (h : ForksFresh s a) : ForksUnqueued s a := by
  unfold ForksFresh at h
  split at h
  · exact fun p hp => (h p hp).1
  · next hne =>
    unfold ForksUnqueued
    split
    · next c => exact absurd rfl (hne c)
    · trivial

theorem Accounted.within (h : Accounted s) (hp : (s.proc p).state ≠ .UNUSED) :
    (s.proc p).slice.Within := ⟨(h p hp).1, (h p hp).2⟩

/-- The dispatched process is at the level of its row. -/
theorem Inv.dispatched_row (h : Inv s) {c : ℕ} {d : Dispatch} (hd : (s.cpu c).current = some d) :
    d.q.1 = (s.proc d.p).priority ∧ (s.proc d.p).priority < 4 := by
  obtain ⟨hslot, hq, -⟩ := h.current c d hd
  have hrow := h.row d.q d.p hslot hq
  exact ⟨hrow.symm, hrow ▸ hslot.1⟩

theorem step_accounted (hi : Inv s) (h : Accounted s) (hok : ForksFresh s a)
    (hs : step s a = some t) : Accounted t := by
  intro p hused
  have hcur : CurrentRunning s := fun c d hd => (hi.current c d hd).2.2
  have hw : (t.proc p).slice.Within := by
    cases step_slice hcur hs p with
    | idle hc hy hold =>
        rw [hy]
        exact h.within (hold hused)
    | forked c ha hp hy =>
        subst ha
        rw [hy]
        exact .fresh (hok p hp).2
    | gone c d hc hd hp hy =>
        subst hp
        have hx := h.within (p := d.p) (by simp [hcur c d hd])
        rw [hy, (hi.dispatched_row hd).1]
        exact hx.quantum.symm ▸ hx
    | boosted c user ha hc hpos hstate hy =>
        rw [hy]
        exact (h.within hstate).boost
    | spent c d hc hd hp hy =>
        subst hp
        have hx := h.within (p := d.p) (by simp [hcur c d hd])
        rw [hy, (hi.dispatched_row hd).1]
        exact hx.spent
  exact ⟨hw.other, hw.own⟩

theorem step_stepAccounted (hi : Inv s) (h : Accounted s) (hs : step s a = some t) :
    StepAccounted s a t := by
  have hcur : CurrentRunning s := fun c d hd => (hi.current c d hd).2.2
  have huncharged : ∀ q k, charged s a ≠ some q → (s.proc q).slice.priority = k →
      (t.proc q).slice = (s.proc q).slice →
      ((t.proc q).slice.priority = k + 1 ↔
          charged s a = some q ∧ (s.proc q).ticks k + 1 = allotment k) ∧
        (t.proc q).slice.ticks (t.proc q).slice.priority =
          if (t.proc q).slice.priority ≠ k then 0
          else if charged s a = some q then ((s.proc q).ticks k + 1) % allotment k
          else (s.proc q).ticks k := by
    intro q k hc hk hy
    rw [hy, hk, if_neg (not_not.mpr rfl), if_neg hc]
    exact ⟨iff_of_false (by omega) fun hcharged => hc hcharged.1, rfl⟩
  have hall : ∀ q k, (s.proc q).state ≠ .UNUSED → (s.proc q).slice.priority = k →
      (k < 3 → ((t.proc q).slice.priority = k + 1 ↔
          charged s a = some q ∧ (s.proc q).ticks k + 1 = allotment k)) ∧
        (t.proc q).slice.ticks (t.proc q).slice.priority =
          if (t.proc q).slice.priority ≠ k then 0
          else if charged s a = some q then ((s.proc q).ticks k + 1) % allotment k
          else (s.proc q).ticks k := by
    intro q k hused hk
    cases step_slice hcur hs q with
    | idle hc hy hold =>
        obtain ⟨h1, h2⟩ := huncharged q k hc hk hy
        exact ⟨fun _ => h1, h2⟩
    | forked c ha hp hy => exact absurd (findUnused_state hp) hused
    | gone c d hc hd hp hy =>
        subst hp
        rw [(hi.dispatched_row hd).1] at hy
        obtain ⟨h1, h2⟩ := huncharged d.p k hc hk (hy.trans (h.within hused).quantum)
        exact ⟨fun _ => h1, h2⟩
    | boosted c user ha hc hpos hstate hy =>
        have hpos' : 0 < k := hk ▸ hpos
        rw [hy]
        simp only [Slice.boost, hk]
        refine ⟨fun _ => iff_of_false (by omega) fun hcharged => hc hcharged.1, ?_⟩
        rw [if_pos ⟨Nat.le_refl _, Nat.sub_le ..⟩, if_pos (by omega)]
    | spent c d hc hd hp hy =>
        subst hp
        have hx := h.within hused
        rw [(hi.dispatched_row hd).1] at hy
        have hy' : (t.proc d.p).slice =
            (s.proc d.p).slice.spend.quantum (s.proc d.p).slice.priority := hy
        have hticks : (s.proc d.p).slice.ticks = (s.proc d.p).ticks := rfl
        by_cases hlast : (s.proc d.p).slice.ticks (s.proc d.p).slice.priority + 1 =
            allotment (s.proc d.p).slice.priority
        · rw [hy', Slice.Within.quantum_last hlast]
          rw [hk, hticks] at hlast
          simp only [hk, hticks]
          refine ⟨fun hlt => ?_, ?_⟩
          · rw [if_pos hlt]
            exact iff_of_true rfl ⟨hc, hlast⟩
          · by_cases hlt : k < 3
            · rw [if_pos hlt, Function.update_of_ne (by omega), if_pos (by omega)]
              exact hx.other _ (by omega) (by omega)
            · rw [if_neg hlt, Function.update_self, if_neg (not_not.mpr rfl), if_pos hc, hlast,
                Nat.mod_self]
        · have hown := hx.own
          rw [hy', Slice.Within.quantum_before hlast]
          rw [hk, hticks] at hlast hown
          simp only [Slice.spend, hk, hticks]
          refine ⟨fun _ => iff_of_false (by omega) fun hcharged => hlast hcharged.2, ?_⟩
          rw [Function.update_self, if_neg (not_not.mpr rfl), if_pos hc,
            Nat.mod_eq_of_lt (by omega)]
  exact ⟨fun q k hused hk hprio => (hall q k hused hprio).1 hk,
    fun q k hused hprio => (hall q k hused hprio).2⟩

theorem userinit_accounted : Accounted userinit := by
  intro p _
  have hboot : ∀ q, (userinit.proc q).priority = 0 ∧ (userinit.proc q).ticks 0 = 0 ∧
      (userinit.proc q).ticks 1 = 0 ∧ (userinit.proc q).ticks 2 = 0 ∧
        (userinit.proc q).ticks 3 = 0 := by decide +kernel
  obtain ⟨hprio, h0, h1, h2, h3⟩ := hboot p
  rw [hprio]
  refine ⟨fun j hj hne => ?_, by rw [h0]; exact Slice.Within.allotment_pos 0⟩
  match j, hne with
  | 1, _ => exact h1
  | 2, _ => exact h2
  | 3, _ => exact h3
  | n + 4, _ => omega

/-- In every run from `userinit` in which every `fork` that succeeds is given a fresh process. -/
theorem accounted_of_run (h : Run step ForksFresh userinit s) :
    Accounted s ∧ ∀ a t, step s a = some t → StepAccounted s a t := by
  obtain ⟨hi, hacc⟩ := h.invariant (P := fun s => Inv s ∧ Accounted s)
    ⟨userinit_inv, userinit_accounted⟩ fun _ _ _ hP hok hs =>
      ⟨step_inv hP.1 hok.unqueued hs, step_accounted hP.1 hP.2 hok hs⟩
  exact ⟨hacc, fun _ _ hs => step_stepAccounted hi hacc hs⟩

instance (s : Kernel) (a : Call) : Decidable (ForksFresh s a) :=
  match a with
  | .fork _ true true =>
    inferInstanceAs (Decidable (∀ p, findUnused s = some p →
      Unqueued s p ∧ ∀ j < 4, (s.proc p).ticks j = 0))
  | .fork _ true false | .fork _ false _ | .dispatch _ | .exit _ | .wait _ | .sleep _ _
  | .wakeup _ | .kill _ | .timer _ _ => isTrue trivial

/-- `init` forks a child and is charged four ticks. -/
def fourTicks : List Call :=
  .dispatch 0 :: .fork 0 true true :: (List.replicate 4 [.timer 0 true, .dispatch 0]).flatten

/-- The fifth tick is the one that demotes it. -/
theorem accounted_demotion : ∃ s t, Run step ForksFresh userinit s ∧ Accounted s ∧
    step s (.timer 0 true) = some t ∧ (s.proc 0).ticks 0 = 4 ∧ (t.proc 0).priority = 1 := by
  have hend : ((play step fourTicks userinit).map fun s => ((s.proc 0).ticks 0,
      (step s (.timer 0 true)).isSome, (s.proc 0).state, (s.proc 0).priority,
      charged s (.timer 0 true))) = some (4, true, .RUNNING, 0, some 0) := by decide +kernel
  obtain ⟨s, hs, he⟩ := Option.map_eq_some_iff.mp hend
  obtain ⟨h4, hsome, hrun, hprio, hc⟩ : _ ∧ _ ∧ _ ∧ _ ∧ _ := by simpa only [Prod.mk.injEq] using he
  obtain ⟨t, ht⟩ := Option.isSome_iff_exists.mp hsome
  have hok : PlayOk step ForksFresh fourTicks userinit := by decide +kernel
  have hr : Run step ForksFresh userinit s := .of_playOk hok hs
  obtain ⟨hacc, hstep⟩ := accounted_of_run hr
  refine ⟨s, t, hr, hacc, ht, h4, ?_⟩
  exact ((hstep _ t ht).demoted 0 0 (by simp [hrun]) (by omega) hprio).mpr ⟨hc, by rw [h4]; rfl⟩

/-- A child is charged one tick at level 1, exits and is reaped; the next child gets its counters. -/
theorem stale_ticks : ∃ s, Run step (fun _ _ => True) userinit s ∧ ¬ Accounted s := by
  have hend : ((play step ([.dispatch 0, .fork 0 true true, .wait 0] ++
      (List.replicate 6 [.dispatch 0, .timer 0 true]).flatten ++
      [.dispatch 0, .exit 0, .dispatch 0, .wait 0, .fork 0 true true]) userinit).map fun s =>
        ((s.proc 1).state, (s.proc 1).priority, (s.proc 1).ticks 1)) = some (.RUNNABLE, 0, 1) := by
    decide +kernel
  obtain ⟨s, hs, he⟩ := Option.map_eq_some_iff.mp hend
  obtain ⟨hrun, hprio, htick⟩ : _ ∧ _ ∧ _ := by simpa only [Prod.mk.injEq] using he
  refine ⟨s, .of_play hs, fun h => ?_⟩
  have := (h 1 (by simp [hrun])).1 1 (by omega) (by simp [hprio])
  omega

end

end IntroToOS.Mlfq

import IntroToOS.Mlfq.Slices

/-! # Process slots that are used again

`fork` sets the priority of a new process and nothing else of the accounting, so a process starts
with the counters that the slot was left with. They are zero exactly when no tick has been charged
to the slot since boot (`startsFresh_iff`); a stale `lastTick` does no harm then, because the
starvation check passes over level 0 and the scheduler sets it before the process can leave that
level.
-/

namespace IntroToOS.Mlfq
open Lib
set_option autoImplicit false

/-- What `getpinfo` reports for a slot in use. -/
structure PInfo where
  pid : ℕ
  state : ProcState
  priority : ℕ
  ticks : List ℕ
  deriving DecidableEq

def getpinfo (s : Kernel) (p : ProcId) : Option PInfo :=
  let x := s.proc p
  if x.state = .UNUSED then none
  else some ⟨x.pid, x.state, x.priority, (List.range 4).map x.accumulatedTicks⟩

/-- The new process has the counters of a process that has not run. -/
structure StartsFresh (s : Kernel) (p : ProcId) : Prop where
  priority : (s.proc p).priority = 0
  ticks : ∀ j < 4, (s.proc p).ticks j = 0
  accumulatedTicks : ∀ j < 4, (s.proc p).accumulatedTicks j = 0

/-- The slots charged by a list of calls, a tick each. -/
def charges : List Call → Kernel → List ProcId
  | [], _ => []
  | a :: as, s =>
    (charged s a).toList ++
      match step s a with
      | none => []
      | some t => charges as t

/-- The kernel as it would be if no process had run in slot `p`. -/
def Kernel.forget (s : Kernel) (p : ProcId) : Kernel :=
  s.setProc p { s.proc p with
    priority := 0
    ticks := fun _ => 0
    accumulatedTicks := fun _ => 0
    lastTick := 0 }

/-! ## The processes that CPUs run -/

/-- The processes that CPUs run are RUNNING, each on one CPU. -/
structure Running (s : Kernel) : Prop where
  current : CurrentRunning s
  apart : ∀ c c' d d', (s.cpu c).current = some d → (s.cpu c').current = some d' →
    d.p = d'.p → c = c'

/-- `t` comes from `s` by processes giving up their CPUs. -/
structure Leaves (s t : Kernel) : Prop where
  running : Running t
  current : ∀ c d, (t.cpu c).current = some d → (s.cpu c).current = some d

/-- A change that leaves the CPUs alone and takes no process off one. -/
structure Calm (s t : Kernel) : Prop where
  cpu : t.cpu = s.cpu
  running : ∀ p, (s.proc p).state = .RUNNING → (t.proc p).state = .RUNNING

section
variable {s t u : Kernel} {c : ℕ} {d : Dispatch} {p : ProcId} {x : Proc}

theorem Calm.refl : Calm s s := ⟨rfl, fun _ h => h⟩

theorem Calm.trans (h : Calm s t) (h' : Calm t u) : Calm s u :=
  ⟨h'.cpu.trans h.cpu, fun p hp => h'.running p (h.running p hp)⟩

theorem Calm.setProc (hx : (s.proc p).state = .RUNNING → x.state = .RUNNING) :
    Calm s (s.setProc p x) := by
  refine ⟨rfl, fun q hq => ?_⟩
  by_cases hqp : q = p
  · subst hqp
    rw [setProc_self]
    exact hx hq
  · rw [setProc_of_ne hqp]
    exact hq

theorem wakeup1_calm (s : Kernel) (chan : Chan) : Calm s (wakeup1 s chan) := by
  refine ⟨rfl, fun p hp => ?_⟩
  rw [wakeup1_running chan hp]
  exact hp

theorem reparent_calm (s : Kernel) (p init : ProcId) : Calm s (reparent s p init) := by
  unfold reparent
  generalize List.finRange NPROC = l
  induction l generalizing s with
  | nil => exact .refl
  | cons q l ih =>
      rw [List.foldl_cons]
      have hset : Calm s (s.setProc q { s.proc q with parent := some init }) := .setProc id
      split
      · simp only
        split
        · exact (hset.trans (wakeup1_calm _ _)).trans (ih _)
        · exact hset.trans (ih _)
      · exact ih _

theorem kill_calm (s : Kernel) (pid : ℕ) : Calm s (kill s pid) := by
  unfold kill
  split
  · exact .refl
  · refine .setProc fun h => ?_
    simp [h]

theorem fork_calm (s : Kernel) (q : ProcId) (kstack copied : Bool) :
    Calm s (fork s q kstack copied) := by
  unfold fork allocproc
  cases hf : findUnused s with
  | none => exact .refl
  | some np =>
      have hnot : ∀ {P : Prop}, (s.proc np).state = .RUNNING → P := by
        intro P h
        rw [findUnused_state hf] at h
        cases h
      have hcalm : ∀ v : Kernel, v.cpu = s.cpu → (∀ p, p ≠ np → v.proc p = s.proc p) → Calm s v := by
        intro v hcpu hother
        refine ⟨hcpu, fun p hp => ?_⟩
        by_cases hpn : p = np
        · exact hnot (hpn ▸ hp)
        · rw [hother p hpn]
          exact hp
      cases kstack with
      | true =>
          cases copied with
          | true => exact hcalm _ rfl fun p hp => (setProc_of_ne hp).trans (setProc_of_ne hp)
          | false => exact hcalm _ rfl fun p hp => (setProc_of_ne hp).trans (setProc_of_ne hp)
      | false => exact hcalm _ rfl fun p hp => (setProc_of_ne hp).trans (setProc_of_ne hp)

theorem starvationCheck_calm (s : Kernel) : Calm s (starvationCheck s) := by
  have hboost : ∀ (now : ℕ) (l : List ProcId) (v : Kernel), (l.foldl (boost now) v).cpu = v.cpu := by
    intro now l
    induction l with
    | nil => exact fun _ => rfl
    | cons q l ih =>
        intro v
        refine (ih _).trans ?_
        unfold boost
        simp only
        split
        · split <;> rfl
        · rfl
  refine ⟨?_, fun p hp => ?_⟩
  · unfold starvationCheck
    split
    · exact hboost _ _ _
    · rfl
  · rcases starvationCheck_slice s p with ⟨-, hstate⟩ | ⟨-, hrunnable, -⟩
    · rw [hstate, hp]
    · rw [hp] at hrunnable
      cases hrunnable

theorem account_calm (s : Kernel) (p : ProcId) : Calm s (account s p) := by
  have hset := Calm.setProc (s := s) (p := p) (x := { s.proc p with
    ticks := Function.update (s.proc p).ticks (s.proc p).priority
      ((s.proc p).ticks (s.proc p).priority + 1)
    accumulatedTicks := Function.update (s.proc p).accumulatedTicks (s.proc p).priority
      ((s.proc p).accumulatedTicks (s.proc p).priority + 1) }) id
  exact ⟨hset.cpu, hset.running⟩

theorem Running.calm (h : Running s) (hc : Calm s t) : Leaves s t := by
  refine ⟨⟨?_, ?_⟩, ?_⟩
  · intro c d hd
    rw [hc.cpu] at hd
    exact hc.running d.p (h.current c d hd)
  · rw [hc.cpu]
    exact h.apart
  · rw [hc.cpu]
    exact fun _ _ hd => hd

theorem afterSwtch_cpu (s : Kernel) (c : ℕ) (d : Dispatch) :
    ((afterSwtch s c d).cpu c).current = none ∧
      ∀ c', c' ≠ c → (afterSwtch s c d).cpu c' = s.cpu c' := by
  unfold afterSwtch
  simp only
  split
  · split
    · exact ⟨by simp, fun c' hc => Function.update_of_ne hc _ _⟩
    · exact ⟨by simp, fun c' hc => Function.update_of_ne hc _ _⟩
  · exact ⟨by simp, fun c' hc => Function.update_of_ne hc _ _⟩

/-- The dispatched process gives its CPU up, whatever its state becomes. -/
theorem Running.gone (h : Running s) (hd : (s.cpu c).current = some d) (ht : t.cpu = s.cpu)
    (hother : ∀ p, p ≠ d.p → (s.proc p).state = .RUNNING → (t.proc p).state = .RUNNING) :
    Leaves s (afterSwtch t c d) := by
  obtain ⟨hnone, hcpu⟩ := afterSwtch_cpu t c d
  obtain ⟨-, -, hrest⟩ := afterSwtch_slice t c d
  have hold : ∀ c' d', ((afterSwtch t c d).cpu c').current = some d' →
      c' ≠ c ∧ (s.cpu c').current = some d' := by
    intro c' d' hd'
    by_cases hcc : c' = c
    · subst hcc
      rw [hnone] at hd'
      cases hd'
    · rw [hcpu c' hcc, ht] at hd'
      exact ⟨hcc, hd'⟩
  refine ⟨⟨?_, ?_⟩, fun c' d' hd' => (hold c' d' hd').2⟩
  · intro c' d' hd'
    obtain ⟨hcc, hd''⟩ := hold c' d' hd'
    have hne : d'.p ≠ d.p := fun he => hcc (h.apart c' c d' d hd'' hd he)
    rw [hrest d'.p hne]
    exact hother d'.p hne (h.current c' d' hd'')
  · intro c₁ c₂ d₁ d₂ h₁ h₂
    exact h.apart c₁ c₂ d₁ d₂ (hold c₁ d₁ h₁).2 (hold c₂ d₂ h₂).2

theorem Running.leave (h : Running s) (hd : (s.cpu c).current = some d) (hc : Calm s t)
    (st : ProcState) : Leaves s (afterSwtch (t.setState d.p st) c d) := by
  refine h.gone hd hc.cpu fun p hp hr => ?_
  rw [Kernel.setState, setProc_of_ne hp]
  exact hc.running p hr

theorem exit_running (h : Running s) (hd : (s.cpu c).current = some d)
    (he : exit s c d = some t) : Leaves s t := by
  unfold exit at he
  cases hi : s.initproc with
  | none => simp [hi] at he
  | some init =>
      simp only [hi] at he
      split at he
      · cases he
      · obtain rfl := Option.some.inj he
        split
        · exact h.leave hd ((wakeup1_calm s _).trans (reparent_calm _ d.p init)) .ZOMBIE
        · exact h.leave hd (reparent_calm s d.p init) .ZOMBIE

theorem sleep_running (h : Running s) (hd : (s.cpu c).current = some d) (chan : Chan) :
    Leaves s (sleep s c d chan) := by
  have hchan : Calm s (s.setProc d.p { s.proc d.p with chan := some chan }) := .setProc id
  exact h.leave hd hchan .SLEEPING

theorem wait_running (h : Running s) (hd : (s.cpu c).current = some d) :
    Leaves s (wait s c d) := by
  unfold wait
  split
  · next q hf =>
    have hz : (s.proc q).parent = some d.p ∧ (s.proc q).state = .ZOMBIE := by
      simpa using List.find?_some hf
    exact h.calm (.setProc fun hr => by simp [hz.2] at hr)
  · split
    · exact h.calm .refl
    · exact sleep_running h hd _

theorem Leaves.trans (h : Leaves s t) (h' : Leaves t u) : Leaves s u :=
  ⟨h'.running, fun c d hd => h.current c d (h'.current c d hd)⟩

theorem timer_running {user : Bool} (h : Running s) (hs : timer s c user = some t) :
    Leaves s t := by
  unfold timer at hs
  simp only at hs
  have hcalm : Calm s (if c = 0 then wakeup1 { s with ticks := (s.ticks + 1) % 2 ^ 32 } .ticks
      else s) := by
    split
    · have htick : Calm s { s with ticks := (s.ticks + 1) % 2 ^ 32 } := ⟨rfl, fun _ h => h⟩
      exact htick.trans (wakeup1_calm _ _)
    · exact .refl
  generalize (if c = 0 then wakeup1 { s with ticks := (s.ticks + 1) % 2 ^ 32 } .ticks else s) = v
    at hs hcalm
  have hv := h.calm hcalm
  cases hd : (v.cpu c).current with
  | none =>
      simp only [hd, Option.some.injEq] at hs
      exact hs ▸ hv
  | some d =>
      simp only [hd] at hs
      split at hs
      · exact hv.trans (exit_running hv.running hd hs)
      · split at hs
        · obtain rfl := Option.some.inj hs
          exact hv.trans (hv.running.leave hd
            ((account_calm v d.p).trans (starvationCheck_calm _)) .RUNNABLE)
        · obtain rfl := Option.some.inj hs
          exact hv

theorem dispatch_cpu {c' : ℕ} (h : c' ≠ c) : (dispatch s c).cpu c' = s.cpu c' := by
  unfold dispatch
  split
  · rfl
  · exact Function.update_of_ne h _ _

theorem dispatch_running (h : Running s) (c : ℕ) : Running (dispatch s c) := by
  obtain ⟨-, -, h3⟩ := scan_spec s.proc (scanOrder (s.cpu c).lastRR) s.queues
  unfold dispatch
  split
  · exact ⟨h.current, h.apart⟩
  · next qs d hs =>
    rw [hs] at h3
    have hrun := (h3 d rfl).2.2
    have hne : ∀ c' d', (s.cpu c').current = some d' → d'.p ≠ d.p := by
      intro c' d' hd' he
      have := h.current c' d' hd'
      rw [he, hrun] at this
      cases this
    have hold : ∀ c' d', ((Function.update s.cpu c { s.cpu c with current := some d }) c').current =
        some d' → c' = c ∧ d' = d ∨ c' ≠ c ∧ (s.cpu c').current = some d' := by
      intro c' d' hd'
      by_cases hcc : c' = c
      · subst hcc
        rw [Function.update_self] at hd'
        exact .inl ⟨rfl, (Option.some.inj hd').symm⟩
      · rw [Function.update_of_ne hcc] at hd'
        exact .inr ⟨hcc, hd'⟩
    constructor
    · intro c' d' hd'
      rcases hold c' d' hd' with ⟨-, rfl⟩ | ⟨-, hd''⟩
      · show ((s.setProc d'.p _).proc d'.p).state = _
        rw [setProc_self]
      · show ((s.setProc d.p _).proc d'.p).state = _
        rw [setProc_of_ne (hne c' d' hd'')]
        exact h.current c' d' hd''
    · intro c₁ c₂ d₁ d₂ h₁ h₂ he
      rcases hold c₁ d₁ h₁ with ⟨rfl, rfl⟩ | ⟨-, h₁'⟩ <;>
        rcases hold c₂ d₂ h₂ with ⟨rfl, rfl⟩ | ⟨-, h₂'⟩
      · rfl
      · exact absurd he.symm (hne c₂ d₂ h₂')
      · exact absurd he (hne c₁ d₁ h₁')
      · exact h.apart c₁ c₂ d₁ d₂ h₁' h₂' he

/-- Only `dispatch` puts a process on a CPU. -/
theorem step_leaves {a : Call} (h : Running s) (ha : ∀ c, a ≠ .dispatch c)
    (hs : step s a = some t) : Leaves s t := by
  cases a with
  | dispatch c => exact absurd rfl (ha c)
  | fork c kstack copied =>
      obtain ⟨d, -, rfl⟩ := Option.map_eq_some_iff.mp hs
      exact h.calm (fork_calm s d.p kstack copied)
  | exit c =>
      obtain ⟨d, hd, he⟩ := Option.bind_eq_some_iff.mp hs
      exact exit_running h hd he
  | wait c =>
      obtain ⟨d, hd, rfl⟩ := Option.map_eq_some_iff.mp hs
      exact wait_running h hd
  | sleep c chan =>
      obtain ⟨d, hd, rfl⟩ := Option.map_eq_some_iff.mp hs
      exact sleep_running h hd chan
  | wakeup chan => exact Option.some.inj hs ▸ h.calm (wakeup1_calm s chan)
  | kill pid => exact Option.some.inj hs ▸ h.calm (kill_calm s pid)
  | timer c user => exact timer_running h hs

theorem step_running {a : Call} (h : Running s) (hs : step s a = some t) : Running t := by
  by_cases ha : ∃ c, a = .dispatch c
  · obtain ⟨c, rfl⟩ := ha
    simp only [step, Option.ite_none_right_eq_some, Option.some.injEq] at hs
    exact hs.2 ▸ dispatch_running h c
  · exact (step_leaves h (not_exists.mp ha) hs).running

end

/-! ## The last tick -/

/-- The kernel with other values of `lastTick`. -/
def Kernel.late (s : Kernel) (l : ProcId → ℕ) : Kernel :=
  { s with proc := fun p => { s.proc p with lastTick := l p } }

section
variable {s t : Kernel} {c : ℕ} {d : Dispatch} {p : ProcId} {x : Proc} {l : ProcId → ℕ}

theorem late_self (s : Kernel) : (s.late fun p => (s.proc p).lastTick) = s := rfl

theorem late_setProc {y : Proc} (h : y = { x with lastTick := l p }) :
    (s.late l).setProc p y = (s.setProc p x).late l := by
  subst h
  simp only [Kernel.late, Kernel.setProc, Kernel.mk.injEq, and_true]
  funext q
  by_cases hq : q = p
  · subst hq
    rw [Function.update_self, Function.update_self]
  · rw [Function.update_of_ne hq, Function.update_of_ne hq]

theorem late_setState (st : ProcState) : (s.late l).setState p st = (s.setState p st).late l := by
  unfold Kernel.setState
  exact late_setProc rfl

theorem wakeup1_late (chan : Chan) : wakeup1 (s.late l) chan = (wakeup1 s chan).late l := by
  have hproc : ∀ (x : Proc) (n : ℕ),
      (if x.state = .SLEEPING ∧ x.chan = some chan then
        { x with lastTick := n, state := .RUNNABLE } else { x with lastTick := n }) =
      { (if x.state = .SLEEPING ∧ x.chan = some chan then { x with state := .RUNNABLE } else x) with
        lastTick := n } := by
    intro x n
    by_cases h : x.state = .SLEEPING ∧ x.chan = some chan
    · rw [if_pos h, if_pos h]
    · rw [if_neg h, if_neg h]
  unfold wakeup1 Kernel.late
  simp only [Kernel.mk.injEq, and_true]
  exact funext fun p => hproc (s.proc p) (l p)

theorem reparent_late (p init : ProcId) : reparent (s.late l) p init = (reparent s p init).late l := by
  unfold reparent
  generalize List.finRange NPROC = ps
  induction ps generalizing s with
  | nil => rfl
  | cons q ps ih =>
      simp only [List.foldl_cons]
      by_cases hq : (s.proc q).parent = some p
      · have hq' : ((s.late l).proc q).parent = some p := hq
        have hset : (s.late l).setProc q { (s.late l).proc q with parent := some init } =
            (s.setProc q { s.proc q with parent := some init }).late l := late_setProc rfl
        rw [if_pos hq, if_pos hq', hset]
        by_cases hz : ((s.setProc q { s.proc q with parent := some init }).proc q).state = .ZOMBIE
        · have hz' : (((s.setProc q { s.proc q with parent := some init }).late l).proc q).state =
              .ZOMBIE := hz
          rw [if_pos hz, if_pos hz', wakeup1_late]
          exact ih
        · have hz' : ¬ (((s.setProc q { s.proc q with parent := some init }).late l).proc q).state =
              .ZOMBIE := hz
          rw [if_neg hz, if_neg hz']
          exact ih
      · have hq' : ¬ ((s.late l).proc q).parent = some p := hq
        rw [if_neg hq, if_neg hq']
        exact ih

theorem findUnused_late : findUnused (s.late l) = findUnused s := rfl

theorem allocproc_late (kstack : Bool) : allocproc (s.late l) kstack =
    ((allocproc s kstack).1.late l, (allocproc s kstack).2) := by
  unfold allocproc
  rw [findUnused_late]
  cases findUnused s with
  | none => rfl
  | some p =>
      have hset : (s.late l).setProc p
          { (s.late l).proc p with state := .EMBRYO, pid := (s.late l).nextpid } =
            (s.setProc p { s.proc p with state := .EMBRYO, pid := s.nextpid }).late l := late_setProc rfl
      cases kstack with
      | true =>
          simp only [hset, if_true]
          rfl
      | false =>
          simp only [hset, Bool.false_eq_true, if_false]
          refine Prod.ext ?_ rfl
          exact late_setState (s := { s.setProc p
            { s.proc p with state := .EMBRYO, pid := s.nextpid } with nextpid := s.nextpid + 1 }) _

theorem fork_late (q : ProcId) (kstack copied : Bool) :
    fork (s.late l) q kstack copied = (fork s q kstack copied).late l := by
  unfold fork
  rw [allocproc_late]
  cases allocproc s kstack with
  | mk v r =>
      cases r with
      | none => rfl
      | some np =>
          have hset : (v.late l).setProc np
              { (v.late l).proc np with priority := 0, parent := some q, state := .RUNNABLE } =
                (v.setProc np
                  { v.proc np with priority := 0, parent := some q, state := .RUNNABLE }).late l :=
            late_setProc rfl
          cases copied with
          | true =>
              simp only [hset, if_true]
              rfl
          | false =>
              simp only [Bool.false_eq_true, if_false]
              exact late_setState _

theorem kill_late (pid : ℕ) : kill (s.late l) pid = (kill s pid).late l := by
  unfold kill
  have hfind : ((List.finRange NPROC).find? fun p => ((s.late l).proc p).pid = pid) =
      (List.finRange NPROC).find? fun p => (s.proc p).pid = pid := rfl
  rw [hfind]
  cases (List.finRange NPROC).find? fun p => (s.proc p).pid = pid with
  | none => rfl
  | some p => exact late_setProc rfl

theorem afterSwtch_late : afterSwtch (s.late l) c d = (afterSwtch s c d).late l := by
  unfold afterSwtch
  by_cases ht : (s.proc d.p).ticks d.q.1 = allotment d.q.1
  · have ht' : ((s.late l).proc d.p).ticks d.q.1 = allotment d.q.1 := ht
    by_cases hr : d.q.1 < 3
    · simp only [ht, ht', hr, if_true]
      have hset : (s.late l).setProc d.p { (s.late l).proc d.p with
          ticks := Function.update ((s.late l).proc d.p).ticks d.q.1 0
          priority := ((s.late l).proc d.p).priority + 1 } =
        (s.setProc d.p { s.proc d.p with
          ticks := Function.update (s.proc d.p).ticks d.q.1 0
          priority := (s.proc d.p).priority + 1 }).late l := late_setProc rfl
      rw [hset]
      rfl
    · simp only [ht, ht', hr, if_true, if_false]
      have hset : (s.late l).setProc d.p { (s.late l).proc d.p with
          ticks := Function.update ((s.late l).proc d.p).ticks d.q.1 0 } =
        (s.setProc d.p { s.proc d.p with
          ticks := Function.update (s.proc d.p).ticks d.q.1 0 }).late l := late_setProc rfl
      rw [hset]
      rfl
  · have ht' : ¬ ((s.late l).proc d.p).ticks d.q.1 = allotment d.q.1 := ht
    simp only [ht, ht', if_false]
    rfl

theorem sleep_late (chan : Chan) : sleep (s.late l) c d chan = (sleep s c d chan).late l := by
  unfold sleep
  have hset : (s.late l).setProc d.p { (s.late l).proc d.p with chan := some chan } =
      (s.setProc d.p { s.proc d.p with chan := some chan }).late l := late_setProc rfl
  rw [hset, late_setState, afterSwtch_late]

theorem exit_late : exit (s.late l) c d = (exit s c d).map (·.late l) := by
  unfold exit
  have hinit : (s.late l).initproc = s.initproc := rfl
  have hparent : ((s.late l).proc d.p).parent = (s.proc d.p).parent := rfl
  rw [hinit, hparent]
  cases s.initproc with
  | none => rfl
  | some init =>
      simp only
      split
      · rfl
      · cases (s.proc d.p).parent with
        | none => simp only [Option.map_some, reparent_late, late_setState, afterSwtch_late]
        | some parent =>
            simp only [Option.map_some, wakeup1_late, reparent_late, late_setState, afterSwtch_late]

theorem wait_late : wait (s.late l) c d = (wait s c d).late l := by
  unfold wait
  have hfind : ((List.finRange NPROC).find? fun q =>
      ((s.late l).proc q).parent = some d.p ∧ ((s.late l).proc q).state = .ZOMBIE) =
      (List.finRange NPROC).find? fun q =>
        (s.proc q).parent = some d.p ∧ (s.proc q).state = .ZOMBIE := rfl
  rw [hfind]
  cases (List.finRange NPROC).find? fun q =>
      (s.proc q).parent = some d.p ∧ (s.proc q).state = .ZOMBIE with
  | some q => exact late_setProc rfl
  | none =>
      simp only
      by_cases h : (∀ q, (s.proc q).parent ≠ some d.p) ∨ (s.proc d.p).killed = true
      · have h' : (∀ q, ((s.late l).proc q).parent ≠ some d.p) ∨
            ((s.late l).proc d.p).killed = true := h
        rw [if_pos h, if_pos h']
      · have h' : ¬ ((∀ q, ((s.late l).proc q).parent ≠ some d.p) ∨
            ((s.late l).proc d.p).killed = true) := h
        rw [if_neg h, if_neg h']
        exact sleep_late _

theorem account_late : account (s.late l) p = (account s p).late l := by
  unfold account
  have hset : (s.late l).setProc p { (s.late l).proc p with
      ticks := Function.update ((s.late l).proc p).ticks ((s.late l).proc p).priority
        (((s.late l).proc p).ticks ((s.late l).proc p).priority + 1)
      accumulatedTicks := Function.update ((s.late l).proc p).accumulatedTicks
        ((s.late l).proc p).priority
        (((s.late l).proc p).accumulatedTicks ((s.late l).proc p).priority + 1) } =
    (s.setProc p { s.proc p with
      ticks := Function.update (s.proc p).ticks (s.proc p).priority
        ((s.proc p).ticks (s.proc p).priority + 1)
      accumulatedTicks := Function.update (s.proc p).accumulatedTicks (s.proc p).priority
        ((s.proc p).accumulatedTicks (s.proc p).priority + 1) }).late l := late_setProc rfl
  simp only [hset]
  rfl

/-- The starvation check compares `lastTick` of the processes above level 0 only. -/
theorem boost_late (now : ℕ) (hl : 0 < (s.proc p).priority → l p = (s.proc p).lastTick) :
    boost now (s.late l) p = (boost now s p).late l := by
  unfold boost
  by_cases hpos : 0 < (s.proc p).priority
  · have hlast : ((s.late l).proc p).lastTick = (s.proc p).lastTick := hl hpos
    have hpos' : 0 < ((s.late l).proc p).priority := hpos
    by_cases hrun : (s.proc p).state = .RUNNABLE ∧
        (s.proc p).lastTick < (now + 2 ^ 32 - 100) % 2 ^ 32
    · have hrun' : ((s.late l).proc p).state = .RUNNABLE ∧
          ((s.late l).proc p).lastTick < (now + 2 ^ 32 - 100) % 2 ^ 32 := by
        rw [hlast]
        exact hrun
      have hset : (s.late l).setProc p { (s.late l).proc p with
          priority := ((s.late l).proc p).priority - 1
          ticks := fun j => if ((s.late l).proc p).priority - 1 ≤ j ∧ j ≤ ((s.late l).proc p).priority
            then 0 else ((s.late l).proc p).ticks j } =
        (s.setProc p { s.proc p with
          priority := (s.proc p).priority - 1
          ticks := fun j => if (s.proc p).priority - 1 ≤ j ∧ j ≤ (s.proc p).priority then 0
            else (s.proc p).ticks j }).late l := late_setProc rfl
      simp only
      rw [if_pos hrun, if_pos hrun', if_pos hpos, if_pos hpos', hset]
      rfl
    · have hrun' : ¬ (((s.late l).proc p).state = .RUNNABLE ∧
          ((s.late l).proc p).lastTick < (now + 2 ^ 32 - 100) % 2 ^ 32) := by
        rw [hlast]
        exact hrun
      simp only
      rw [if_neg hrun, if_neg hrun']
  · have hpos' : ¬ 0 < ((s.late l).proc p).priority := hpos
    simp only
    rw [if_neg hpos, if_neg hpos']
    split
    · split <;> rfl
    · split <;> rfl

theorem boost_lastTick (now : ℕ) (s : Kernel) (p q : ProcId) :
    ((boost now s p).proc q).lastTick = (s.proc q).lastTick ∧
      ((boost now s p).proc q).priority ≤ (s.proc q).priority := by
  unfold boost
  simp only
  split
  · split
    · show ((s.setProc p _).proc q).lastTick = _ ∧ ((s.setProc p _).proc q).priority ≤ _
      by_cases hq : q = p
      · subst hq
        rw [setProc_self]
        exact ⟨rfl, Nat.sub_le ..⟩
      · rw [setProc_of_ne hq]
        exact ⟨rfl, Nat.le_refl _⟩
    · exact ⟨rfl, Nat.le_refl _⟩
  · exact ⟨rfl, Nat.le_refl _⟩

theorem boost_all_late (now : ℕ) (ps : List ProcId)
    (hl : ∀ p, 0 < (s.proc p).priority → l p = (s.proc p).lastTick) :
    ps.foldl (boost now) (s.late l) = (ps.foldl (boost now) s).late l := by
  induction ps generalizing s with
  | nil => rfl
  | cons p ps ih =>
      rw [List.foldl_cons, List.foldl_cons, boost_late now (hl p)]
      refine ih fun q hq => ?_
      obtain ⟨hlast, hle⟩ := boost_lastTick now s p q
      rw [hlast]
      exact hl q (Nat.lt_of_lt_of_le hq hle)

theorem starvationCheck_late (hl : ∀ p, 0 < (s.proc p).priority → l p = (s.proc p).lastTick) :
    starvationCheck (s.late l) = (starvationCheck s).late l := by
  unfold starvationCheck
  have hstarv : (s.late l).starvTicks = s.starvTicks := rfl
  rw [hstarv]
  split
  · exact boost_all_late (s := { s with starvTicks := 0 }) s.ticks _ hl
  · rfl

theorem tick_late (hl : ∀ p, 0 < (s.proc p).priority → l p = (s.proc p).lastTick) :
    yield (starvationCheck (account (s.late l) d.p)) c d =
      (yield (starvationCheck (account s d.p)) c d).late l := by
  have hacc : ∀ q, 0 < ((account s d.p).proc q).priority →
      l q = ((account s d.p).proc q).lastTick := by
    intro q
    by_cases hq : q = d.p
    · subst hq
      have he : ((account s d.p).proc d.p).priority = (s.proc d.p).priority ∧
          ((account s d.p).proc d.p).lastTick = (s.proc d.p).lastTick := by
        show ((s.setProc d.p _).proc d.p).priority = _ ∧ ((s.setProc d.p _).proc d.p).lastTick = _
        rw [setProc_self]
        exact ⟨rfl, rfl⟩
      rw [he.1, he.2]
      exact hl d.p
    · have he : (account s d.p).proc q = s.proc q := setProc_of_ne hq
      rw [he]
      exact hl q
  unfold yield
  rw [account_late, starvationCheck_late hacc, late_setState, afterSwtch_late]

theorem timer_late {user : Bool}
    (hl : ∀ p, 0 < (s.proc p).priority → l p = (s.proc p).lastTick) :
    timer (s.late l) c user = (timer s c user).map (·.late l) := by
  unfold timer
  simp only
  have hwake : (if c = 0 then
      wakeup1 { s.late l with ticks := ((s.late l).ticks + 1) % 2 ^ 32 } .ticks else s.late l) =
      (if c = 0 then wakeup1 { s with ticks := (s.ticks + 1) % 2 ^ 32 } .ticks else s).late l := by
    split
    · exact wakeup1_late (s := { s with ticks := (s.ticks + 1) % 2 ^ 32 }) _
    · rfl
  have hl' : ∀ p, 0 < ((if c = 0 then wakeup1 { s with ticks := (s.ticks + 1) % 2 ^ 32 } .ticks
      else s).proc p).priority → l p = ((if c = 0 then
        wakeup1 { s with ticks := (s.ticks + 1) % 2 ^ 32 } .ticks else s).proc p).lastTick := by
    intro p
    split
    · simp only [wakeup1]
      split
      · exact hl p
      · exact hl p
    · exact hl p
  rw [hwake]
  generalize (if c = 0 then wakeup1 { s with ticks := (s.ticks + 1) % 2 ^ 32 } .ticks else s) = v
    at hl' ⊢
  have hcpu : ((v.late l).cpu c).current = (v.cpu c).current := rfl
  rw [hcpu]
  cases (v.cpu c).current with
  | none => rfl
  | some d =>
      have hkilled : ((v.late l).proc d.p).killed = (v.proc d.p).killed := rfl
      have hstate : ((v.late l).proc d.p).state = (v.proc d.p).state := rfl
      simp only [hkilled, hstate]
      split
      · exact exit_late
      · split
        · exact congrArg some (tick_late hl')
        · rfl

theorem scan_late (proc proc' : ProcId → Proc) (h : ∀ p, (proc' p).state = (proc p).state)
    (qs : List Slot) (T : Queues) : scan proc' qs T = scan proc qs T := by
  induction qs generalizing T with
  | nil => rfl
  | cons q qs ih =>
      unfold scan
      cases T q with
      | none => exact ih T
      | some p => simp only [h, ih]

/-- The scheduler sets `lastTick` of the process that it dispatches. -/
theorem dispatch_late (hnone : (s.cpu c).current = none) :
    ∃ l', dispatch (s.late l) c = (dispatch s c).late l' ∧ ∀ p,
      l p = (s.proc p).lastTick ∨ (∃ d, ((dispatch s c).cpu c).current = some d ∧ d.p = p) →
        l' p = ((dispatch s c).proc p).lastTick := by
  unfold dispatch
  have hcpu : (s.late l).cpu = s.cpu := rfl
  have hqueues : (s.late l).queues = s.queues := rfl
  have hstate : ∀ p, ((s.late l).proc p).state = (s.proc p).state := fun _ => rfl
  rw [hcpu, hqueues, scan_late s.proc (s.late l).proc hstate]
  cases scan s.proc (scanOrder (s.cpu c).lastRR) s.queues with
  | mk qs r =>
      cases r with
      | none =>
          refine ⟨l, rfl, fun p hp => ?_⟩
          rcases hp with hp | ⟨d, hd, -⟩
          · exact hp
          · simp only [hnone] at hd
            cases hd
      | some d =>
          have hproc : ((s.late l).setProc d.p { (s.late l).proc d.p with
              state := .RUNNING, lastTick := (s.late l).ticks, chan := none }) =
              (s.setProc d.p { s.proc d.p with
                state := .RUNNING, lastTick := s.ticks, chan := none }).late
                  (Function.update l d.p s.ticks) := by
            simp only [Kernel.late, Kernel.setProc, Kernel.mk.injEq, and_true]
            funext q
            by_cases hq : q = d.p
            · subst hq
              simp only [Function.update_self]
            · simp only [Function.update_of_ne hq]
          refine ⟨Function.update l d.p s.ticks, ?_, fun p hp => ?_⟩
          · simp only [hproc]
            rfl
          · show Function.update l d.p s.ticks p = ((s.setProc d.p _).proc p).lastTick
            by_cases hpd : p = d.p
            · subst hpd
              rw [Function.update_self, setProc_self]
            · rw [Function.update_of_ne hpd, setProc_of_ne hpd]
              rcases hp with hp | ⟨d', hd', hdp⟩
              · exact hp
              · simp only [Function.update_self, Option.some.injEq] at hd'
                exact absurd (hd' ▸ hdp).symm hpd

/-- Every other step takes `lastTick` as it is. -/
theorem step_late {a : Call} (ha : ∀ c, a ≠ .dispatch c)
    (hl : ∀ p, 0 < (s.proc p).priority → l p = (s.proc p).lastTick) :
    step (s.late l) a = (step s a).map (·.late l) := by
  have hcpu : ∀ c, ((s.late l).cpu c).current = (s.cpu c).current := fun _ => rfl
  cases a with
  | dispatch c => exact absurd rfl (ha c)
  | fork c kstack copied =>
      simp only [step, hcpu, Option.map_map]
      exact congrArg (Option.map · _) (funext fun d => fork_late d.p kstack copied)
  | exit c =>
      simp only [step, hcpu]
      cases (s.cpu c).current with
      | none => rfl
      | some d => exact exit_late
  | wait c =>
      simp only [step, hcpu, Option.map_map]
      exact congrArg (Option.map · _) (funext fun d => wait_late)
  | sleep c chan =>
      simp only [step, hcpu, Option.map_map]
      exact congrArg (Option.map · _) (funext fun d => sleep_late chan)
  | wakeup chan => exact congrArg some (wakeup1_late chan)
  | kill pid => exact congrArg some (kill_late pid)
  | timer c user => exact timer_late hl

theorem step_lastTick {a : Call} (ha : ∀ c, a ≠ .dispatch c) (hs : step s a = some t)
    (p : ProcId) : (t.proc p).lastTick = (s.proc p).lastTick := by
  have h := step_late (s := s) (l := fun p => (s.proc p).lastTick) ha fun _ _ => rfl
  rw [late_self, hs, Option.map_some] at h
  have ht : t = t.late fun p => (s.proc p).lastTick := Option.some.inj h
  rw [ht]
  rfl

/-! ## Two kernels that differ in stale last ticks -/

/-- A process whose two values of `lastTick` differ is at level 0 and not running. -/
def Agree (s : Kernel) (l : ProcId → ℕ) : Prop :=
  ∀ p, 0 < (s.proc p).priority ∨ (∃ c d, (s.cpu c).current = some d ∧ d.p = p) →
    l p = (s.proc p).lastTick

/-- The two kernels make the same steps, and the processes that a step makes differ in no other
way than before. -/
theorem step_agree {a : Call} (h : Running s) (hl : Agree s l) :
    ∃ l', step (s.late l) a = (step s a).map (·.late l') ∧ ∀ t, step s a = some t → Agree t l' := by
  by_cases ha : ∃ c, a = .dispatch c
  · obtain ⟨c, rfl⟩ := ha
    have hcpu : ((s.late l).cpu c).current = (s.cpu c).current := rfl
    simp only [step, hcpu]
    by_cases hnone : (s.cpu c).current = none
    · obtain ⟨l', he, hl'⟩ := dispatch_late (l := l) hnone
      refine ⟨l', ?_, fun t ht p hp => ?_⟩
      · rw [if_pos hnone, if_pos hnone, he]
        rfl
      · rw [if_pos hnone] at ht
        obtain rfl := Option.some.inj ht
        apply hl'
        rcases hp with hp | ⟨c', d, hd, hdp⟩
        · have hprio : ((dispatch s c).proc p).priority = (s.proc p).priority :=
            congrArg Slice.priority ((dispatch_keeps s c).slice p)
          exact .inl (hl p (.inl (hprio ▸ hp)))
        · by_cases hcc : c' = c
          · subst hcc
            exact .inr ⟨d, hd, hdp⟩
          · refine .inl (hl p (.inr ⟨c', d, ?_, hdp⟩))
            rwa [dispatch_cpu hcc] at hd
    · refine ⟨l, by rw [if_neg hnone, if_neg hnone]; rfl, fun t ht => ?_⟩
      rw [if_neg hnone] at ht
      cases ht
  · have ha' := not_exists.mp ha
    refine ⟨l, step_late ha' fun p hp => hl p (.inl hp), fun t ht p hp => ?_⟩
    rw [step_lastTick ha' ht]
    rcases hp with hp | ⟨c, d, hd, hdp⟩
    · refine hl p ?_
      cases step_slice h.current ht p with
      | idle hc hy hold =>
          have hprio : (t.proc p).priority = (s.proc p).priority := congrArg Slice.priority hy
          exact .inl (hprio ▸ hp)
      | forked c _ hu hy =>
          have : (t.proc p).priority = 0 := congrArg Slice.priority hy
          omega
      | gone c d hc hd hdp hy => exact .inr ⟨c, d, hd, hdp⟩
      | boosted c user _ hc hpos hstate hy => exact .inl hpos
      | spent c d hc hd hdp hy => exact .inr ⟨c, d, hd, hdp⟩
    · exact hl p (.inr ⟨c, d, (step_leaves h ha' ht).current c d hd, hdp⟩)

/-- What `getpinfo` reports after any calls does not tell the two kernels apart. -/
theorem play_agree (calls : List Call) (h : Running s) (hl : Agree s l) :
    (play step calls (s.late l)).map getpinfo = (play step calls s).map getpinfo := by
  induction calls generalizing s l with
  | nil => rfl
  | cons a calls ih =>
      obtain ⟨l', he, hl'⟩ := step_agree (a := a) h hl
      simp only [play, he]
      cases hs : step s a with
      | none => rfl
      | some t => exact ih (step_running h hs) (hl' t hs)

/-! ## Slots that have been charged -/

/-- The counters of a slot that no tick has been charged to. -/
def Slice.clean : Slice := ⟨0, fun _ => 0, fun _ => 0⟩

theorem Slice.clean_quantum (row : ℕ) : Slice.clean.quantum row = Slice.clean :=
  quantum_of_ne (Nat.ne_of_lt (Within.allotment_pos row))

theorem step_clean {a : Call} (h : Running s) (hs : step s a = some t)
    (hp : (s.proc p).slice = .clean) :
    if charged s a = some p then 0 < (t.proc p).slice.accumulatedTicks 0
    else (t.proc p).slice = .clean := by
  cases step_slice h.current hs p with
  | idle hc hy hold => rw [if_neg hc, hy, hp]
  | forked c ha hu hy =>
      subst ha
      rw [if_neg nofun, hy, hp]
      rfl
  | gone c d hc hd hdp hy => rw [if_neg hc, hy, hp, Slice.clean_quantum]
  | boosted c user ha hc hpos hstate hy =>
      have hprio : (s.proc p).priority = 0 := congrArg Slice.priority hp
      omega
  | spent c d hc hd hdp hy =>
      rw [if_pos hc, hy, hp, Slice.quantum_accumulatedTicks]
      exact Nat.one_pos

theorem step_used {a : Call} (h : Running s) (hs : step s a = some t)
    (hp : 0 < (s.proc p).slice.accumulatedTicks 0) :
    0 < (t.proc p).slice.accumulatedTicks 0 := by
  cases step_slice h.current hs p with
  | idle hc hy hold => rwa [hy]
  | forked c ha hu hy => rwa [hy]
  | gone c d hc hd hdp hy => rwa [hy, Slice.quantum_accumulatedTicks]
  | boosted c user ha hc hpos hstate hy => rwa [hy]
  | spent c d hc hd hdp hy =>
      rw [hy, Slice.quantum_accumulatedTicks]
      show 0 < Function.update (s.proc p).slice.accumulatedTicks (s.proc p).slice.priority _ 0
      by_cases h0 : (0 : ℕ) = (s.proc p).slice.priority
      · rw [← h0, Function.update_self]
        omega
      · rwa [Function.update_of_ne h0]

theorem play_used {calls : List Call} (h : Running s) (hs : play step calls s = some t)
    (hp : 0 < (s.proc p).slice.accumulatedTicks 0) :
    0 < (t.proc p).slice.accumulatedTicks 0 := by
  induction calls generalizing s with
  | nil =>
      obtain rfl := Option.some.inj hs
      exact hp
  | cons a calls ih =>
      obtain ⟨u, hu, ht⟩ := Option.bind_eq_some_iff.mp hs
      exact ih (step_running h hu) ht (step_used h hu hp)

/-- A slot is clean as long as no tick is charged to it, and never again after that. -/
theorem play_clean {calls : List Call} (h : Running s) (hs : play step calls s = some t)
    (hp : (s.proc p).slice = .clean) :
    (p ∉ charges calls s → (t.proc p).slice = .clean) ∧
      (p ∈ charges calls s → 0 < (t.proc p).slice.accumulatedTicks 0) := by
  induction calls generalizing s with
  | nil =>
      obtain rfl := Option.some.inj hs
      exact ⟨fun _ => hp, fun hmem => nomatch hmem⟩
  | cons a calls ih =>
      obtain ⟨u, hu, ht⟩ := Option.bind_eq_some_iff.mp hs
      have hclean := step_clean h hu hp
      have hrun := step_running h hu
      simp only [charges, hu, List.mem_append, Option.mem_toList]
      by_cases hc : charged s a = some p
      · rw [if_pos hc] at hclean
        exact ⟨fun hno => absurd (.inl hc) hno, fun _ => play_used hrun ht hclean⟩
      · rw [if_neg hc] at hclean
        obtain ⟨hno, hyes⟩ := ih hrun ht hclean
        exact ⟨fun hn => hno fun hmem => hn (.inr hmem),
          fun hmem => hyes (hmem.resolve_left hc)⟩

theorem userinit_boot : (∀ p, (userinit.proc p).slice = .clean) ∧
    ∀ c, (userinit.cpu c).current = none := by
  have hboot : ∀ v r, allocproc {} true = (v, r) →
      (∀ p, (v.proc p).slice = .clean) ∧ ∀ c, (v.cpu c).current = none := by
    intro v r ha
    refine ⟨fun p => ((allocproc_slice ha).1 p).trans rfl, fun c => ?_⟩
    unfold allocproc at ha
    split at ha
    · obtain ⟨rfl, -⟩ := Prod.mk.inj ha
      rfl
    · obtain ⟨rfl, -⟩ := Prod.mk.inj ha
      rfl
  unfold userinit
  cases ha : allocproc {} true with
  | mk v r =>
      obtain ⟨hclean, hnone⟩ := hboot v r ha
      cases r with
      | none => exact ⟨hclean, hnone⟩
      | some q =>
          refine ⟨fun p => ?_, hnone⟩
          show ((v.setProc q { v.proc q with state := .RUNNABLE, priority := 0 }).proc p).slice = _
          by_cases hp : p = q
          · subst hp
            rw [setProc_self]
            have hpriority : (v.proc p).priority = 0 := congrArg Slice.priority (hclean p)
            refine Eq.trans ?_ (hclean p)
            exact Slice.ext hpriority.symm rfl rfl
          · rw [setProc_of_ne hp]
            exact hclean p

theorem userinit_running : Running userinit where
  current := fun c _ hd => nomatch (userinit_boot.2 c).symm.trans hd
  apart := fun c _ _ _ hd => nomatch (userinit_boot.2 c).symm.trans hd

theorem play_running {calls : List Call} (h : Running s) (hs : play step calls s = some t) :
    Running t :=
  (Run.of_play hs).invariant h fun _ _ _ hi _ hs => step_running hi hs

theorem forget_of_clean (hp : (s.proc p).slice = .clean) :
    s.forget p = s.late (Function.update (fun q => (s.proc q).lastTick) p 0) := by
  have hpriority : (s.proc p).priority = 0 := congrArg Slice.priority hp
  have hticks : (s.proc p).ticks = fun _ => 0 := congrArg Slice.ticks hp
  have hacc : (s.proc p).accumulatedTicks = fun _ => 0 := congrArg Slice.accumulatedTicks hp
  simp only [Kernel.forget, Kernel.late, Kernel.setProc, Kernel.mk.injEq, and_true]
  funext q
  by_cases hq : q = p
  · subst hq
    simp only [Function.update_self, hpriority, hticks, hacc]
  · simp only [Function.update_of_ne hq]

theorem agree_unused (h : Running s) (hu : (s.proc p).state = .UNUSED)
    (hp : (s.proc p).slice = .clean) :
    Agree s (Function.update (fun q => (s.proc q).lastTick) p 0) := by
  intro q hq
  by_cases hqp : q = p
  · subst hqp
    rcases hq with hpos | ⟨c, d, hd, rfl⟩
    · have : (s.proc q).priority = 0 := congrArg Slice.priority hp
      omega
    · have := h.current c d hd
      rw [hu] at this
      cases this
  · rw [Function.update_of_ne hqp]

/-- After any history, a process that `fork` makes starts with counters at zero, and is seen to be
treated after that as if the slot had never been used, exactly when no tick of the history was
charged to its slot. -/
theorem startsFresh_iff {calls : List Call} (h : play step calls userinit = some s)
    (hs : step s (.fork c true true) = some t) (hp : findUnused s = some p) :
    (StartsFresh t p ∧ ∀ later, (play step later t).map getpinfo =
        (play step (.fork c true true :: later) (s.forget p)).map getpinfo) ↔
      p ∉ charges calls userinit := by
  have hrun := play_running userinit_running h
  obtain ⟨hno, hyes⟩ := play_clean userinit_running h (userinit_boot.1 p)
  constructor
  · rintro ⟨hfresh, -⟩ hmem
    have hacc := step_used hrun hs (hyes hmem)
    have hzero : (t.proc p).slice.accumulatedTicks 0 = 0 := hfresh.accumulatedTicks 0 (by omega)
    omega
  · intro hmem
    have hclean := hno hmem
    refine ⟨?_, fun later => ?_⟩
    · have ht := step_clean hrun hs hclean
      rw [if_neg nofun] at ht
      exact ⟨congrArg Slice.priority ht, fun j _ => congrFun (congrArg Slice.ticks ht) j,
        fun j _ => congrFun (congrArg Slice.accumulatedTicks ht) j⟩
    · rw [forget_of_clean hclean,
        play_agree _ hrun (agree_unused hrun (findUnused_state hp) hclean)]
      simp only [play, hs, Option.bind_some]

/-- The first child that `init` forks starts fresh. -/
theorem startsFresh_first_child : ∃ s t, play step [.dispatch 0] userinit = some s ∧
    step s (.fork 0 true true) = some t ∧ StartsFresh t 1 := by
  have hend : ((play step [.dispatch 0] userinit).map fun s =>
      ((step s (.fork 0 true true)).isSome, findUnused s)) = some (true, some 1) := by decide +kernel
  obtain ⟨s, hs, he⟩ := Option.map_eq_some_iff.mp hend
  obtain ⟨hsome, hp⟩ : _ ∧ _ := by simpa only [Prod.mk.injEq] using he
  obtain ⟨t, ht⟩ := Option.isSome_iff_exists.mp hsome
  exact ⟨s, t, hs, ht, ((startsFresh_iff hs ht hp).mpr (by decide +kernel)).1⟩

/-- A child that is charged one tick, exits and is reaped: its slot goes to the next child. -/
def oneTick : List Call := [.dispatch 0, .fork 0 true true, .wait 0, .dispatch 0, .timer 0 true,
  .dispatch 0, .exit 0, .dispatch 0, .wait 0]

theorem second_child_charged : ∃ s t, play step oneTick userinit = some s ∧
    step s (.fork 0 true true) = some t ∧ findUnused s = some 1 ∧
      (getpinfo t 1).map PInfo.ticks = some [1, 0, 0, 0] ∧ ¬ StartsFresh t 1 := by
  have hfind : (play step oneTick userinit).map findUnused = some (some 1) := by decide +kernel
  have hend : ((play step oneTick userinit).bind (step · (.fork 0 true true))).map (fun t =>
      ((getpinfo t 1).map PInfo.ticks, (t.proc 1).ticks 0)) = some (some [1, 0, 0, 0], 1) := by
    decide +kernel
  obtain ⟨s, hs, hp⟩ := Option.map_eq_some_iff.mp hfind
  rw [hs, Option.bind_some] at hend
  obtain ⟨t, ht, he⟩ := Option.map_eq_some_iff.mp hend
  obtain ⟨hinfo, htick⟩ : _ ∧ _ := by simpa only [Prod.mk.injEq] using he
  refine ⟨s, t, hs, ht, hp, hinfo, fun h => ?_⟩
  have := h.ticks 0 (by omega)
  omega

end

end IntroToOS.Mlfq

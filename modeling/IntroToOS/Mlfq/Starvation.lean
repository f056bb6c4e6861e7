import IntroToOS.Mlfq.Reuse

/-! # The starvation check

The check raises a process when `now - 100 > p->lastTick`, a difference of `uint`s: in the first 100
ticks after the clock has stood at 0 it is true of nearly every value of `lastTick`. Beside the kernel
a run keeps the clock as a number (`now`) and when each process was last dispatched (`since`).
-/

namespace IntroToOS.Mlfq
open Lib
set_option autoImplicit false

structure Clocked where
  kernel : Kernel
  now : ℕ := 0
  since : ProcId → ℕ := fun _ => 0

/-- The ticks that the clock advances in a step. -/
def Call.tick : Call → ℕ
  | .timer c _ => if c = 0 then 1 else 0
  | _ => 0

/-- The process that a step has dispatched. -/
def dispatched (t : Kernel) : Call → Option ProcId
  | .dispatch c => (t.cpu c).current.map Dispatch.p
  | _ => none

def clockStep (s : Clocked) (a : Call) : Option Clocked :=
  (step s.kernel a).map fun t =>
    { kernel := t
      now := s.now + a.tick
      since := fun p => if dispatched t a = some p then s.now else s.since p }

/-- The kernel as the starvation check of a timer interrupt finds it, if the interrupt gets there. -/
def atCheck (s : Kernel) (c : ℕ) (user : Bool) : Option Kernel :=
  let s := if c = 0 then wakeup1 { s with ticks := (s.ticks + 1) % 2 ^ 32 } .ticks else s
  match (s.cpu c).current with
  | none => none
  | some d =>
    if (s.proc d.p).killed = true ∧ user = true then none
    else if (s.proc d.p).state = .RUNNING then some (account s d.p)
    else none

/-- It is the starvation check of that interrupt. -/
theorem timer_of_atCheck {s v : Kernel} {c : ℕ} {user : Bool} (h : atCheck s c user = some v) :
    ∃ d, (s.cpu c).current = some d ∧
      timer s c user = some (yield (starvationCheck v) c d) := by
  unfold atCheck at h
  unfold timer
  simp only at h ⊢
  have hcpu : (if c = 0 then wakeup1 { s with ticks := (s.ticks + 1) % 2 ^ 32 } .ticks else s).cpu =
      s.cpu := by
    split <;> rfl
  generalize (if c = 0 then wakeup1 { s with ticks := (s.ticks + 1) % 2 ^ 32 } .ticks else s) = w
    at h hcpu ⊢
  rw [hcpu] at h ⊢
  cases hd : (s.cpu c).current with
  | none =>
      rw [hd] at h
      cases h
  | some d =>
      rw [hd] at h
      simp only at h ⊢
      split at h
      · cases h
      · next hno =>
        split at h
        · next hrun =>
          obtain rfl := Option.some.inj h
          exact ⟨d, rfl, by rw [if_neg hno, if_pos hrun]⟩
        · cases h

/-! ## What is claimed of a check -/

/-- Process `p` has been raised from `v` to `t`. -/
structure RaisedRight (v t : Kernel) (now since : ℕ) (p : ProcId) : Prop where
  runnable : (v.proc p).state = .RUNNABLE
  starved : since + 100 < now
  level : (t.proc p).priority + 1 = (v.proc p).priority
  ticks : (t.proc p).ticks (v.proc p).priority = 0 ∧ (t.proc p).ticks (t.proc p).priority = 0
  old : ∃ x, IsSlot x ∧ x.1 = (v.proc p).priority ∧ v.queues x = some p
  new : ∃ x, IsSlot x ∧ x.1 = (t.proc p).priority ∧ t.queues x = some p ∧
    ∀ y, IsSlot y → t.queues y = some p → y = x

/-- A process whose priority changes has been raised, all others are as before. -/
def BoostRight (v : Kernel) (now : ℕ) (since : ProcId → ℕ) : Prop :=
  ∀ p, if ((starvationCheck v).proc p).priority = (v.proc p).priority then
      (starvationCheck v).proc p = v.proc p ∧
        ∀ x, IsSlot x → ((starvationCheck v).queues x = some p ↔ v.queues x = some p)
    else RaisedRight v (starvationCheck v) now (since p) p

/-- The test of the starvation loop, for the clock `ticks`. -/
def Starved (ticks : ℕ) (x : Proc) : Prop :=
  x.state = .RUNNABLE ∧ x.lastTick < (ticks + 2 ^ 32 - 100) % 2 ^ 32 ∧ 0 < x.priority

instance (ticks : ℕ) (x : Proc) : Decidable (Starved ticks x) :=
  inferInstanceAs (Decidable (_ ∧ _ ∧ _))

/-- When the check runs in the first 100 ticks of the clock, whoever passes the test was dispatched
before the clock started (again) at 0; and it is in the row of its priority. -/
def CheckedLate (v : Kernel) (now : ℕ) (since : ProcId → ℕ) : Prop :=
  v.starvTicks = 100 → ∀ p, Starved v.ticks (v.proc p) →
    (v.ticks < 100 → since p + v.ticks < now) ∧
      ∃ x, IsSlot x ∧ x.1 = (v.proc p).priority ∧ v.queues x = some p

/-! ## One process -/

section
variable {s t u : Kernel} {p q : ProcId} {now : ℕ} {l : List ProcId}

def Proc.raised (x : Proc) : Proc :=
  { x with
    priority := x.priority - 1
    ticks := fun j => if x.priority - 1 ≤ j ∧ j ≤ x.priority then 0 else x.ticks j }

theorem boost_of_starved (h : Starved now (s.proc p)) : boost now s p =
    { s.setProc p (s.proc p).raised with
      queues := enqueue (dequeue s.queues (s.proc p).priority p) ((s.proc p).priority - 1) p } := by
  unfold boost
  simp only
  rw [if_pos ⟨h.1, h.2.1⟩, if_pos h.2.2]
  rfl

theorem boost_of_not_starved (h : ¬ Starved now (s.proc p)) : boost now s p = s := by
  unfold boost
  simp only
  split
  · next hrun =>
    split
    · next hpos => exact absurd ⟨hrun.1, hrun.2, hpos⟩ h
    · rfl
  · rfl

theorem boost_proc (now : ℕ) (s : Kernel) (p : ProcId) : (boost now s p).proc p =
    if Starved now (s.proc p) then (s.proc p).raised else s.proc p := by
  split
  · next h =>
    rw [boost_of_starved h]
    exact setProc_self
  · next h => rw [boost_of_not_starved h]

theorem boost_all_proc (hl : l.Nodup) (s : Kernel) (p : ProcId) :
    (l.foldl (boost now) s).proc p =
      if p ∈ l ∧ Starved now (s.proc p) then (s.proc p).raised else s.proc p := by
  induction l generalizing s with
  | nil => rw [List.foldl_nil, if_neg fun h => nomatch h.1]
  | cons q l ih =>
      obtain ⟨hq, hl⟩ := List.nodup_cons.mp hl
      rw [List.foldl_cons]
      by_cases hp : p = q
      · subst hp
        rw [boost_all_of_notMem hq, boost_proc]
        simp only [List.mem_cons_self, true_and]
      · rw [ih hl, boost_of_ne hp]
        simp only [List.mem_cons, hp, false_or]

/-- A process that is in the row of its priority moves up by one row. -/
theorem boost_moved (hs : Single IsSlot s.queues) (h : Starved now (s.proc p)) {x : Slot}
    (hx : IsSlot x) (hrow : x.1 = (s.proc p).priority) (hp : s.queues x = some p) :
    Moved s.queues (boost now s p).queues p ((s.proc p).priority - 1) := by
  rw [boost_of_starved h]
  show Moved s.queues (enqueue (dequeue s.queues (s.proc p).priority p) _ p) p _
  rw [← hrow, dequeue_eq hs hx hp]
  have hlt := hx.1
  exact clear_enqueue_moved hs hx hp (by omega)

theorem boost_all_moved (hl : l.Nodup) (hs : Single IsSlot s.queues)
    (hrow : ∀ p ∈ l, Starved now (s.proc p) →
      ∃ x, IsSlot x ∧ x.1 = (s.proc p).priority ∧ s.queues x = some p) :
    Single IsSlot (l.foldl (boost now) s).queues ∧
      (∀ p ∈ l, Starved now (s.proc p) → ∃ x, IsSlot x ∧ x.1 = (s.proc p).priority - 1 ∧
        (l.foldl (boost now) s).queues x = some p) ∧
      ∀ p, ¬ (p ∈ l ∧ Starved now (s.proc p)) → ∀ x,
        ((l.foldl (boost now) s).queues x = some p ↔ s.queues x = some p) := by
  induction l generalizing s with
  | nil => exact ⟨hs, nofun, fun _ _ _ => Iff.rfl⟩
  | cons q l ih =>
      obtain ⟨hq, hl⟩ := List.nodup_cons.mp hl
      rw [List.foldl_cons]
      -- what happens to `q`, and to everybody else
      have hstep : Single IsSlot (boost now s q).queues ∧
          (Starved now (s.proc q) → ∃ x, IsSlot x ∧ x.1 = (s.proc q).priority - 1 ∧
            (boost now s q).queues x = some q) ∧
          ∀ p, ¬ (p = q ∧ Starved now (s.proc q)) → ∀ x,
            ((boost now s q).queues x = some p ↔ s.queues x = some p) := by
        by_cases hst : Starved now (s.proc q)
        · obtain ⟨x, hx, hxrow, hxq⟩ := hrow q List.mem_cons_self hst
          have hm := boost_moved hs hst hx hxrow hxq
          obtain ⟨y, hy, hyq⟩ := hm.here
          exact ⟨hm.single, fun _ => ⟨y, hy, hm.row y hy hyq, hyq⟩,
            fun p hp z => hm.others z p fun he => hp ⟨he, hst⟩⟩
        · rw [boost_of_not_starved hst]
          exact ⟨hs, fun h => absurd h hst, fun _ _ _ => Iff.rfl⟩
      obtain ⟨hs', hhere, hothers⟩ := hstep
      have hne : ∀ p ∈ l, p ≠ q := fun p hp he => hq (he ▸ hp)
      have hsame : ∀ p, p ≠ q → (boost now s q).proc p = s.proc p := fun p hp => boost_of_ne hp
      obtain ⟨h1, h2, h3⟩ := ih hl hs' (by
        intro p hp hst
        rw [hsame p (hne p hp)] at hst ⊢
        obtain ⟨x, hx, hxrow, hxp⟩ := hrow p (List.mem_cons_of_mem q hp) hst
        exact ⟨x, hx, hxrow, (hothers p (fun he => hne p hp he.1) x).mpr hxp⟩)
      refine ⟨h1, fun p hp hst => ?_, fun p hp x => ?_⟩
      · rcases List.mem_cons.mp hp with rfl | hp
        · obtain ⟨x, hx, hxrow, hxp⟩ := hhere hst
          exact ⟨x, hx, hxrow, (h3 p (fun he => hq he.1) x).mpr hxp⟩
        · have hst' := hst
          rw [← hsame p (hne p hp)] at hst'
          have := h2 p hp hst'
          rwa [hsame p (hne p hp)] at this
      · by_cases hpq : p = q
        · subst hpq
          rw [h3 p (fun he => hq he.1) x]
          exact hothers p (fun he => hp ⟨List.mem_cons_self, he.2⟩) x
        · rw [h3 p ?_ x, hothers p (fun he => hpq he.1) x]
          rw [hsame p hpq]
          exact fun he => hp ⟨List.mem_cons_of_mem q he.1, he.2⟩

/-! ## The clock -/

/-- An age that is measured in `uint`s, when the clock `now % 2 ^ 32` reads less than 100 or not. -/
theorem starved_age {since : ℕ} (hle : since ≤ now)
    (h : since % 2 ^ 32 < (now % 2 ^ 32 + 2 ^ 32 - 100) % 2 ^ 32) :
    since + 100 < now ↔ (now % 2 ^ 32 < 100 → since + now % 2 ^ 32 < now) := by
  omega

theorem afterSwtch_ticks (s : Kernel) (c : ℕ) (d : Dispatch) :
    (afterSwtch s c d).ticks = s.ticks := by
  unfold afterSwtch
  simp only
  split
  · split <;> rfl
  · rfl

theorem reparent_ticks (s : Kernel) (p init : ProcId) : (reparent s p init).ticks = s.ticks := by
  unfold reparent
  generalize List.finRange NPROC = l
  induction l generalizing s with
  | nil => rfl
  | cons q l ih =>
      rw [List.foldl_cons, ih]
      split
      · simp only
        split <;> rfl
      · rfl

theorem setState_ticks (s : Kernel) (p : ProcId) (st : ProcState) :
    (s.setState p st).ticks = s.ticks := rfl

theorem exit_ticks {c : ℕ} {d : Dispatch} (h : exit s c d = some t) : t.ticks = s.ticks := by
  unfold exit at h
  split at h
  · cases h
  · split at h
    · cases h
    · obtain rfl := Option.some.inj h
      rw [afterSwtch_ticks, setState_ticks, reparent_ticks]
      cases (s.proc d.p).parent <;> rfl

theorem allocproc_ticks {kstack : Bool} {r : Option ProcId} (h : allocproc s kstack = (t, r)) :
    t.ticks = s.ticks := by
  unfold allocproc at h
  split at h
  · obtain ⟨rfl, -⟩ := Prod.mk.inj h
    rfl
  · cases kstack <;> obtain ⟨rfl, -⟩ := Prod.mk.inj h <;> rfl

theorem fork_ticks (s : Kernel) (p : ProcId) (kstack copied : Bool) :
    (fork s p kstack copied).ticks = s.ticks := by
  unfold fork
  cases ha : allocproc s kstack with
  | mk v r =>
      cases r with
      | none => exact allocproc_ticks ha
      | some np =>
          have hv : v.ticks = s.ticks := allocproc_ticks ha
          cases copied <;> exact hv

theorem kill_ticks (s : Kernel) (pid : ℕ) : (kill s pid).ticks = s.ticks := by
  unfold kill
  split <;> rfl

theorem sleep_ticks (s : Kernel) (c : ℕ) (d : Dispatch) (chan : Chan) :
    (sleep s c d chan).ticks = s.ticks := afterSwtch_ticks _ c d

theorem wait_ticks (s : Kernel) (c : ℕ) (d : Dispatch) : (wait s c d).ticks = s.ticks := by
  unfold wait
  split
  · rfl
  · split
    · rfl
    · exact sleep_ticks ..

theorem starvationCheck_ticks (s : Kernel) : (starvationCheck s).ticks = s.ticks := by
  have hboost : ∀ (now : ℕ) (s : Kernel) (q : ProcId), (boost now s q).ticks = s.ticks := by
    intro now s q
    by_cases h : Starved now (s.proc q)
    · rw [boost_of_starved h]
      rfl
    · rw [boost_of_not_starved h]
  have hall : ∀ (now : ℕ) (l : List ProcId) (s : Kernel),
      (l.foldl (boost now) s).ticks = s.ticks := by
    intro now l
    induction l with
    | nil => exact fun _ => rfl
    | cons q l ih => exact fun s => (ih _).trans (hboost now s q)
  unfold starvationCheck
  split
  · exact hall _ _ _
  · rfl

theorem dispatch_ticks (s : Kernel) (c : ℕ) : (dispatch s c).ticks = s.ticks := by
  unfold dispatch
  split <;> rfl

/-- The clock is advanced by the timer interrupts of the first CPU only. -/
theorem step_ticks {a : Call} (h : step s a = some t) :
    t.ticks = if a.tick = 1 then (s.ticks + 1) % 2 ^ 32 else s.ticks := by
  cases a with
  | dispatch c =>
      obtain ⟨-, he⟩ := Option.ite_none_right_eq_some.mp h
      exact Option.some.inj he ▸ dispatch_ticks s c
  | fork c kstack copied =>
      obtain ⟨d, -, rfl⟩ := Option.map_eq_some_iff.mp h
      exact fork_ticks s d.p kstack copied
  | exit c =>
      obtain ⟨d, -, he⟩ := Option.bind_eq_some_iff.mp h
      exact exit_ticks he
  | wait c =>
      obtain ⟨d, -, rfl⟩ := Option.map_eq_some_iff.mp h
      exact wait_ticks s c d
  | sleep c chan =>
      obtain ⟨d, -, rfl⟩ := Option.map_eq_some_iff.mp h
      exact sleep_ticks s c d chan
  | wakeup chan => exact Option.some.inj h ▸ rfl
  | kill pid => exact Option.some.inj h ▸ kill_ticks s pid
  | timer c user =>
      have htick : (if c = 0 then wakeup1 { s with ticks := (s.ticks + 1) % 2 ^ 32 } .ticks
          else s).ticks = if (Call.timer c user).tick = 1 then (s.ticks + 1) % 2 ^ 32
            else s.ticks := by
        by_cases hc : c = 0 <;> simp [Call.tick, hc, wakeup1]
      rw [← htick]
      simp only [step, timer] at h
      generalize (if c = 0 then wakeup1 { s with ticks := (s.ticks + 1) % 2 ^ 32 } .ticks
        else s) = w at h ⊢
      split at h
      · exact Option.some.inj h ▸ rfl
      · split at h
        · exact exit_ticks h
        · split at h
          · obtain rfl := Option.some.inj h
            exact (afterSwtch_ticks ..).trans (starvationCheck_ticks _)
          · exact Option.some.inj h ▸ rfl

/-- A dispatched process notes the time. -/
theorem dispatch_lastTick {c : ℕ} (hidle : (s.cpu c).current = none) (p : ProcId) :
    ((dispatch s c).proc p).lastTick =
      if dispatched (dispatch s c) (.dispatch c) = some p then s.ticks
      else (s.proc p).lastTick := by
  unfold dispatched dispatch
  split
  · simp [hidle]
  · next qs d _ =>
    simp only [Function.update_self, Option.map_some, Option.some.injEq]
    by_cases hp : p = d.p
    · subst hp
      rw [setProc_self, if_pos rfl]
    · rw [setProc_of_ne hp, if_neg fun he => hp he.symm]

/-! ## Runs -/

structure ClockInv (s : Clocked) : Prop where
  ticks : s.kernel.ticks = s.now % 2 ^ 32
  last : ∀ p, (s.kernel.proc p).lastTick = s.since p % 2 ^ 32
  le : ∀ p, s.since p ≤ s.now

theorem clockStep_inv {s t : Clocked} {a : Call} (h : ClockInv s) (hs : clockStep s a = some t) :
    ClockInv t := by
  obtain ⟨k, hk, rfl⟩ := Option.map_eq_some_iff.mp hs
  refine ⟨?_, fun p => ?_, fun p => ?_⟩
  · have htick : a.tick = 0 ∨ a.tick = 1 := by
      unfold Call.tick
      split
      · split
        · exact .inr rfl
        · exact .inl rfl
      · exact .inl rfl
    rw [step_ticks hk, h.ticks]
    rcases htick with ha | ha <;> simp [ha]
  · by_cases ha : ∃ c, a = .dispatch c
    · obtain ⟨c, rfl⟩ := ha
      obtain ⟨hidle, he⟩ := Option.ite_none_right_eq_some.mp hk
      obtain rfl := Option.some.inj he
      rw [dispatch_lastTick hidle p]
      simp only
      split
      · exact h.ticks
      · exact h.last p
    · have hno : dispatched k a ≠ some p := by
        cases a with
        | dispatch c => exact absurd ⟨c, rfl⟩ ha
        | _ => exact nofun
      rw [step_lastTick (fun c he => ha ⟨c, he⟩) hk p, h.last p]
      simp only [if_neg hno]
  · simp only
    have := h.le p
    split <;> omega

theorem userinit_clock : ClockInv { kernel := userinit } where
  ticks := by decide +kernel
  last := by decide +kernel
  le _ := Nat.le_refl 0

/-- The kernel that the check finds, but for what the interrupt has charged. -/
theorem atCheck_spec {s v : Kernel} {c : ℕ} {user : Bool} (h : atCheck s c user = some v) :
    v.ticks = (if c = 0 then (s.ticks + 1) % 2 ^ 32 else s.ticks) ∧ v.queues = s.queues ∧
      ∀ p, (v.proc p).lastTick = (s.proc p).lastTick ∧ (v.proc p).priority = (s.proc p).priority ∧
        ((v.proc p).state = .RUNNABLE → Live (s.proc p)) := by
  unfold atCheck at h
  have hw : (if c = 0 then wakeup1 { s with ticks := (s.ticks + 1) % 2 ^ 32 } .ticks
      else s).ticks = (if c = 0 then (s.ticks + 1) % 2 ^ 32 else s.ticks) ∧
      (if c = 0 then wakeup1 { s with ticks := (s.ticks + 1) % 2 ^ 32 } .ticks
      else s).queues = s.queues ∧
      ∀ p, ((if c = 0 then wakeup1 { s with ticks := (s.ticks + 1) % 2 ^ 32 } .ticks
      else s).proc p).lastTick = (s.proc p).lastTick ∧
      ((if c = 0 then wakeup1 { s with ticks := (s.ticks + 1) % 2 ^ 32 } .ticks
      else s).proc p).priority = (s.proc p).priority ∧
      (((if c = 0 then wakeup1 { s with ticks := (s.ticks + 1) % 2 ^ 32 } .ticks
      else s).proc p).state = .RUNNABLE → Live (s.proc p)) := by
    split
    · refine ⟨rfl, rfl, fun p => ?_⟩
      simp only [wakeup1]
      split
      · next hsleeps => exact ⟨rfl, rfl, fun _ => .inr (.inr hsleeps.1)⟩
      · exact ⟨rfl, rfl, .inl⟩
    · exact ⟨rfl, rfl, fun _ => ⟨rfl, rfl, .inl⟩⟩
  simp only at h
  generalize (if c = 0 then wakeup1 { s with ticks := (s.ticks + 1) % 2 ^ 32 } .ticks else s) = w
    at h hw
  obtain ⟨hticks, hqueues, hproc⟩ := hw
  split at h
  · cases h
  · next d _ =>
    split at h
    · cases h
    · split at h
      · obtain rfl := Option.some.inj h
        refine ⟨hticks, hqueues, fun p => ?_⟩
        by_cases hp : p = d.p
        · subst hp
          simpa only [account, setProc_self] using hproc d.p
        · rw [show (account w d.p).proc p = w.proc p from setProc_of_ne hp]
          exact hproc p
      · cases h

theorem starvationCheck_proc {v : Kernel} (hv : v.starvTicks = 100) (p : ProcId) :
    (starvationCheck v).proc p =
      if Starved v.ticks (v.proc p) then (v.proc p).raised else v.proc p := by
  unfold starvationCheck
  rw [if_pos hv, boost_all_proc (List.nodup_finRange NPROC)]
  simp only [List.mem_finRange, true_and]

theorem raised_ticks (x : Proc) : x.raised.ticks x.priority = 0 ∧
    x.raised.ticks x.raised.priority = 0 :=
  ⟨if_pos ⟨Nat.sub_le _ _, Nat.le_refl _⟩, if_pos ⟨Nat.le_refl _, Nat.sub_le _ _⟩⟩

/-- For a kernel whose counters are what the clock says. -/
theorem boostRight_iff {v : Kernel} {since : ProcId → ℕ} (hs : Single IsSlot v.queues)
    (hticks : v.ticks = now % 2 ^ 32) (hlast : ∀ p, (v.proc p).lastTick = since p % 2 ^ 32)
    (hle : ∀ p, since p ≤ now) : BoostRight v now since ↔ CheckedLate v now since := by
  by_cases hv : v.starvTicks = 100
  · have hage : ∀ p, Starved v.ticks (v.proc p) →
        (since p + 100 < now ↔ (v.ticks < 100 → since p + v.ticks < now)) := by
      intro p hp
      have hlt := hp.2.1
      rw [hlast, hticks] at hlt
      rw [hticks]
      exact starved_age (hle p) hlt
    have hraised : ∀ p, Starved v.ticks (v.proc p) →
        (starvationCheck v).proc p = (v.proc p).raised := fun p hp => by
      rw [starvationCheck_proc hv, if_pos hp]
    have hmoves : ∀ p, Starved v.ticks (v.proc p) →
        ((starvationCheck v).proc p).priority ≠ (v.proc p).priority := by
      intro p hp
      rw [hraised p hp]
      exact Nat.ne_of_lt (Nat.sub_lt hp.2.2 Nat.one_pos)
    constructor
    · intro h _ p hp
      have hr := h p
      rw [if_neg (hmoves p hp)] at hr
      exact ⟨(hage p hp).mp hr.starved, hr.old⟩
    · intro h p
      obtain ⟨hsingle, hnew, hkept⟩ := boost_all_moved (List.nodup_finRange NPROC)
        (s := { v with starvTicks := 0 }) hs fun q _ (hq : Starved v.ticks _) => (h hv q hq).2
      have hcheck : starvationCheck v =
          (List.finRange NPROC).foldl (boost v.ticks) { v with starvTicks := 0 } := by
        rw [starvationCheck, if_pos hv]
      rw [← hcheck] at hsingle hnew hkept
      by_cases hp : Starved v.ticks (v.proc p)
      · rw [if_neg (hmoves p hp)]
        obtain ⟨hlate, hold⟩ := h hv p hp
        obtain ⟨x, hx, hrow, hxp⟩ := hnew p (List.mem_finRange p) hp
        have hpr := hraised p hp
        refine ⟨hp.1, (hage p hp).mpr hlate, ?_, ?_, hold, x, hx, ?_, hxp, ?_⟩
        · rw [hpr]
          exact Nat.sub_add_cancel hp.2.2
        · rw [hpr]
          exact raised_ticks _
        · rw [hpr]
          exact hrow
        · exact fun y hy hyp => hsingle y x p hy hx hyp hxp
      · have hsame : (starvationCheck v).proc p = v.proc p := by
          rw [starvationCheck_proc hv, if_neg hp]
        rw [if_pos (by rw [hsame])]
        exact ⟨hsame, fun x _ => hkept p (fun he => hp he.2) x⟩
  · have hcheck : starvationCheck v = v := if_neg hv
    refine iff_of_true (fun p => ?_) fun h => absurd h hv
    rw [hcheck, if_pos rfl]
    exact ⟨rfl, fun _ _ => Iff.rfl⟩

/-- In every reachable state in which no process is in two slots, and for every timer interrupt. -/
theorem boost_right_iff {s : Clocked} (h : Run clockStep (fun _ _ => True) { kernel := userinit } s)
    (hs : Single IsSlot s.kernel.queues) {c : ℕ} {user : Bool} {v : Kernel}
    (hv : atCheck s.kernel c user = some v) :
    BoostRight v (s.now + (Call.timer c user).tick) s.since ↔
      CheckedLate v (s.now + (Call.timer c user).tick) s.since := by
  have hinv : ClockInv s := h.invariant userinit_clock fun _ _ _ hi _ hs => clockStep_inv hi hs
  obtain ⟨hticks, hqueues, hlast⟩ := atCheck_spec hv
  refine boostRight_iff (hqueues ▸ hs) ?_ (fun p => (hlast p).1.trans (hinv.last p)) fun p =>
    (hinv.le p).trans (Nat.le_add_right ..)
  rw [hticks, hinv.ticks]
  by_cases hc : c = 0 <;> simp [Call.tick, hc]

/-- Where every process is queued as it should be, the condition is about the clock alone. -/
theorem checkedLate_of_inv {s v : Kernel} {c : ℕ} {user : Bool} (h : Inv s)
    (hv : atCheck s c user = some v) (hlate : 100 ≤ v.ticks) (since : ProcId → ℕ) :
    CheckedLate v now since := by
  intro _ p hp
  obtain ⟨-, hqueues, hproc⟩ := atCheck_spec hv
  obtain ⟨-, hprio, hlive⟩ := hproc p
  obtain ⟨x, hx, hxp⟩ := h.live p (hlive hp.1)
  refine ⟨fun hlt => absurd hlate (Nat.not_le_of_lt hlt), x, hx, ?_, hqueues ▸ hxp⟩
  rw [hprio, h.row x p hx hxp]

end

/-- The second CPU runs `init` and its child by turns; no interrupt has come in on the first CPU. -/
def hundredTicks : List Call :=
  .dispatch 1 :: .fork 1 true true :: (List.replicate 99 [.timer 1 true, .dispatch 1]).flatten

/-- What the runs below need of the state after ninety-nine ticks. -/
structure NinetyNine (s : Clocked) : Prop where
  play : play clockStep hundredTicks { kernel := userinit } = some s
  now : s.now = 0
  ticks : s.kernel.ticks = 0
  starv : s.kernel.starvTicks = 99
  running : (s.kernel.cpu 1).current.map Dispatch.p = some 0
  init : (s.kernel.proc 0).killed = false ∧ (s.kernel.proc 0).state = .RUNNING
  child : (s.kernel.proc 1).state = .RUNNABLE ∧ (s.kernel.proc 1).lastTick = 0 ∧
    (s.kernel.proc 1).priority = 3
  idle : (s.kernel.cpu 0).current = none
  awake : ∀ p, (s.kernel.proc p).state ≠ .SLEEPING

theorem exists_ninetyNine : ∃ s, NinetyNine s := by
  have hall : ((play clockStep hundredTicks { kernel := userinit }).map fun s =>
      decide (s.now = 0 ∧ s.kernel.ticks = 0 ∧ s.kernel.starvTicks = 99 ∧
        (s.kernel.cpu 1).current.map Dispatch.p = some 0 ∧
        ((s.kernel.proc 0).killed = false ∧ (s.kernel.proc 0).state = .RUNNING) ∧
        ((s.kernel.proc 1).state = .RUNNABLE ∧ (s.kernel.proc 1).lastTick = 0 ∧
          (s.kernel.proc 1).priority = 3) ∧
        (s.kernel.cpu 0).current.map Dispatch.p = none ∧
        ∀ p, (s.kernel.proc p).state ≠ .SLEEPING)) = some true := by decide +kernel
  obtain ⟨s, hs, hvals⟩ := Option.map_eq_some_iff.mp hall
  obtain ⟨hnow, hticks, hstarv, hrunning, hinit, hchild, hidle, hawake⟩ := of_decide_eq_true hvals
  exact ⟨s, hs, hnow, hticks, hstarv, hrunning, hinit, hchild, Option.map_eq_none_iff.mp hidle, hawake⟩

theorem NinetyNine.inv {s : Clocked} (h : NinetyNine s) : Inv s.kernel := by
  have hplay : PlayOk clockStep (fun s a => ForksUnqueued s.kernel a) hundredTicks
      { kernel := userinit } := by
    have hfork : ∀ t ∈ clockStep { kernel := userinit } (.dispatch 1),
        ForksUnqueued t.kernel (.fork 1 true true) := by decide +kernel
    refine ⟨trivial, fun t ht => ⟨hfork t ht, fun u _ => playOk_of_forall (fun a ha s => ?_) u⟩⟩
    obtain ⟨l, hl, ha⟩ := List.mem_flatten.mp ha
    rw [List.eq_of_mem_replicate hl] at ha
    rcases List.mem_cons.mp ha with rfl | ha
    · trivial
    · rw [List.mem_singleton.mp ha]
      trivial
  exact (Run.of_playOk hplay h.play).invariant (P := fun s => Inv s.kernel) userinit_inv
    fun t a u hi hok hu => by
      obtain ⟨k, hk, rfl⟩ := Option.map_eq_some_iff.mp hu
      exact step_inv hi hok hk

/-- The hundredth check, when the clock shows anything: it raises the child if `now - 100` is not 0. -/
theorem NinetyNine.check {s : Clocked} {k : Kernel} (h : NinetyNine s) (hproc : k.proc = s.kernel.proc)
    (hcpu : k.cpu = s.kernel.cpu) (hcount : k.starvTicks = 99)
    (hnow : 0 < (k.ticks + 2 ^ 32 - 100) % 2 ^ 32) :
    ∃ v, atCheck k 1 true = some v ∧ v.ticks = k.ticks ∧ (v.proc 1).priority = 3 ∧
      ((starvationCheck v).proc 1).priority = 2 := by
  obtain ⟨d, hd, hp⟩ := Option.map_eq_some_iff.mp h.running
  obtain ⟨hstate, hlast, hprio⟩ := h.child
  rw [← hproc] at hstate hlast hprio
  have hcheck : atCheck k 1 true = some (account k 0) := by
    simp only [atCheck, if_neg Nat.one_ne_zero, hcpu, hd, hp, hproc, h.init.1, h.init.2]
    simp
  have hothers : ∀ q, q ≠ 0 → (account k 0).proc q = k.proc q := fun q hq => setProc_of_ne hq
  have hchild := hothers 1 (by decide)
  have hstarv : (account k 0).starvTicks = 100 := by
    show (k.starvTicks + 1) % 2 ^ 32 = 100
    omega
  have hstarved : Starved (account k 0).ticks (k.proc 1) :=
    ⟨hstate, by rw [hlast]; exact hnow, by rw [hprio]; decide⟩
  refine ⟨account k 0, hcheck, rfl, by rw [hchild, hprio], ?_⟩
  rw [starvationCheck_proc hstarv, hchild, if_pos hstarved]
  show (k.proc 1).priority - 1 = 2
  rw [hprio]

/-- A clock that ticks while the first CPU has no process changes nothing else, as long as nobody
sleeps on it. -/
theorem play_idle {s : Clocked} (hidle : (s.kernel.cpu 0).current = none)
    (hawake : ∀ p, (s.kernel.proc p).state ≠ .SLEEPING) (n : ℕ) (hn : s.kernel.ticks + n < 2 ^ 32) :
    ∃ t, play clockStep (List.replicate n (.timer 0 true)) s = some t ∧
      t.kernel = { s.kernel with ticks := s.kernel.ticks + n } ∧ t.now = s.now + n := by
  induction n with
  | zero => exact ⟨s, rfl, rfl, rfl⟩
  | succ n ih =>
      obtain ⟨t, ht, hkernel, hnow⟩ := ih (by omega)
      have hproc : ∀ p, (if (s.kernel.proc p).state = .SLEEPING ∧ (s.kernel.proc p).chan = some .ticks
          then { s.kernel.proc p with state := .RUNNABLE } else s.kernel.proc p) = s.kernel.proc p :=
        fun p => if_neg fun h => hawake p h.1
      have hmod : (s.kernel.ticks + n + 1) % 2 ^ 32 = s.kernel.ticks + (n + 1) :=
        Nat.mod_eq_of_lt (by omega)
      have htimer : timer t.kernel 0 true =
          some { s.kernel with ticks := s.kernel.ticks + (n + 1) } := by
        simp only [timer, hkernel, if_true, wakeup1, hmod, hproc, hidle]
      refine ⟨{ kernel := { s.kernel with ticks := s.kernel.ticks + (n + 1) }
                now := t.now + 1
                since := t.since }, ?_, rfl, by rw [hnow, Nat.add_assoc]⟩
      rw [List.replicate_succ', play_append, ht, Option.bind_some]
      simp only [play, clockStep, step, htimer]
      rfl

/-- The hundredth tick comes when the child has been waiting for 201 ticks of the clock, and raises
the child. -/
theorem boost_right_hundredth : ∃ s v, Run clockStep (fun _ _ => True) { kernel := userinit } s ∧
    atCheck s.kernel 1 true = some v ∧ (v.proc 1).priority = 3 ∧
      ((starvationCheck v).proc 1).priority = 2 ∧ BoostRight v s.now s.since := by
  obtain ⟨s, h⟩ := exists_ninetyNine
  obtain ⟨t, ht, hkernel, -⟩ := play_idle h.idle h.awake 201 (by rw [h.ticks]; decide)
  rw [h.ticks, Nat.zero_add] at hkernel
  have hrun := (Run.of_play h.play).trans (Run.of_play ht)
  have hclock : t.kernel.ticks = 201 := by rw [hkernel]
  obtain ⟨v, hv, hticks, hbefore, hafter⟩ := h.check (k := t.kernel) (by rw [hkernel]) (by rw [hkernel])
    (by rw [hkernel]; exact h.starv) (by rw [hclock]; decide)
  have hinv : Inv t.kernel := by
    rw [hkernel]
    exact ⟨h.inv.single, h.inv.row, h.inv.live, h.inv.current, h.inv.apart, h.inv.lastRR⟩
  refine ⟨t, v, hrun, hv, hbefore, hafter, (boost_right_iff hrun hinv.single hv).mpr ?_⟩
  exact checkedLate_of_inv hinv hv (by rw [hticks, hclock]; decide) _

/-- The child is raised, although not one tick of the clock has passed since it ran. -/
theorem boosted_at_once : ∃ s v, Run clockStep (fun _ _ => True) { kernel := userinit } s ∧
    Single IsSlot s.kernel.queues ∧ (∀ p, Live (s.kernel.proc p) → QueuedOnce s.kernel p) ∧
      atCheck s.kernel 1 true = some v ∧ ¬ BoostRight v s.now s.since := by
  obtain ⟨s, h⟩ := exists_ninetyNine
  obtain ⟨v, hv, -, hbefore, hafter⟩ := h.check (k := s.kernel) rfl rfl h.starv (by rw [h.ticks]; decide)
  refine ⟨s, v, .of_play h.play, h.inv.single, fun p hp => h.inv.queuedOnce hp, hv, fun hright => ?_⟩
  have hraised := hright 1
  rw [if_neg (by rw [hbefore, hafter]; decide)] at hraised
  have hstarved := hraised.starved
  rw [h.now] at hstarved
  exact Nat.not_lt_zero _ hstarved

end IntroToOS.Mlfq

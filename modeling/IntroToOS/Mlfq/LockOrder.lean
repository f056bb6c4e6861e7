import IntroToOS.Mlfq.Machine

/-! # Lock order in Project2b

The timer branch of `trap` and `sleep(&ticks, &tickslock)` take `ptable.lock` while they hold
`tickslock`; `scheduler` and the starvation check call `sys_uptime`, which takes `tickslock`, while
they hold `ptable.lock`. On two CPUs the two orders meet in a deadlock. With one CPU both locks are
held by the same CPU, if at all.
-/

namespace IntroToOS.Mlfq.Smp
open Lib
set_option autoImplicit false

/-- A lock as the argument of `acquire`. -/
def Op.acquires : Op → Option Lk
  | .acquire => some .ptable
  | .acquireTicks => some .tickslock
  | _ => none

def SchedPc.acquires : SchedPc → Option Lk
  | .loop => some .ptable
  | .uptime _ => some .tickslock
  | _ => none

/-- The lock that the next operation of CPU `c` acquires. -/
def Machine.acquires (m : Machine) (c : ℕ) : Option Lk :=
  match m.stack c with
  | some p => (m.code p).head?.bind Op.acquires
  | none =>
    match m.intr c with
    | [] => (m.sched c).acquires
    | op :: _ => op.acquires

/-- One CPU holds `tickslock` and spins for `ptable.lock`, another holds `ptable.lock` and spins
for `tickslock`. -/
def Machine.Deadlocked (m : Machine) : Prop :=
  ∃ c c', c ≠ c' ∧ (m.ticksLock = some c ∧ m.acquires c = some .ptable) ∧
    (m.lock = some c' ∧ m.acquires c' = some .tickslock)

/-- CPU `c` took a lock, gave one up, or left both as they are. -/
def Takes (m m' : Machine) (c : ℕ) : Prop :=
  (m'.lock = m.lock ∨ m'.lock = none ∨ m'.lock = some c) ∧
    (m'.ticksLock = m.ticksLock ∨ m'.ticksLock = none ∨ m'.ticksLock = some c)

section
variable {m m' : Machine} {c : ℕ} {p : ProcId} {ok : Bool} {op : Op} {l : List Op}

theorem Takes.same (hl : m'.lock = m.lock) (ht : m'.ticksLock = m.ticksLock) : Takes m m' c :=
  ⟨.inl hl, .inl ht⟩

theorem execShared_takes (he : execShared m c op = some m') : Takes m m' c := by
  cases op with
  | acquire =>
      obtain ⟨-, he⟩ := Option.ite_none_right_eq_some.mp he
      obtain rfl := Option.some.inj he
      exact ⟨.inr (.inr rfl), .inl rfl⟩
  | release =>
      obtain ⟨-, he⟩ := Option.ite_none_right_eq_some.mp he
      obtain rfl := Option.some.inj he
      exact ⟨.inr (.inl rfl), .inl rfl⟩
  | acquireTicks =>
      obtain ⟨-, he⟩ := Option.ite_none_right_eq_some.mp he
      obtain rfl := Option.some.inj he
      exact ⟨.inl rfl, .inr (.inr rfl)⟩
  | releaseTicks =>
      obtain ⟨-, he⟩ := Option.ite_none_right_eq_some.mp he
      obtain rfl := Option.some.inj he
      exact ⟨.inl rfl, .inr (.inl rfl)⟩
  | tick =>
      obtain rfl := Option.some.inj he
      exact .same rfl rfl
  | wakeup1 chan =>
      obtain rfl := Option.some.inj he
      exact .same rfl rfl
  | _ => cases he

theorem execIdle_takes (he : execIdle m c op l = some m') : Takes m m' c := by
  unfold execIdle at he
  split at he
  · obtain rfl := Option.some.inj he
    exact .same rfl rfl
  · obtain rfl := Option.some.inj he
    exact .same rfl rfl
  · obtain ⟨n, hn, rfl⟩ := Option.map_eq_some_iff.mp he
    have htakes : Takes m n c := execShared_takes hn
    exact htakes

/-- Only the operations of `execShared` touch the locks. -/
theorem exec_takes (he : exec m c p ok op l = some m') : Takes m m' c := by
  have hshared : (execShared m c op).map (fun m => m.setCode p l) = some m' → Takes m m' c := by
    intro he
    obtain ⟨n, hn, rfl⟩ := Option.map_eq_some_iff.mp he
    have htakes : Takes m n c := execShared_takes hn
    exact htakes
  have hsame : ∀ n, some n = some m' → n.lock = m.lock → n.ticksLock = m.ticksLock →
      Takes m m' c := by
    intro n he hl ht
    obtain rfl := Option.some.inj he
    exact .same hl ht
  have hnext : ∀ k l', some (m.next p k l') = some m' → Takes m m' c :=
    fun k l' he => hsame _ he rfl rfl
  cases op with
  | acquire => exact hshared he
  | release => exact hshared he
  | acquireTicks => exact hshared he
  | releaseTicks => exact hshared he
  | tick => exact hshared he
  | wakeup1 chan => exact hshared he
  | sched =>
      obtain ⟨-, he⟩ := Option.ite_none_right_eq_some.mp he
      exact hsame _ he rfl rfl
  | zombieExit => cases he
  | checkInit =>
      obtain ⟨-, he⟩ := Option.ite_none_left_eq_some.mp he
      exact hnext _ _ he
  | orphan =>
      obtain ⟨init, -, he⟩ := Option.map_eq_some_iff.mp he
      exact hnext _ _ (congrArg some he)
  | kfree q => exact hsame _ he rfl rfl
  | freevm q => exact hsame _ he rfl rfl
  | kalloc np =>
      simp only [exec] at he
      split at he <;> exact hsame _ he rfl rfl
  | copyuvm np =>
      simp only [exec] at he
      split at he <;> exact hsame _ he rfl rfl
  | charge =>
      simp only [exec] at he
      split at he <;> exact hnext _ _ he
  | starvation =>
      simp only [exec] at he
      split at he <;> exact hnext _ _ he
  | scanChildren =>
      simp only [exec] at he
      split at he
      · exact hnext _ _ he
      · split at he <;> exact hnext _ _ he
  | allocproc i =>
      simp only [exec] at he
      split at he
      · split at he <;> exact hnext _ _ he
      · exact hnext _ _ he
  | insert np i =>
      simp only [exec] at he
      split at he
      · split at he <;> exact hnext _ _ he
      · exact hnext _ _ he
  | sleepWhile n ticks0 =>
      simp only [exec] at he
      split at he
      · split at he <;> exact hnext _ _ he
      · exact hnext _ _ he
  | _ => exact hnext _ _ he

theorem schedStep_takes (he : schedStep m c = some m') : Takes m m' c := by
  simp only [schedStep] at he
  split at he
  · obtain ⟨-, he⟩ := Option.ite_none_right_eq_some.mp he
    obtain rfl := Option.some.inj he
    exact ⟨.inr (.inr rfl), .inl rfl⟩
  · obtain rfl := Option.some.inj he
    exact .same rfl rfl
  · split at he
    · obtain rfl := Option.some.inj he
      exact .same rfl rfl
    · split at he
      · obtain rfl := Option.some.inj he
        exact .same rfl rfl
      · split at he <;> (obtain rfl := Option.some.inj he; exact .same rfl rfl)
  · obtain rfl := Option.some.inj he
    exact .same rfl rfl
  · obtain ⟨-, he⟩ := Option.ite_none_right_eq_some.mp he
    obtain rfl := Option.some.inj he
    exact ⟨.inl rfl, .inr (.inr rfl)⟩
  · obtain rfl := Option.some.inj he
    exact .same rfl rfl
  · obtain ⟨-, he⟩ := Option.ite_none_right_eq_some.mp he
    obtain rfl := Option.some.inj he
    exact ⟨.inl rfl, .inr (.inl rfl)⟩
  · obtain rfl := Option.some.inj he
    exact .same rfl rfl
  · obtain rfl := Option.some.inj he
    exact .same rfl rfl
  · obtain rfl := Option.some.inj he
    exact .same rfl rfl
  · obtain ⟨-, he⟩ := Option.ite_none_right_eq_some.mp he
    obtain rfl := Option.some.inj he
    exact ⟨.inr (.inl rfl), .inl rfl⟩

theorem step_takes {a : Label} (hs : step m a = some m') : Takes m m' a.cpu := by
  cases a with
  | go c ok =>
      simp only [step] at hs
      split at hs
      · split at hs
        · cases hs
        · exact exec_takes hs
      · split at hs
        · exact schedStep_takes hs
        · exact execIdle_takes hs
  | interrupt c i =>
      simp only [step] at hs
      split at hs
      · cases hs
      · split at hs <;> (obtain rfl := Option.some.inj hs; exact .same rfl rfl)
  | call c s =>
      simp only [step] at hs
      split at hs
      · obtain ⟨-, hs⟩ := Option.ite_none_right_eq_some.mp hs
        obtain rfl := Option.some.inj hs
        exact .same rfl rfl
      · cases hs

/-- Only the CPUs of the machine hold locks. -/
def HeldBelow (n : ℕ) (m : Machine) : Prop :=
  (∀ c, m.lock = some c → c < n) ∧ ∀ c, m.ticksLock = some c → c < n

theorem Takes.heldBelow {n : ℕ} (h : Takes m m' c) (hm : HeldBelow n m) (hc : c < n) :
    HeldBelow n m' := by
  have hone : ∀ {o o' : Option ℕ}, (o' = o ∨ o' = none ∨ o' = some c) → (∀ x, o = some x → x < n) →
      ∀ x, o' = some x → x < n := by
    intro o o' ho hlt x hx
    rcases ho with rfl | rfl | rfl
    · exact hlt x hx
    · cases hx
    · obtain rfl := Option.some.inj hx
      exact hc
  exact ⟨hone h.1 hm.1, hone h.2 hm.2⟩

/-- A CPU with a lock that is about to acquire a lock held elsewhere makes no step. -/
theorem step_eq_none {a : Label} (hheld : m.lock = some a.cpu ∨ m.ticksLock = some a.cpu)
    (hspin : m.acquires a.cpu = some .ptable ∧ m.lock ≠ none ∨
      m.acquires a.cpu = some .tickslock ∧ m.ticksLock ≠ none) : step m a = none := by
  cases a with
  | go c ok =>
      simp only [Label.cpu] at hheld hspin
      unfold Machine.acquires at hspin
      simp only [step]
      cases hs : m.stack c with
      | some p =>
          cases hcode : m.code p with
          | nil => simp [hcode]
          | cons op l =>
              cases op <;> simp_all [Op.acquires, exec, execShared]
      | none =>
          cases hi : m.intr c with
          | nil => cases hpc : m.sched c <;> simp_all [SchedPc.acquires, schedStep]
          | cons op l => cases op <;> simp_all [Op.acquires, execIdle, execShared]
  | interrupt c i => exact if_pos hheld
  | call c s =>
      simp only [Label.cpu] at hspin
      unfold Machine.acquires at hspin
      simp only [step]
      cases hs : m.stack c with
      | some p =>
          have hne : m.code p ≠ [] := by
            intro hnil
            simp [hs, hnil] at hspin
          simp [hne]
      | none => rfl

/-- Neither CPU of a deadlock makes a step. -/
theorem Machine.Deadlocked.stuck (h : m.Deadlocked) :
    ∃ c c', c ≠ c' ∧ ∀ a : Label, a.cpu = c ∨ a.cpu = c' → step m a = none := by
  obtain ⟨c, c', hne, ⟨ht, ha⟩, hl, ha'⟩ := h
  refine ⟨c, c', hne, fun a hcpu => ?_⟩
  rcases hcpu with rfl | rfl
  · exact step_eq_none (.inr ht) (.inl ⟨ha, by simp [hl]⟩)
  · exact step_eq_none (.inl hl) (.inr ⟨ha', by simp [ht]⟩)

end

/-! ## The deadlock -/

/-- CPU 1 dispatches init and is about to read the clock; a timer interrupt on CPU 0 is about to
wake up the sleepers. -/
def deadlockRun : List Label :=
  [.go 1 true, .go 1 true, .go 1 true, .interrupt 0 .timer, .go 0 true, .go 0 true]

theorem deadlockRun_spec : ∃ m,
    Run step (fun _ a => a.cpu < 2) (boot userinit.queues) m ∧ m.Deadlocked := by
  have hend : ((play step deadlockRun (boot userinit.queues)).map fun m =>
      ((m.ticksLock, m.acquires 0), m.lock, m.acquires 1)) =
        some ((some 0, some .ptable), some 1, some .tickslock) := by
    decide +kernel
  obtain ⟨m, hm, he⟩ := Option.map_eq_some_iff.mp hend
  obtain ⟨h0, h1⟩ := Prod.mk.inj he
  have hok : PlayOk step (fun _ a => a.cpu < 2) deadlockRun (boot userinit.queues) := by
    decide +kernel
  exact ⟨m, .of_playOk hok hm, 0, 1, by decide, Prod.mk.inj h0, Prod.mk.inj h1⟩

/-- The deadlock is unreachable exactly when the kernel runs on one CPU. -/
theorem no_deadlock_iff (ncpu : ℕ) :
    (∀ m, Run step (fun _ a => a.cpu < ncpu) (boot userinit.queues) m → ¬ m.Deadlocked) ↔
      ncpu ≤ 1 := by
  constructor
  · intro h
    by_contra hlt
    obtain ⟨m, hrun, hdead⟩ := deadlockRun_spec
    exact h m (hrun.mono fun _ a ha => by omega) hdead
  · rintro hle m hrun ⟨c, c', hne, ⟨ht, -⟩, hl, -⟩
    have hheld : HeldBelow ncpu m := by
      refine hrun.invariant ⟨?_, ?_⟩ fun t a u hi hok hs => (step_takes hs).heldBelow hi hok
      · intro x hx
        cases hx
      · intro x hx
        cases hx
    have hc := hheld.2 c ht
    have hc' := hheld.1 c' hl
    omega

/-- Two CPUs are enough for the deadlock, and then both of them stand still. -/
theorem two_cpus_deadlock : ∃ m,
    Run step (fun _ a => a.cpu < 2) (boot userinit.queues) m ∧ m.Deadlocked ∧
      ∃ c c', c ≠ c' ∧ ∀ a : Label, a.cpu = c ∨ a.cpu = c' → step m a = none := by
  obtain ⟨m, hrun, hdead⟩ := deadlockRun_spec
  exact ⟨m, hrun, hdead, hdead.stuck⟩

end IntroToOS.Mlfq.Smp

import IntroToOS.Mlfq.Machine

/-! # The hand-over of the lock in Project2b

`Inv` ties the lock, the stacks, the `proc` of each CPU and the process states together. What a
process has left to do is well formed for the lock status of its CPU (`Code`): every list of
operations takes and releases `ptable.lock` alternately, and a state is given up right before
`sched`. So a process that is on no CPU waits at a place where the lock is held (`Parked`), which
is what lets `swtch` hand the lock over. Nothing in `Inv` mentions the queues.
-/

namespace IntroToOS.Mlfq.Smp
open Lib
set_option autoImplicit false

/-! ## Well-formed code -/

/-- The process a step of `fork` after `allocproc` works on. -/
def Op.child : Op → Option ProcId
  | .kalloc np | .copyuvm np | .insert np _ | .store np _ | .link np | .publish np => some np
  | _ => none

/-- The same after the kernel stack is set up. -/
def Op.prepared : Op → Option ProcId
  | .kalloc _ => none
  | op => op.child

/-- The process a step of `wait` is reaping. -/
def Op.reaped : Op → Option ProcId
  | .kfree q | .freevm q | .clear q => some q
  | _ => none

/-- Where a process that gave the CPU up, or a new one, goes on. -/
def Op.Resumes : Op → Prop
  | .release => True
  | .setChan _ => True
  | .zombieExit => True
  | _ => False

/-- The status of `ptable.lock` on the CPU after an operation, given the status before it. -/
def Op.status : Op → Bool → Option Bool
  | .acquire, false => some true
  | .release, true => some false
  | .acquireTicks, b => some b
  | .releaseTicks, b => some b
  | .tick, false => some false
  | .checkKilled _, false => some false
  | .charge, false => some false
  | .checkInit, false => some false
  | .sleepStart _, false => some false
  | .sleepWhile _ _, false => some false
  | .wakeup1 _, true => some true
  | .setChan _, true => some true
  | .kill _, true => some true
  | .starvation, true => some true
  | .now, true => some true
  | .boostAll _, true => some true
  | .orphan, true => some true
  | _, _ => none

/-- The last operations of a system call, which put what follows in their own place. -/
def Op.final : Op → Bool → Prop
  | .zombieExit, b => b = true
  | .scanChildren, b => b = true
  | .allocproc _, b => b = true
  | .kalloc _, b => b = false
  | .copyuvm _, b => b = false
  | .insert _ _, b => b = false
  | .store _ _, b => b = false
  | .link _, b => b = false
  | .publish _, b => b = false
  | _, _ => False

def Departs (st : ProcState) : Prop := st = .RUNNABLE ∨ st = .SLEEPING ∨ st = .ZOMBIE

/-- Code that runs with `ptable.lock` in status `b` at its start. -/
inductive Code : Bool → List Op → Prop
  | done : Code false []
  | step {b b' : Bool} {op : Op} {l : List Op} : op.status b = some b' → Code b' l → Code b (op :: l)
  | final {b : Bool} {op : Op} : op.final b → Code b [op]
  | depart {st : ProcState} {op : Op} {l : List Op} : Departs st → op.Resumes → Code true (op :: l) →
      Code true (.setState st :: .sched :: op :: l)

/-- The code of a process that runs: a step of `wait` that reaps stands alone. -/
def Runs (b : Bool) (l : List Op) : Prop :=
  Code b l ∨ b = true ∧ ∃ op q, op.reaped = some q ∧ l = [op]

/-- What is left to do for a process that waits for a CPU. -/
def Parked (l : List Op) : Prop := ∃ op l', l = op :: l' ∧ op.Resumes ∧ Code true l

/-- The code creates or prepares the process `np`. -/
def Owns (l : List Op) (np : ProcId) : Prop := ∃ op ∈ l, op.child = some np

def Prepared (l : List Op) (np : ProcId) : Prop := ∃ op ∈ l, op.prepared = some np

theorem Prepared.owns {l : List Op} {np : ProcId} (h : Prepared l np) : Owns l np := by
  obtain ⟨op, hop, hc⟩ := h
  refine ⟨op, hop, ?_⟩
  cases op <;> simp_all [Op.prepared, Op.child]

theorem Code.reaped_eq_none {b : Bool} {op : Op} {l : List Op} (h : Code b (op :: l)) :
    op.reaped = none := by
  cases h with
  | step hs _ => cases op <;> simp_all [Op.status, Op.reaped]
  | final hf => cases op <;> simp_all [Op.final, Op.reaped]
  | depart => rfl

/-- The operation leaves the lock alone. -/
def Op.neutral (op : Op) : Bool := op.status false = some false || op.status true = some true

theorem Code.same {b : Bool} {op : Op} {l : List Op} (h : Code b (op :: l))
    (hn : op.neutral = true) : Code b l := by
  cases h with
  | @step _ b' _ _ hs hl =>
      have hb : b' = b := by cases op <;> cases b <;> simp_all [Op.neutral, Op.status]
      rwa [← hb]
  | final hf => cases op <;> simp_all [Op.neutral, Op.status, Op.final]
  | depart => cases hn

/-- An operation that needs the lock shows that it is held. -/
theorem Code.locked_inv {b : Bool} {op : Op} {l : List Op} (h : Code b (op :: l))
    (hn : op.neutral = true) (hs : op.status false = none) : b = true ∧ Code true l := by
  have hl := h.same hn
  cases b with
  | true => exact ⟨rfl, hl⟩
  | false =>
      cases h with
      | step hs' _ => cases hs.symm.trans hs'
      | final hf => cases op <;> simp_all [Op.neutral, Op.status, Op.final]

/-- An operation that is made without the lock shows that it is not held. -/
theorem Code.unlocked_inv {b : Bool} {op : Op} {l : List Op} (h : Code b (op :: l))
    (hn : op.neutral = true) (hs : op.status true = none) : b = false ∧ Code false l := by
  have hl := h.same hn
  cases b with
  | false => exact ⟨rfl, hl⟩
  | true =>
      cases h with
      | step hs' _ => cases hs.symm.trans hs'
      | final hf => cases op <;> simp_all [Op.neutral, Op.status, Op.final]
      | depart => cases hn

theorem Code.final_inv {b : Bool} {op : Op} {l : List Op} (h : Code b (op :: l))
    (hn : ∀ b, op.status b = none) (hst : ∀ st, op ≠ .setState st) : op.final b ∧ l = [] := by
  cases h with
  | step hs _ => cases hs.symm.trans (hn _)
  | final hf => exact ⟨hf, rfl⟩
  | depart => exact absurd rfl (hst _)

theorem Code.acquire_inv {b : Bool} {l : List Op} (h : Code b (.acquire :: l)) :
    b = false ∧ Code true l := by
  cases h with
  | step hs hl => cases b <;> simp_all [Op.status]
  | final hf => cases hf

theorem Code.release_inv {b : Bool} {l : List Op} (h : Code b (.release :: l)) :
    b = true ∧ Code false l := by
  cases h with
  | step hs hl => cases b <;> simp_all [Op.status]
  | final hf => cases hf

theorem Code.depart_inv {b : Bool} {st : ProcState} {l : List Op} (h : Code b (.setState st :: l)) :
    b = true ∧ Departs st ∧ ∃ l', l = .sched :: l' ∧ Parked l' := by
  cases h with
  | step hs _ => cases hs
  | final hf => cases hf
  | depart hd hop hl => exact ⟨rfl, hd, _, rfl, _, _, rfl, hop, hl⟩

theorem code_forkret : Code true forkret := .step rfl .done

theorem parked_forkret : Parked forkret := ⟨.release, [], rfl, trivial, code_forkret⟩

theorem code_wakeup {l : List Op} (chan : Chan) (h : Code false l) : Code false (wakeup chan ++ l) :=
  .step rfl (.step rfl (.step rfl h))

theorem code_yield {l : List Op} (h : Code false l) : Code false (yield ++ l) :=
  .step rfl (.depart (.inl rfl) trivial (.step rfl h))

theorem code_exit : Code false exit :=
  .step rfl (.step rfl (.step rfl (.depart (.inr (.inr rfl)) trivial (.final rfl))))

theorem code_timer {l : List Op} (c : ℕ) (user : Bool) (h : Code false l) :
    Code false (timer c user ++ l) := by
  have htail : Code false ([.checkKilled user, .charge, .checkKilled user] ++ l) :=
    .step rfl (.step rfl (.step rfl h))
  unfold timer
  by_cases hc : c = 0
  · rw [if_pos hc]
    exact .step rfl (.step rfl (.step rfl (.step rfl (.step rfl (.step rfl htail)))))
  · rw [if_neg hc]
    exact htail

theorem code_interrupt {l : List Op} (c : ℕ) (user : Bool) (i : Interrupt) (h : Code false l) :
    Code false (i.code c user ++ l) := by
  cases i with
  | timer => exact code_timer c user h
  | wakeup chan => exact code_wakeup chan h

theorem code_call (s : Call) : Code false s.code := by
  cases s with
  | fork => exact .step rfl (.final rfl)
  | exit => exact code_exit
  | wait => exact .step rfl (.final rfl)
  | kill pid => exact .step rfl (.step rfl (.step rfl .done))
  | sleep chan =>
      exact .step rfl (.step rfl (.depart (.inr (.inl rfl)) trivial
        (.step rfl (.step rfl .done))))
  | sys_sleep n => exact .step rfl (.step rfl .done)
  | sys_uptime => exact .step rfl (.step rfl .done)

theorem interrupt_child (c : ℕ) (user : Bool) (i : Interrupt) :
    ∀ o ∈ i.code c user, o.child = none := by
  cases i with
  | timer =>
      by_cases hc : c = 0 <;> simp [Interrupt.code, timer, wakeup, hc, Op.child]
  | wakeup chan => simp [Interrupt.code, wakeup, Op.child]

theorem call_child (s : Call) : ∀ o ∈ s.code, o.child = none := by
  cases s <;> simp [Call.code, fork, exit, wait, kill, sleep, goToSleep, sys_sleep, sys_uptime, Op.child]

/-! ## The invariant -/

/-- Where the `scheduler` of a CPU holds `ptable.lock`. -/
def SchedPc.locked : SchedPc → Bool
  | .loop => false
  | _ => true

/-- A CPU on the stack of its `scheduler`: `proc` and `cr3` are those of the process it has
chosen, whose state goes from RUNNABLE to RUNNING. -/
def SchedOk (st : ProcId → ProcState) (cur : Option Dispatch) (cr3 : Option ProcId) : SchedPc → Prop
  | .run d => cur = some d ∧ cr3 = some d.p ∧ st d.p = .RUNNABLE
  | .uptime d | .uptimeRead d | .uptimeDone d _ | .swtch d =>
    cur = some d ∧ cr3 = some d.p ∧ st d.p = .RUNNING
  | .back d => cur = some d ∧ cr3 = some d.p ∧ st d.p ≠ .RUNNING
  | .after d => cur = some d ∧ cr3 = none ∧ st d.p ≠ .RUNNING
  | _ => cur = none ∧ cr3 = none

/-- A CPU on the stack of `p` runs `p`, or `p` has given its state up and is about to `sched`. -/
def ProcOk (locked : Bool) (st : ProcState) (l : List Op) : Prop :=
  st = .RUNNING ∧ Runs locked l ∨ ∃ l', l = .sched :: l' ∧ locked = true ∧ Departs st ∧ Parked l'

/-- Every process in the making is EMBRYO and belongs to one `fork`. -/
structure Ownership (st : ProcId → ProcState) (code : ProcId → List Op) : Prop where
  owned : ∀ p np, Owns (code p) np → st np = .EMBRYO
  once : ∀ p p' np, Owns (code p) np → Owns (code p') np → p = p'
  ready : ∀ p np, Prepared (code p) np → code np = forkret

structure Inv (lock : Option ℕ) (stack cr3 : ℕ → Option ProcId) (sched : ℕ → SchedPc)
    (intr : ℕ → List Op) (cur : ℕ → Option Dispatch) (st : ProcId → ProcState)
    (code : ProcId → List Op) : Prop where
  idle : ∀ c, stack c = none → SchedOk st (cur c) (cr3 c) (sched c)
  locked : ∀ c, stack c = none → sched c ≠ .loop → intr c = [] ∧ lock = some c
  unlocked : ∀ c, stack c = none → sched c = .loop → Code (decide (lock = some c)) (intr c)
  busy : ∀ c p, stack c = some p →
    ∃ d, d.p = p ∧ sched c = .back d ∧ cur c = some d ∧ cr3 c = some p ∧ intr c = []
  proc : ∀ c p, stack c = some p → ProcOk (decide (lock = some c)) (st p) (code p)
  unique : ∀ c c' d d', cur c = some d → cur c' = some d' → d.p = d'.p → c = c'
  running : ∀ p, st p = .RUNNING → ∃ c d, cur c = some d ∧ d.p = p
  parked : ∀ p, (∀ c, stack c ≠ some p) → st p ≠ .UNUSED → st p ≠ .EMBRYO → Parked (code p)
  own : Ownership st code
  reaped : ∀ c p q op l, stack c = some p → code p = op :: l → op.reaped = some q → st q = .ZOMBIE

section
variable {lock : Option ℕ} {stack cr3 : ℕ → Option ProcId} {sched : ℕ → SchedPc}
  {lock' : Option ℕ} {intr : ℕ → List Op} {cur : ℕ → Option Dispatch} {st st' : ProcId → ProcState}
  {code : ProcId → List Op} {c c' : ℕ} {p x : ProcId} {d : Dispatch} {l : List Op}

/-- Two states that are the same for a CPU that has chosen the process. -/
def SameFor (a b : ProcState) : Prop := (a = .RUNNABLE → b = .RUNNABLE) ∧ (a = .RUNNING ↔ b = .RUNNING)

theorem SameFor.rfl (a : ProcState) : SameFor a a := ⟨id, Iff.rfl⟩

theorem SchedOk.mono {r : Option ProcId} {o : Option Dispatch} {pc : SchedPc}
    (h : SchedOk st o r pc) (hst : ∀ d, o = some d → SameFor (st d.p) (st' d.p)) :
    SchedOk st' o r pc := by
  cases pc with
  | run d => exact ⟨h.1, h.2.1, (hst d h.1).1 h.2.2⟩
  | uptime d => exact ⟨h.1, h.2.1, (hst d h.1).2.mp h.2.2⟩
  | uptimeRead d => exact ⟨h.1, h.2.1, (hst d h.1).2.mp h.2.2⟩
  | uptimeDone d n => exact ⟨h.1, h.2.1, (hst d h.1).2.mp h.2.2⟩
  | swtch d => exact ⟨h.1, h.2.1, (hst d h.1).2.mp h.2.2⟩
  | back d => exact ⟨h.1, h.2.1, fun hr => h.2.2 ((hst d h.1).2.mpr hr)⟩
  | after d => exact ⟨h.1, h.2.1, fun hr => h.2.2 ((hst d h.1).2.mpr hr)⟩
  | loop => exact h
  | scan rest => exact h
  | release => exact h

theorem SchedOk.of_cr3 {r : Option ProcId} {o : Option Dispatch} {pc : SchedPc} {q : ProcId}
    (h : SchedOk st o r pc) (hq : r = some q) : ∃ d, o = some d ∧ d.p = q := by
  cases pc <;> simp_all [SchedOk]

/-- Nothing but sleeping processes has changed, and those may have become RUNNABLE. -/
def Woken (st st' : ProcId → ProcState) : Prop :=
  ∀ x, st' x = st x ∨ st x = .SLEEPING ∧ st' x = .RUNNABLE

theorem Woken.rfl (st : ProcId → ProcState) : Woken st st := fun _ => .inl (Eq.refl _)

theorem Woken.trans {st'' : ProcId → ProcState} (h : Woken st st') (h' : Woken st' st'') :
    Woken st st'' := by
  intro x
  rcases h' x with he | ⟨hs, hr⟩
  · rw [he]
    exact h x
  · rcases h x with he | ⟨-, he⟩
    · exact .inr ⟨he ▸ hs, hr⟩
    · cases hs.symm.trans he

theorem Woken.keep (h : Woken st st') {s : ProcState} (hs : s ≠ .SLEEPING) (hx : st x = s) :
    st' x = s := by
  rcases h x with he | ⟨he, -⟩
  · exact he.trans hx
  · exact absurd (hx.symm.trans he) hs

theorem Woken.back (h : Woken st st') {s : ProcState} (hs : s ≠ .RUNNABLE) (hx : st' x = s) :
    st x = s := by
  rcases h x with he | ⟨-, he⟩
  · exact he.symm.trans hx
  · exact absurd (hx.symm.trans he) hs

theorem Woken.sameFor (h : Woken st st') (x : ProcId) : SameFor (st x) (st' x) :=
  ⟨h.keep (by decide), h.keep (by decide), h.back (by decide)⟩

theorem ProcOk.woken {b : Bool} {s s' : ProcState} (h : ProcOk b s l)
    (hs : s' = s ∨ s = .SLEEPING ∧ s' = .RUNNABLE) : ProcOk b s' l := by
  rcases hs with rfl | ⟨rfl, rfl⟩
  · exact h
  · rcases h with ⟨hr, -⟩ | ⟨l', hl, hb, -, hp⟩
    · cases hr
    · exact .inr ⟨l', hl, hb, .inl rfl, hp⟩

/-! ## What the invariant says about one process -/

/-- A CPU whose `proc` is set holds the lock, or runs that process. -/
theorem Inv.of_current (h : Inv lock stack cr3 sched intr cur st code) (hc : cur c = some d) :
    lock = some c ∨ stack c = some d.p ∧ st d.p = .RUNNING := by
  cases hs : stack c with
  | none =>
      refine .inl (h.locked c hs ?_).2
      intro hloop
      have hidle := h.idle c hs
      rw [hloop] at hidle
      cases hidle.1.symm.trans hc
  | some p =>
      obtain ⟨d', rfl, -, hd, -, -⟩ := h.busy c p hs
      obtain rfl : d' = d := Option.some.inj (hd.symm.trans hc)
      rcases h.proc c d'.p hs with ⟨hrun, -⟩ | ⟨-, -, hl, -⟩
      · exact .inr ⟨rfl, hrun⟩
      · exact .inl (of_decide_eq_true hl)

theorem Inv.stack_current (h : Inv lock stack cr3 sched intr cur st code)
    (hp : stack c = some p) : ∃ d, cur c = some d ∧ d.p = p := by
  obtain ⟨d, hd, -, hcur, -, -⟩ := h.busy c p hp
  exact ⟨d, hcur, hd⟩

theorem Inv.stack_inj (h : Inv lock stack cr3 sched intr cur st code) (hc : stack c = some p)
    (hc' : stack c' = some p) : c' = c := by
  obtain ⟨d, hd, hdp⟩ := h.stack_current hc
  obtain ⟨d', hd', hdp'⟩ := h.stack_current hc'
  exact h.unique c' c d' d hd' hd (hdp'.trans hdp.symm)

theorem Inv.cr3_current (h : Inv lock stack cr3 sched intr cur st code) (hp : cr3 c = some p) :
    ∃ d, cur c = some d ∧ d.p = p := by
  cases hs : stack c with
  | none => exact SchedOk.of_cr3 (h.idle c hs) hp
  | some q =>
      obtain ⟨d, hd, -, hcur, hcr, -⟩ := h.busy c q hs
      exact ⟨d, hcur, hd.trans (Option.some.inj (hcr.symm.trans hp))⟩

/-- While CPU `c` holds the lock, no other CPU is concerned with a process that is not RUNNING. -/
theorem Inv.only_holder (h : Inv lock stack cr3 sched intr cur st code) (hl : lock = some c)
    (hx : st x ≠ .RUNNING) (hc : cur c' = some d) (hd : d.p = x) : c' = c := by
  rcases h.of_current hc with hl' | ⟨-, hrun⟩
  · exact Option.some.inj (hl'.symm.trans hl)
  · exact absurd (hd ▸ hrun) hx

/-- A process that was never dispatched, or was reaped, is on no stack. -/
theorem Inv.off_stack (h : Inv lock stack cr3 sched intr cur st code)
    (hx : st x = .UNUSED ∨ st x = .EMBRYO) (c : ℕ) : stack c ≠ some x := by
  intro hs
  have hp := h.proc c x hs
  rcases hx with hx | hx <;> rw [ProcOk, hx] at hp <;> simp [Departs] at hp

/-- On a CPU that runs a process with more code than `sched` the process is RUNNING. -/
theorem Inv.runs (h : Inv lock stack cr3 sched intr cur st code) (hp : stack c = some p)
    (hs : ∀ l, code p ≠ .sched :: l) :
    st p = .RUNNING ∧ Runs (decide (lock = some c)) (code p) := by
  rcases h.proc c p hp with hr | ⟨l, hl, -⟩
  · exact hr
  · exact absurd hl (hs l)

/-! ## Steps of the process on a CPU -/

/-- A process that is not in the making itself goes on without taking over another one. -/
theorem Ownership.go (h : Ownership st code) (hp : st p ≠ .EMBRYO)
    (hst : ∀ x, st x = .EMBRYO → st' x = .EMBRYO) (hown : ∀ np, Owns l np → Owns (code p) np)
    (hprep : ∀ np, Prepared l np → Prepared (code p) np ∨ code np = forkret) :
    Ownership st' (Function.update code p l) := by
  have hown' : ∀ p' np, Owns (Function.update code p l p') np → Owns (code p') np := by
    intro p' np ho
    by_cases hpp : p' = p
    · subst hpp
      rw [Function.update_self] at ho
      exact hown np ho
    · rwa [Function.update_of_ne hpp] at ho
  refine ⟨?_, ?_, ?_⟩
  · intro p' np ho
    exact hst np (h.owned p' np (hown' p' np ho))
  · intro p' p'' np ho ho'
    exact h.once p' p'' np (hown' p' np ho) (hown' p'' np ho')
  · intro p' np hpr
    have hne : np ≠ p := by
      rintro rfl
      exact hp (h.owned p' np (hown' p' np hpr.owns))
    rw [Function.update_of_ne hne]
    by_cases hpp : p' = p
    · subst hpp
      rw [Function.update_self] at hpr
      exact (hprep np hpr).elim (h.ready p' np) id
    · rw [Function.update_of_ne hpp] at hpr
      exact h.ready p' np hpr

/-- The process `p` on CPU `c` goes on with `l`; it may take or release the lock, and sleeping
processes may be woken up. -/
theorem Inv.go (h : Inv lock stack cr3 sched intr cur st code) (hp : stack c = some p)
    (hrun : st p = .RUNNING) (hlock : ∀ c', c' ≠ c → (lock' = some c' ↔ lock = some c'))
    (hst : Woken st st') (hl : Runs (decide (lock' = some c)) l) (hown : ∀ np, Owns l np → Owns (code p) np)
    (hprep : ∀ np, Prepared l np → Prepared (code p) np ∨ code np = forkret)
    (hreap : ∀ op l' q, l = op :: l' → op.reaped = some q → st q = .ZOMBIE) :
    Inv lock' stack cr3 sched intr cur st' (Function.update code p l) := by
  have hothers : ∀ c' p', stack c' = some p' → c' ≠ c → p' ≠ p := by
    rintro c' p' hs hne rfl
    exact hne (h.stack_inj hp hs)
  have hrun' : st p ≠ .EMBRYO := by simp [hrun]
  have hidle : ∀ c', stack c' = none → c' ≠ c := by
    rintro c' hs rfl
    cases hs.symm.trans hp
  refine ⟨?_, ?_, ?_, h.busy, ?_, h.unique, ?_, ?_,
    h.own.go hrun' (fun x => hst.keep (by decide)) hown hprep, ?_⟩
  · intro c' hs
    exact (h.idle c' hs).mono fun d _ => hst.sameFor d.p
  · intro c' hs hpc
    obtain ⟨hi, hlk⟩ := h.locked c' hs hpc
    exact ⟨hi, (hlock c' (hidle c' hs)).mpr hlk⟩
  · intro c' hs hpc
    rw [decide_eq_decide.mpr (hlock c' (hidle c' hs))]
    exact h.unlocked c' hs hpc
  · intro c' p' hs
    by_cases hc : c' = c
    · subst hc
      obtain rfl : p = p' := Option.some.inj (hp.symm.trans hs)
      rw [Function.update_self]
      exact .inl ⟨hst.keep (by decide) hrun, hl⟩
    · rw [Function.update_of_ne (hothers c' p' hs hc), decide_eq_decide.mpr (hlock c' hc)]
      exact (h.proc c' p' hs).woken (hst p')
  · intro x hx
    exact h.running x (hst.back (by decide) hx)
  · intro x hoff h1 h2
    have hxp : x ≠ p := fun he => hoff c (he ▸ hp)
    rw [Function.update_of_ne hxp]
    exact h.parked x hoff (fun hu => h1 (hst.keep (by decide) hu))
      fun hu => h2 (hst.keep (by decide) hu)
  · intro c' p' q op l' hs hcode hq
    by_cases hpp : p' = p
    · subst hpp
      rw [Function.update_self] at hcode
      exact hst.keep (by decide) (hreap op l' q hcode hq)
    · rw [Function.update_of_ne hpp] at hcode
      exact hst.keep (by decide) (h.reaped c' p' q op l' hs hcode hq)

/-- The process `p` on CPU `c` goes on with `l` and sets the state of `x`, which is on no CPU and
does not become RUNNING. -/
theorem Inv.change (h : Inv lock stack cr3 sched intr cur st code) (hp : stack c = some p)
    (hrun : st p = .RUNNING) {b : ProcState} (hl : Runs (decide (lock = some c)) l)
    (hx : st x ≠ .RUNNABLE) (hxr : st x ≠ .RUNNING) (hoff : ∀ c, stack c ≠ some x)
    (hb : b ≠ .RUNNING) (hpark : b = .UNUSED ∨ b = .EMBRYO ∨ Parked (code x))
    (hown : ∀ np, Owns l np → np = x ∧ st x = .UNUSED ∧ b = .EMBRYO)
    (hgone : b ≠ .EMBRYO → ∀ p', Owns (code p') x → p' = p) (hprep : ∀ np, ¬ Prepared l np)
    (hreap : ∀ op l', l = op :: l' → op.reaped = none)
    (hsafe : ∀ c' p' op l', p' ≠ p → stack c' = some p' → code p' = op :: l' →
      op.reaped ≠ some x) :
    Inv lock stack cr3 sched intr cur (Function.update st x b) (Function.update code p l) := by
  have hxp : x ≠ p := fun he => hoff c (he ▸ hp)
  have hst : ∀ {y : ProcId}, y ≠ x → Function.update st x b y = st y :=
    fun hy => Function.update_of_ne hy _ _
  have hown' : ∀ p' np, Owns (Function.update code p l p') np →
      (p' ≠ p ∧ Owns (code p') np) ∨ p' = p ∧ np = x ∧ st x = .UNUSED ∧ b = .EMBRYO := by
    intro p' np ho
    by_cases hpp : p' = p
    · subst hpp
      rw [Function.update_self] at ho
      exact .inr ⟨rfl, hown np ho⟩
    · rw [Function.update_of_ne hpp] at ho
      exact .inl ⟨hpp, ho⟩
  refine ⟨?_, h.locked, h.unlocked, h.busy, ?_, h.unique, ?_, ?_, ⟨?_, ?_, ?_⟩, ?_⟩
  · intro c' hs
    refine (h.idle c' hs).mono fun d hd => ?_
    by_cases hdx : d.p = x
    · rw [hdx, Function.update_self]
      exact ⟨fun hr => absurd hr hx, fun hr => absurd hr hxr, fun hr => absurd hr hb⟩
    · rw [hst hdx]
      exact SameFor.rfl _
  · intro c' p' hs
    have hp'x : p' ≠ x := fun he => hoff c' (he ▸ hs)
    rw [hst hp'x]
    by_cases hpp : p' = p
    · subst hpp
      obtain rfl := h.stack_inj hp hs
      rw [Function.update_self]
      exact .inl ⟨hrun, hl⟩
    · rw [Function.update_of_ne hpp]
      exact h.proc c' p' hs
  · intro y hy
    by_cases hyx : y = x
    · subst hyx
      rw [Function.update_self] at hy
      exact absurd hy hb
    · exact h.running y ((hst hyx).symm.trans hy)
  · intro y hyoff h1 h2
    have hyp : y ≠ p := fun he => hyoff c (he ▸ hp)
    rw [Function.update_of_ne hyp]
    by_cases hyx : y = x
    · subst hyx
      rw [Function.update_self] at h1 h2
      exact (hpark.resolve_left h1).resolve_left h2
    · rw [hst hyx] at h1 h2
      exact h.parked y hyoff h1 h2
  · intro p' np ho
    rcases hown' p' np ho with ⟨hpp, ho⟩ | ⟨-, rfl, -, rfl⟩
    · by_cases hnx : np = x
      · subst hnx
        rw [Function.update_self]
        by_contra hbe
        exact hpp (hgone hbe p' ho)
      · rw [hst hnx]
        exact h.own.owned p' np ho
    · exact Function.update_self ..
  · intro p' p'' np ho ho'
    have hnone : ∀ q, st x = .UNUSED → ¬ Owns (code q) x := fun q hu hq => by
      cases hu.symm.trans (h.own.owned q x hq)
    rcases hown' p' np ho with ⟨-, ho⟩ | ⟨rfl, rfl, hu, -⟩
    · rcases hown' p'' np ho' with ⟨-, ho'⟩ | ⟨-, rfl, hu, -⟩
      · exact h.own.once p' p'' np ho ho'
      · exact absurd ho (hnone p' hu)
    · rcases hown' p'' np ho' with ⟨-, ho'⟩ | ⟨rfl, -⟩
      · exact absurd ho' (hnone p'' hu)
      · rfl
  · intro p' np hpr
    by_cases hpp : p' = p
    · subst hpp
      rw [Function.update_self] at hpr
      exact absurd hpr (hprep np)
    · rw [Function.update_of_ne hpp] at hpr
      have hnp : np ≠ p := by
        rintro rfl
        cases hrun.symm.trans (h.own.owned p' np hpr.owns)
      rw [Function.update_of_ne hnp]
      exact h.own.ready p' np hpr
  · intro c' p' q op l' hs hcode hq
    by_cases hpp : p' = p
    · subst hpp
      rw [Function.update_self] at hcode
      cases (hreap op l' hcode).symm.trans hq
    · rw [Function.update_of_ne hpp] at hcode
      have hqx : q ≠ x := fun he => hsafe c' p' op l' hpp hs hcode (he ▸ hq)
      rw [hst hqx]
      exact h.reaped c' p' q op l' hs hcode hq

/-- A new process gets the code it starts with. -/
theorem Inv.prepare (h : Inv lock stack cr3 sched intr cur st code) (hx : st x = .EMBRYO) :
    Inv lock stack cr3 sched intr cur st (Function.update code x forkret) := by
  have hown : ∀ {p np : ProcId}, Owns (Function.update code x forkret p) np → Owns (code p) np := by
    intro p np ho
    by_cases hpx : p = x
    · subst hpx
      rw [Function.update_self] at ho
      obtain ⟨op, hop, hc⟩ := ho
      rw [forkret, List.mem_singleton] at hop
      subst hop
      cases hc
    · rwa [Function.update_of_ne hpx] at ho
  have hne : ∀ {c p}, stack c = some p → p ≠ x := by
    rintro c p hs rfl
    exact h.off_stack (.inr hx) c hs
  refine ⟨h.idle, h.locked, h.unlocked, h.busy, ?_, h.unique, h.running, ?_, ⟨?_, ?_, ?_⟩, ?_⟩
  · intro c p hs
    rw [Function.update_of_ne (hne hs)]
    exact h.proc c p hs
  · intro y hoff h1 h2
    have hyx : y ≠ x := by
      rintro rfl
      exact h2 hx
    rw [Function.update_of_ne hyx]
    exact h.parked y hoff h1 h2
  · intro p np ho
    exact h.own.owned p np (hown ho)
  · intro p p' np ho ho'
    exact h.own.once p p' np (hown ho) (hown ho')
  · intro p np hp
    by_cases hnx : np = x
    · rw [hnx, Function.update_self]
    · rw [Function.update_of_ne hnx]
      refine h.own.ready p np ?_
      by_cases hpx : p = x
      · subst hpx
        rw [Function.update_self] at hp
        obtain ⟨op, hop, hc⟩ := hp
        rw [forkret, List.mem_singleton] at hop
        subst hop
        cases hc
      · rwa [Function.update_of_ne hpx] at hp
  · intro c p q op l hs hcode hq
    rw [Function.update_of_ne (hne hs)] at hcode
    exact h.reaped c p q op l hs hcode hq

/-- The process `p` on CPU `c` gives its state up and is about to `sched`. -/
theorem Inv.depart (h : Inv lock stack cr3 sched intr cur st code) (hp : stack c = some p)
    (hrun : st p = .RUNNING) (hlock : lock = some c) {b : ProcState} (hb : Departs b)
    (hl : Parked l) (hown : ∀ np, Owns (.sched :: l) np → Owns (code p) np)
    (hprep : ∀ np, Prepared (.sched :: l) np → Prepared (code p) np) :
    Inv lock stack cr3 sched intr cur (Function.update st p b)
      (Function.update code p (.sched :: l)) := by
  obtain ⟨d, hcur, hd⟩ := h.stack_current hp
  have hst : ∀ {y : ProcId}, y ≠ p → Function.update st p b y = st y :=
    fun hy => Function.update_of_ne hy _ _
  have hembryo : ∀ x, st x = .EMBRYO → Function.update st p b x = .EMBRYO := by
    intro x hx
    rw [hst fun he => by rw [he, hrun] at hx; cases hx]
    exact hx
  refine ⟨?_, h.locked, h.unlocked, h.busy, ?_, h.unique, ?_, ?_,
    h.own.go (by simp [hrun]) hembryo hown fun np hpr => .inl (hprep np hpr), ?_⟩
  · intro c' hs
    refine (h.idle c' hs).mono fun d' hd' => ?_
    have hne : d'.p ≠ p := by
      intro he
      obtain rfl := h.unique c' c d' d hd' hcur (he.trans hd.symm)
      cases hs.symm.trans hp
    rw [hst hne]
    exact SameFor.rfl _
  · intro c' p' hs
    by_cases hpp : p' = p
    · subst hpp
      obtain rfl := h.stack_inj hp hs
      rw [Function.update_self, Function.update_self]
      exact .inr ⟨l, rfl, decide_eq_true hlock, hb, hl⟩
    · rw [hst hpp, Function.update_of_ne hpp]
      exact h.proc c' p' hs
  · intro x hx
    by_cases hxp : x = p
    · subst hxp
      exact ⟨c, d, hcur, hd⟩
    · exact h.running x ((hst hxp).symm.trans hx)
  · intro x hoff h1 h2
    have hxp : x ≠ p := fun he => hoff c (he ▸ hp)
    rw [hst hxp] at h1 h2
    rw [Function.update_of_ne hxp]
    exact h.parked x hoff h1 h2
  · intro c' p' q op l' hs hcode hq
    by_cases hpp : p' = p
    · subst hpp
      rw [Function.update_self] at hcode
      obtain rfl := (List.cons.inj hcode).1
      cases hq
    · rw [Function.update_of_ne hpp] at hcode
      have hz := h.reaped c' p' q op l' hs hcode hq
      rw [hst fun he => by rw [he, hrun] at hz; cases hz]
      exact hz

/-- `sched`: the CPU goes back to the stack of its `scheduler`, with the lock held. -/
theorem Inv.leave (h : Inv lock stack cr3 sched intr cur st code) (hp : stack c = some p)
    (hcode : code p = .sched :: l) (hrun : st p ≠ .RUNNING) :
    Inv lock (Function.update stack c none) cr3 sched intr cur st (Function.update code p l) := by
  obtain ⟨d, rfl, hpc, hcur, hcr, hi⟩ := h.busy c p hp
  have hok : lock = some c ∧ Departs (st d.p) ∧ Parked l := by
    rcases h.proc c d.p hp with ⟨hr, -⟩ | ⟨l', hl', hlock, hd, hpark⟩
    · exact absurd hr hrun
    · obtain rfl := (List.cons.inj (hcode.symm.trans hl')).2
      exact ⟨of_decide_eq_true hlock, hd, hpark⟩
  obtain ⟨hlock, hd, hpark⟩ := hok
  have hsub : ∀ {op : Op}, op ∈ l → op ∈ code d.p := fun hop => by
    rw [hcode]
    exact List.mem_cons_of_mem _ hop
  have hother : ∀ {c' : ℕ} {p' : ProcId}, Function.update stack c none c' = some p' →
      c' ≠ c ∧ stack c' = some p' := by
    intro c' p' hs
    by_cases hc : c' = c
    · subst hc
      rw [Function.update_self] at hs
      cases hs
    · exact ⟨hc, by rwa [Function.update_of_ne hc] at hs⟩
  have hpp : ∀ {c' : ℕ} {p' : ProcId}, c' ≠ c → stack c' = some p' → p' ≠ d.p := by
    rintro c' p' hc hs rfl
    exact hc (h.stack_inj hp hs)
  have hembryo : st d.p ≠ .EMBRYO := by
    intro he
    rw [he] at hd
    simp [Departs] at hd
  refine ⟨?_, ?_, ?_, ?_, ?_, h.unique, h.running, ?_, h.own.go hembryo (fun _ hx => hx) ?_ ?_, ?_⟩
  · intro c' hs
    by_cases hc : c' = c
    · subst hc
      rw [hpc]
      exact ⟨hcur, hcr, hrun⟩
    · rw [Function.update_of_ne hc] at hs
      exact h.idle c' hs
  · intro c' hs hne
    by_cases hc : c' = c
    · subst hc
      exact ⟨hi, hlock⟩
    · rw [Function.update_of_ne hc] at hs
      exact h.locked c' hs hne
  · intro c' hs hloop
    by_cases hc : c' = c
    · subst hc
      cases hpc.symm.trans hloop
    · rw [Function.update_of_ne hc] at hs
      exact h.unlocked c' hs hloop
  · intro c' p' hs
    exact h.busy c' p' (hother hs).2
  · intro c' p' hs
    obtain ⟨hc, hs⟩ := hother hs
    rw [Function.update_of_ne (hpp hc hs)]
    exact h.proc c' p' hs
  · intro x hoff h1 h2
    by_cases hx : x = d.p
    · subst hx
      rw [Function.update_self]
      exact hpark
    · rw [Function.update_of_ne hx]
      refine h.parked x (fun c' hs => ?_) h1 h2
      by_cases hc : c' = c
      · subst hc
        exact hx (Option.some.inj (hs.symm.trans hp))
      · exact hoff c' (by rwa [Function.update_of_ne hc])
  · rintro np ⟨op, hop, hc⟩
    exact ⟨op, hsub hop, hc⟩
  · rintro np ⟨op, hop, hc⟩
    exact .inl ⟨op, hsub hop, hc⟩
  · intro c' p' q op l' hs hcode' hq
    obtain ⟨hc, hs⟩ := hother hs
    rw [Function.update_of_ne (hpp hc hs)] at hcode'
    exact h.reaped c' p' q op l' hs hcode' hq

/-! ## Steps of the scheduler -/

/-- `scheduler` on CPU `c` goes on at `pc` with `proc = o` and page directory `r`. -/
theorem Inv.goIdle (h : Inv lock stack cr3 sched intr cur st code) (hs : stack c = none)
    (hlock : ∀ c', c' ≠ c → (lock' = some c' ↔ lock = some c')) (hst : Woken st st')
    (pc : SchedPc) (o : Option Dispatch) (r : Option ProcId) (hok : SchedOk st' o r pc)
    (hpc : pc ≠ .loop → l = [] ∧ lock' = some c)
    (hloop : pc = .loop → Code (decide (lock' = some c)) l)
    (hnew : ∀ c' d d', c' ≠ c → o = some d → cur c' = some d' → d.p ≠ d'.p)
    (hold : ∀ d, cur c = some d → st d.p = .RUNNING → o = some d) :
    Inv lock' stack (Function.update cr3 c r) (Function.update sched c pc)
      (Function.update intr c l) (Function.update cur c o) st' code := by
  have hbusy : ∀ {c' : ℕ} {p' : ProcId}, stack c' = some p' → c' ≠ c := by
    rintro c' p' hs' rfl
    cases hs.symm.trans hs'
  refine ⟨?_, ?_, ?_, ?_, ?_, ?_, ?_, ?_,
    ⟨fun p np ho => hst.keep (by decide) (h.own.owned p np ho), h.own.once, h.own.ready⟩, ?_⟩
  · intro c' hs'
    by_cases hc : c' = c
    · subst hc
      simp only [Function.update_self]
      exact hok
    · simp only [Function.update_of_ne hc]
      exact (h.idle c' hs').mono fun d _ => hst.sameFor d.p
  · intro c' hs' hne
    by_cases hc : c' = c
    · subst hc
      rw [Function.update_self] at hne
      rw [Function.update_self]
      exact hpc hne
    · rw [Function.update_of_ne hc] at hne
      rw [Function.update_of_ne hc]
      obtain ⟨hi, hl⟩ := h.locked c' hs' hne
      exact ⟨hi, (hlock c' hc).mpr hl⟩
  · intro c' hs' hl
    by_cases hc : c' = c
    · subst hc
      rw [Function.update_self] at hl
      rw [Function.update_self]
      exact hloop hl
    · rw [Function.update_of_ne hc] at hl
      rw [Function.update_of_ne hc, decide_eq_decide.mpr (hlock c' hc)]
      exact h.unlocked c' hs' hl
  · intro c' p hs'
    simp only [Function.update_of_ne (hbusy hs')]
    exact h.busy c' p hs'
  · intro c' p hs'
    rw [decide_eq_decide.mpr (hlock c' (hbusy hs'))]
    exact (h.proc c' p hs').woken (hst p)
  · intro c' c'' d d' hd hd' he
    by_cases hc : c' = c
    · by_cases hc' : c'' = c
      · exact hc.trans hc'.symm
      · subst hc
        rw [Function.update_self] at hd
        rw [Function.update_of_ne hc'] at hd'
        exact absurd he (hnew c'' d d' hc' hd hd')
    · rw [Function.update_of_ne hc] at hd
      by_cases hc' : c'' = c
      · subst hc'
        rw [Function.update_self] at hd'
        exact absurd he.symm (hnew c' d' d hc hd' hd)
      · rw [Function.update_of_ne hc'] at hd'
        exact h.unique c' c'' d d' hd hd' he
  · intro x hx
    have hx' : st x = .RUNNING := hst.back (by decide) hx
    obtain ⟨c', d, hd, rfl⟩ := h.running x hx'
    by_cases hc : c' = c
    · subst hc
      exact ⟨c', d, by rw [Function.update_self]; exact hold d hd hx', rfl⟩
    · exact ⟨c', d, by rw [Function.update_of_ne hc]; exact hd, rfl⟩
  · intro x hoff h1 h2
    exact h.parked x hoff (fun hu => h1 (hst.keep (by decide) hu))
      fun hu => h2 (hst.keep (by decide) hu)
  · intro c' p q op l' hs' hcode hq
    exact hst.keep (by decide) (h.reaped c' p q op l' hs' hcode hq)

/-- The scan of CPU `c` ends at a RUNNABLE process. -/
theorem Inv.pick (h : Inv lock stack cr3 sched intr cur st code) (hs : stack c = none)
    {rest : List Slot} (hpc : sched c = .scan rest) (hrun : st d.p = .RUNNABLE) :
    Inv lock stack (Function.update cr3 c (some d.p)) (Function.update sched c (.run d)) intr
      (Function.update cur c (some d)) st code := by
  have hok := h.idle c hs
  rw [hpc] at hok
  obtain ⟨hi, hlock⟩ := h.locked c hs (by simp [hpc])
  have hinv := h.goIdle hs (fun _ _ => Iff.rfl) (.rfl st) (.run d) (some d) (some d.p) (l := [])
    ⟨rfl, rfl, hrun⟩ (fun _ => ⟨rfl, hlock⟩) (by simp) ?_ ?_
  · rwa [← hi, Function.update_eq_self] at hinv
  · intro c' d₁ d' hc hd hd' he
    obtain rfl := Option.some.inj hd
    exact hc (h.only_holder hlock (by simp [hrun]) hd' he.symm)
  · intro d' hd'
    cases hok.1.symm.trans hd'

/-- `switchkvm`. -/
theorem Inv.switchkvm (h : Inv lock stack cr3 sched intr cur st code) (hs : stack c = none)
    (hpc : sched c = .back d) :
    Inv lock stack (Function.update cr3 c none) (Function.update sched c (.after d)) intr cur st
      code := by
  have hok := h.idle c hs
  rw [hpc] at hok
  obtain ⟨hi, hlock⟩ := h.locked c hs (by simp [hpc])
  have hinv := h.goIdle hs (fun _ _ => Iff.rfl) (.rfl st) (.after d) (cur c) none (l := [])
    ⟨hok.1, rfl, hok.2.2⟩ (fun _ => ⟨rfl, hlock⟩) (by simp) ?_ ?_
  · rwa [← hi, Function.update_eq_self, Function.update_eq_self] at hinv
  · intro c' d₁ d' hc hd hd' he
    exact hc (h.unique c' c d' d₁ hd' hd he.symm)
  · exact fun d' hd' _ => hd'

/-- `proc = 0`. -/
theorem Inv.finish (h : Inv lock stack cr3 sched intr cur st code) (hs : stack c = none)
    (hpc : sched c = .after d) :
    Inv lock stack cr3 (Function.update sched c .release) intr (Function.update cur c none) st
      code := by
  have hok := h.idle c hs
  rw [hpc] at hok
  obtain ⟨hi, hlock⟩ := h.locked c hs (by simp [hpc])
  have hinv := h.goIdle hs (fun _ _ => Iff.rfl) (.rfl st) .release none (cr3 c) (l := [])
    ⟨rfl, hok.2.1⟩ (fun _ => ⟨rfl, hlock⟩) (by simp) ?_ ?_
  · rwa [← hi, Function.update_eq_self, Function.update_eq_self] at hinv
  · intro c' d₁ d' _ hd
    cases hd
  · intro d' hd' hr
    obtain rfl := Option.some.inj (hok.1.symm.trans hd')
    exact absurd hr hok.2.2

/-- The chosen process becomes RUNNING. -/
theorem Inv.run (h : Inv lock stack cr3 sched intr cur st code) (hs : stack c = none)
    (hpc : sched c = .run d) :
    Inv lock stack cr3 (Function.update sched c (.uptime d)) intr cur
      (Function.update st d.p .RUNNING) code := by
  have hok := h.idle c hs
  rw [hpc] at hok
  obtain ⟨hcur, hcr, hrun⟩ := hok
  obtain ⟨hi, hlock⟩ := h.locked c hs (by simp [hpc])
  have hst : ∀ {x : ProcId}, st x ≠ .RUNNABLE → Function.update st d.p .RUNNING x = st x := by
    intro x hx
    refine Function.update_of_ne (fun he => hx ?_) _ _
    rw [he, hrun]
  have hother : ∀ {c' : ℕ} {d' : Dispatch}, c' ≠ c → cur c' = some d' →
      Function.update st d.p .RUNNING d'.p = st d'.p := by
    intro c' d' hc hd
    refine Function.update_of_ne (fun he => hc ?_) _ _
    exact h.unique c' c d' d hd hcur he
  have hbusy : ∀ {c' : ℕ} {p' : ProcId}, stack c' = some p' → c' ≠ c := by
    rintro c' p' hs' rfl
    cases hs.symm.trans hs'
  refine ⟨?_, ?_, ?_, ?_, ?_, h.unique, ?_, ?_, ⟨?_, h.own.once, h.own.ready⟩, ?_⟩
  · intro c' hs'
    by_cases hc : c' = c
    · subst hc
      rw [Function.update_self]
      exact ⟨hcur, hcr, Function.update_self ..⟩
    · rw [Function.update_of_ne hc]
      refine (h.idle c' hs').mono fun d' hd' => ?_
      rw [hother hc hd']
      exact SameFor.rfl _
  · intro c' hs' hne
    by_cases hc : c' = c
    · subst hc
      exact ⟨hi, hlock⟩
    · rw [Function.update_of_ne hc] at hne
      exact h.locked c' hs' hne
  · intro c' hs' hl
    by_cases hc : c' = c
    · subst hc
      rw [Function.update_self] at hl
      cases hl
    · rw [Function.update_of_ne hc] at hl
      exact h.unlocked c' hs' hl
  · intro c' p hs'
    rw [Function.update_of_ne (hbusy hs')]
    exact h.busy c' p hs'
  · intro c' p hs'
    obtain ⟨d', hd', rfl⟩ := h.stack_current hs'
    rw [hother (hbusy hs') hd']
    exact h.proc c' d'.p hs'
  · intro x hx
    by_cases hxd : x = d.p
    · exact ⟨c, d, hcur, hxd.symm⟩
    · rw [Function.update_of_ne hxd] at hx
      exact h.running x hx
  · intro x hoff h1 h2
    by_cases hxd : x = d.p
    · subst hxd
      exact h.parked d.p hoff (by simp [hrun]) (by simp [hrun])
    · rw [Function.update_of_ne hxd] at h1 h2
      exact h.parked x hoff h1 h2
  · intro p np ho
    have he := h.own.owned p np ho
    rw [hst (by simp [he])]
    exact he
  · intro c' p q op l' hs' hcode hq
    have hz := h.reaped c' p q op l' hs' hcode hq
    rw [hst (by simp [hz])]
    exact hz

/-- `swtch` of `scheduler`: the CPU goes on where the process left off, with the lock held. -/
theorem Inv.swtch (h : Inv lock stack cr3 sched intr cur st code) (hs : stack c = none)
    (hpc : sched c = .swtch d) :
    Inv lock (Function.update stack c (some d.p)) cr3 (Function.update sched c (.back d)) intr cur
      st code := by
  have hok := h.idle c hs
  rw [hpc] at hok
  obtain ⟨hcur, hcr, hrun⟩ := hok
  obtain ⟨hi, hlock⟩ := h.locked c hs (by simp [hpc])
  have hoff : ∀ c', stack c' ≠ some d.p := by
    intro c' hs'
    obtain ⟨d', hd', he⟩ := h.stack_current hs'
    obtain rfl := h.unique c' c d' d hd' hcur he
    cases hs.symm.trans hs'
  obtain ⟨op, l', hcode, hres, hc'⟩ := h.parked d.p hoff (by simp [hrun]) (by simp [hrun])
  have hsplit : ∀ {c' : ℕ} {p : ProcId}, Function.update stack c (some d.p) c' = some p →
      c' = c ∧ p = d.p ∨ c' ≠ c ∧ stack c' = some p := by
    intro c' p hs'
    by_cases hc : c' = c
    · subst hc
      rw [Function.update_self] at hs'
      exact .inl ⟨rfl, (Option.some.inj hs').symm⟩
    · exact .inr ⟨hc, by rwa [Function.update_of_ne hc] at hs'⟩
  have hnone : ∀ {c' : ℕ}, Function.update stack c (some d.p) c' = none → c' ≠ c ∧ stack c' = none := by
    intro c' hs'
    by_cases hc : c' = c
    · subst hc
      rw [Function.update_self] at hs'
      cases hs'
    · exact ⟨hc, by rwa [Function.update_of_ne hc] at hs'⟩
  refine ⟨?_, ?_, ?_, ?_, ?_, h.unique, h.running, ?_, h.own, ?_⟩
  · intro c' hs'
    obtain ⟨hc, hs'⟩ := hnone hs'
    rw [Function.update_of_ne hc]
    exact h.idle c' hs'
  · intro c' hs' hne
    obtain ⟨hc, hs'⟩ := hnone hs'
    rw [Function.update_of_ne hc] at hne
    exact h.locked c' hs' hne
  · intro c' hs' hl
    obtain ⟨hc, hs'⟩ := hnone hs'
    rw [Function.update_of_ne hc] at hl
    exact h.unlocked c' hs' hl
  · intro c' p hs'
    rcases hsplit hs' with ⟨rfl, rfl⟩ | ⟨hc, hs'⟩
    · exact ⟨d, rfl, Function.update_self .., hcur, hcr, hi⟩
    · rw [Function.update_of_ne hc]
      exact h.busy c' p hs'
  · intro c' p hs'
    rcases hsplit hs' with ⟨rfl, rfl⟩ | ⟨hc, hs'⟩
    · exact .inl ⟨hrun, .inl (by rw [decide_eq_true hlock]; exact hc')⟩
    · exact h.proc c' p hs'
  · intro x hx h1 h2
    refine h.parked x (fun c' hs' => ?_) h1 h2
    have hc : c' ≠ c := by
      rintro rfl
      cases hs.symm.trans hs'
    exact hx c' (by rwa [Function.update_of_ne hc])
  · intro c' p q op' l'' hs' hcode' hq
    rcases hsplit hs' with ⟨rfl, rfl⟩ | ⟨hc, hs'⟩
    · obtain ⟨rfl, rfl⟩ := List.cons.inj (hcode.symm.trans hcode')
      cases op <;> simp_all [Op.Resumes, Op.reaped]
    · exact h.reaped c' p q op' l'' hs' hcode' hq

end

end IntroToOS.Mlfq.Smp

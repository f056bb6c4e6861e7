import Mathlib.Algebra.Order.Ring.Nat
import Mathlib.Data.List.FinRange
import Mathlib.Logic.Function.Basic

/-! # The multi-level feedback queue scheduler of Project2b

Translated from `Project2b/xv6/kernel/proc.c` and `trap.c`. A process is named by its index in
`ptable.proc`, a slot of `ptable.queues` by its row and column, a CPU by its number. Each step of
the model is one critical section of the kernel, taken as a whole:

* `dispatch` is one pass of the `for (;;)` loop of `scheduler` up to the first `swtch`; the code
  after that `swtch` (`afterSwtch`) belongs to the step in which the dispatched process gives the
  CPU up, because `ptable.lock` is held from `sched` to it;
* `timer` is a timer interrupt with everything `trap` does for it: the global tick, the
  accounting of the running process, the starvation check and the final `yield`;
* the other steps are the system calls, made by the process that a CPU is running.

`uint` counters wrap at `2 ^ 32`. Kernel stacks, page directories and trap frames play no part in
the queues: whether `kalloc` and `copyuvm` succeed is a choice of the label of the step.
-/

namespace IntroToOS.Mlfq
set_option autoImplicit false

/-- Maximum number of processes. -/
abbrev NPROC : ℕ := 64

instance : NeZero NPROC := ⟨by decide⟩

abbrev ProcId := Fin NPROC

inductive ProcState
  | UNUSED | EMBRYO | SLEEPING | RUNNABLE | RUNNING | ZOMBIE
  deriving DecidableEq, Repr

/-- What a process sleeps on: the tick counter, a process (in `wait`), or anything else. -/
inductive Chan
  | ticks
  | proc (p : ProcId)
  | other (addr : ℕ)
  deriving DecidableEq, Repr

structure Proc where
  state : ProcState := .UNUSED
  pid : ℕ := 0
  parent : Option ProcId := none
  chan : Option Chan := none
  killed : Bool := false
  priority : ℕ := 0
  ticks : ℕ → ℕ := fun _ => 0
  accumulatedTicks : ℕ → ℕ := fun _ => 0
  lastTick : ℕ := 0

/-- A slot `queues[row][column]`. -/
abbrev Slot := ℕ × ℕ

abbrev Queues := Slot → Option ProcId

/-- The locals `q` and `p` of `scheduler`, kept across `swtch`. -/
structure Dispatch where
  q : Slot
  p : ProcId
  deriving DecidableEq

/-- One CPU: `lastRR` is the column of row 3 it points to (`none` for `NULL`), `current` what it
has dispatched (`proc`, with the slot it was found in). -/
structure Cpu where
  lastRR : Option ℕ := none
  current : Option Dispatch := none

structure Kernel where
  proc : ProcId → Proc := fun _ => {}
  queues : Queues := fun _ => none
  cpu : ℕ → Cpu := fun _ => {}
  initproc : Option ProcId := none
  nextpid : ℕ := 1
  ticks : ℕ := 0
  starvTicks : ℕ := 0

namespace Kernel

def setProc (s : Kernel) (p : ProcId) (x : Proc) : Kernel :=
  { s with proc := Function.update s.proc p x }

def setState (s : Kernel) (p : ProcId) (st : ProcState) : Kernel :=
  s.setProc p { s.proc p with state := st }

end Kernel

/-! ## Queue slots -/

/-- The insertion loop `for(q = &queues[row][0]; …) if (*q == NULL) { *q = p; break; }`: nothing
is stored when the row is full. -/
def enqueue (qs : Queues) (row : ℕ) (p : ProcId) : Queues :=
  match (List.range NPROC).find? fun i => (qs (row, i)).isNone with
  | some i => Function.update qs (row, i) (some p)
  | none => qs

/-- The removal loop of the starvation check: the first slot of the row holding `p` is emptied. -/
def dequeue (qs : Queues) (row : ℕ) (p : ProcId) : Queues :=
  match (List.range NPROC).find? fun i => qs (row, i) = some p with
  | some i => Function.update qs (row, i) none
  | none => qs

/-! ## Process table -/

/-- The slot `allocproc` takes: the first UNUSED process. -/
def findUnused (s : Kernel) : Option ProcId :=
  (List.finRange NPROC).find? fun p => (s.proc p).state = .UNUSED

/-- `kstack` says whether `kalloc` finds a page for the kernel stack. -/
def allocproc (s : Kernel) (kstack : Bool) : Kernel × Option ProcId :=
  match findUnused s with
  | none => (s, none)
  | some p =>
    let s := { s.setProc p { s.proc p with state := .EMBRYO, pid := s.nextpid } with
      nextpid := s.nextpid + 1 }
    if kstack then (s, some p) else (s.setState p .UNUSED, none)

/-- Set up the first user process. -/
def userinit : Kernel :=
  match allocproc {} true with
  | (s, none) => s
  | (s, some p) =>
    { s.setProc p { s.proc p with state := .RUNNABLE, priority := 0 } with
      initproc := some p
      queues := enqueue s.queues 0 p }

/-- Wake up all processes sleeping on `chan`. -/
def wakeup1 (s : Kernel) (chan : Chan) : Kernel :=
  { s with proc := fun p =>
      let x := s.proc p
      if x.state = .SLEEPING ∧ x.chan = some chan then { x with state := .RUNNABLE } else x }

/-- `np->priority = 0`, the insertion into row 0, and the child made RUNNABLE. `copied` says
whether `copyuvm` succeeds. -/
def fork (s : Kernel) (p : ProcId) (kstack copied : Bool) : Kernel :=
  match allocproc s kstack with
  | (s, none) => s
  | (s, some np) =>
    if copied then
      { s.setProc np { s.proc np with priority := 0, parent := some p, state := .RUNNABLE } with
        queues := enqueue s.queues 0 np }
    else s.setState np .UNUSED

/-- Kill the first process with the given pid. -/
def kill (s : Kernel) (pid : ℕ) : Kernel :=
  match (List.finRange NPROC).find? fun p => (s.proc p).pid = pid with
  | none => s
  | some p =>
    let x := s.proc p
    s.setProc p { x with
      killed := true
      state := if x.state = .SLEEPING then .RUNNABLE else x.state }

/-! ## The scheduler -/

/-- The order in which one iteration of `scheduler` looks at the slots: each loop runs only when
the one before it came to the end of its row, row 3 is taken from `lastRR` on and then from its
start up to `lastRR`. -/
def scanOrder (lastRR : Option ℕ) : List Slot :=
  let start := lastRR.getD 0
  (List.range NPROC).map (0, ·) ++ (List.range NPROC).map (1, ·) ++
    (List.range NPROC).map (2, ·) ++ (List.range' start (NPROC - start)).map (3, ·) ++
    (List.range start).map (3, ·)

/-- The scan itself: a slot holding an UNUSED process is set to `NULL`, the first RUNNABLE
process found is the one to dispatch. -/
def scan (proc : ProcId → Proc) : List Slot → Queues → Queues × Option Dispatch
  | [], qs => (qs, none)
  | q :: rest, qs =>
    match qs q with
    | none => scan proc rest qs
    | some p =>
      if (proc p).state = .UNUSED then scan proc rest (Function.update qs q none)
      else if (proc p).state ≠ .RUNNABLE then scan proc rest qs
      else (qs, some ⟨q, p⟩)

/-- One iteration of `scheduler` on CPU `c`, up to `swtch`. A process resumed inside `sleep`
clears its `chan`, which is `0` already in every other case. -/
def dispatch (s : Kernel) (c : ℕ) : Kernel :=
  match scan s.proc (scanOrder (s.cpu c).lastRR) s.queues with
  | (qs, none) => { s with queues := qs }
  | (qs, some d) =>
    { s.setProc d.p { s.proc d.p with state := .RUNNING, lastTick := s.ticks, chan := none } with
      queues := qs
      cpu := Function.update s.cpu c { s.cpu c with current := some d } }

/-- Ticks a process may use at a level before it moves on. -/
def allotment : ℕ → ℕ
  | 0 => 5
  | 1 => 5
  | 2 => 10
  | _ => 20

/-- The code of `scheduler` after `swtch`: at the end of its allotment a process of rows 0 to 2
moves to the next row, and one of row 3 makes the next slot the start of the round robin. -/
def afterSwtch (s : Kernel) (c : ℕ) (d : Dispatch) : Kernel :=
  let x := s.proc d.p
  let idle : Cpu := { s.cpu c with current := none }
  if x.ticks d.q.1 = allotment d.q.1 then
    if d.q.1 < 3 then
      { s.setProc d.p { x with
          ticks := Function.update x.ticks d.q.1 0, priority := x.priority + 1 } with
        queues := enqueue (Function.update s.queues d.q none) (d.q.1 + 1) d.p
        cpu := Function.update s.cpu c idle }
    else
      { s.setProc d.p { x with ticks := Function.update x.ticks d.q.1 0 } with
        cpu := Function.update s.cpu c { idle with
          lastRR := some (if d.q.2 = NPROC - 1 then 0 else d.q.2 + 1) } }
  else { s with cpu := Function.update s.cpu c idle }

/-! ## Giving the CPU up -/

/-- `proc->state = RUNNABLE; sched()`. -/
def yield (s : Kernel) (c : ℕ) (d : Dispatch) : Kernel :=
  afterSwtch (s.setState d.p .RUNNABLE) c d

def sleep (s : Kernel) (c : ℕ) (d : Dispatch) (chan : Chan) : Kernel :=
  afterSwtch ((s.setProc d.p { s.proc d.p with chan := some chan }).setState d.p .SLEEPING) c d

/-- Pass abandoned children to init, waking it for those that are zombies. -/
def reparent (s : Kernel) (p : ProcId) (init : ProcId) : Kernel :=
  (List.finRange NPROC).foldl (fun s q =>
    if (s.proc q).parent = some p then
      let s := s.setProc q { s.proc q with parent := some init }
      if (s.proc q).state = .ZOMBIE then wakeup1 s (.proc init) else s
    else s) s

/-- `none` is `panic("init exiting")`. -/
def exit (s : Kernel) (c : ℕ) (d : Dispatch) : Option Kernel :=
  match s.initproc with
  | none => none
  | some init =>
    if d.p = init then none
    else
      let s := match (s.proc d.p).parent with
        | some parent => wakeup1 s (.proc parent)
        | none => s
      let s := reparent s d.p init
      some (afterSwtch (s.setState d.p .ZOMBIE) c d)

/-- One pass of the loop of `wait`: the first zombie child is reaped; without children, or when
killed, the call returns -1; otherwise the process sleeps on itself. -/
def wait (s : Kernel) (c : ℕ) (d : Dispatch) : Kernel :=
  match (List.finRange NPROC).find? fun q =>
      (s.proc q).parent = some d.p ∧ (s.proc q).state = .ZOMBIE with
  | some q =>
    s.setProc q { s.proc q with state := .UNUSED, pid := 0, parent := none, killed := false }
  | none =>
    if (∀ q, (s.proc q).parent ≠ some d.p) ∨ (s.proc d.p).killed = true then s
    else sleep s c d (.proc d.p)

/-! ## The timer interrupt -/

/-- The body of the starvation loop for one process: `now - 100` is an unsigned difference. -/
def boost (now : ℕ) (s : Kernel) (p : ProcId) : Kernel :=
  let x := s.proc p
  if x.state = .RUNNABLE ∧ x.lastTick < (now + 2 ^ 32 - 100) % 2 ^ 32 then
    if 0 < x.priority then
      { s.setProc p { x with
          priority := x.priority - 1
          ticks := fun j => if x.priority - 1 ≤ j ∧ j ≤ x.priority then 0 else x.ticks j } with
        queues := enqueue (dequeue s.queues x.priority p) (x.priority - 1) p }
    else s
  else s

def starvationCheck (s : Kernel) : Kernel :=
  if s.starvTicks = 100 then
    (List.finRange NPROC).foldl (boost s.ticks) { s with starvTicks := 0 }
  else s

/-- `ticks[priority]++`, `accumulatedTicks[priority]++` and `starvTicks++`. -/
def account (s : Kernel) (p : ProcId) : Kernel :=
  let x := s.proc p
  { s.setProc p { x with
      ticks := Function.update x.ticks x.priority (x.ticks x.priority + 1)
      accumulatedTicks :=
        Function.update x.accumulatedTicks x.priority (x.accumulatedTicks x.priority + 1) } with
    starvTicks := (s.starvTicks + 1) % 2 ^ 32 }

/-- A timer interrupt on CPU `c`; `user` says whether it came in user mode. CPU 0 also advances
the global tick. A killed process in user mode exits instead of being charged; the same check
made after `yield` is an `exit` step of the process once it runs again. -/
def timer (s : Kernel) (c : ℕ) (user : Bool) : Option Kernel :=
  let s := if c = 0 then wakeup1 { s with ticks := (s.ticks + 1) % 2 ^ 32 } .ticks else s
  match (s.cpu c).current with
  | none => some s
  | some d =>
    if (s.proc d.p).killed = true ∧ user = true then exit s c d
    else if (s.proc d.p).state = .RUNNING then
      some (yield (starvationCheck (account s d.p)) c d)
    else some s

/-! ## Steps -/

inductive Call
  | dispatch (c : ℕ)
  | fork (c : ℕ) (kstack copied : Bool)
  | exit (c : ℕ)
  | wait (c : ℕ)
  | sleep (c : ℕ) (chan : Chan)
  | wakeup (chan : Chan)
  | kill (pid : ℕ)
  | timer (c : ℕ) (user : Bool)

/-- One atomic step. A CPU dispatches when it runs no process; a system call needs one. -/
def step (s : Kernel) : Call → Option Kernel
  | .dispatch c => if (s.cpu c).current = none then some (dispatch s c) else none
  | .fork c kstack copied => (s.cpu c).current.map fun d => fork s d.p kstack copied
  | .exit c => (s.cpu c).current.bind fun d => exit s c d
  | .wait c => (s.cpu c).current.map fun d => wait s c d
  | .sleep c chan => (s.cpu c).current.map fun d => sleep s c d chan
  | .wakeup chan => some (wakeup1 s chan)
  | .kill pid => some (kill s pid)
  | .timer c user => timer s c user

end IntroToOS.Mlfq

import IntroToOS.Mlfq.Kernel
import IntroToOS.Lib.Run

/-! # CPUs, locks and context switches of Project2b

Translated from `Project2b/xv6/kernel/proc.c`, `trap.c`, `sysproc.c` and `spinlock.c`. Here a
critical section is no longer one step: `acquire`, `release`, each `swtch` and every write to the
process table or the queues is a step of its own, and the CPUs interleave. What a process still has
to do in the kernel is a list of operations (`code`), and a CPU executes either on the stack of a
process or in its own `scheduler`. A lock belongs to a CPU, not to a process: `sched` and the
`swtch` of `scheduler` leave it held, and whatever runs next on that CPU releases it.

* Both locks spin: an `acquire` of a held lock is not enabled. The panics of `release`, `sched`
  and `exit` end the run.
* Loops over `ptable.proc` that only touch what `ptable.lock` protects are one operation; the
  loops of `allocproc`, of the insertion in `fork` and of `scheduler`, which race with the unlocked
  writes of `fork`, are taken apart.
* An interrupt puts its code before what is left to do. It needs interrupts enabled, which holds
  on a CPU without locks; the model also lets a handler be interrupted.
* In the kernel a process also sleeps under locks other than these two; `Lk.other` stands for them.
-/

namespace IntroToOS.Mlfq.Smp
open Lib
set_option autoImplicit false

inductive Op
  | acquire
  | release
  | acquireTicks
  | releaseTicks
  /-- `ticks++` -/
  | tick
  | wakeup1 (chan : Chan)
  /-- `swtch(&proc->context, cpu->scheduler)` -/
  | sched
  | setState (st : ProcState)
  | setChan (chan : Option Chan)
  | kill (pid : ℕ)
  /-- `if(proc && proc->killed && (tf->cs&3) == DPL_USER) exit()` -/
  | checkKilled (user : Bool)
  /-- the accounting at the end of a timer interrupt -/
  | charge
  /-- `if (100 == starvTicks)` -/
  | starvation
  /-- `now = sys_uptime()` -/
  | now
  | boostAll (now : ℕ)
  /-- `if(proc == initproc) panic("init exiting")` -/
  | checkInit
  /-- wake the parent and pass the children to init -/
  | orphan
  | zombieExit
  | scanChildren
  | kfree (q : ProcId)
  | freevm (q : ProcId)
  | clear (q : ProcId)
  | allocproc (i : ℕ)
  | kalloc (np : ProcId)
  | copyuvm (np : ProcId)
  /-- `if (*q == NULL)` at column `i` of row 0 -/
  | insert (np : ProcId) (i : ℕ)
  /-- `*q = np` -/
  | store (np : ProcId) (i : ℕ)
  | link (np : ProcId)
  /-- `np->state = RUNNABLE` -/
  | publish (np : ProcId)
  /-- `ticks0 = ticks` -/
  | sleepStart (n : ℕ)
  | sleepWhile (n ticks0 : ℕ)
  deriving DecidableEq

/-! ## The kernel's functions as lists of operations -/

def wakeup (chan : Chan) : List Op := [.acquire, .wakeup1 chan, .release]

def yield : List Op := [.acquire, .setState .RUNNABLE, .sched, .release]

/-- A fork child's very first scheduling: it still holds `ptable.lock` from `scheduler`. -/
def forkret : List Op := [.release]

/-- The lock handed to `sleep`. -/
inductive Lk
  | ptable | tickslock | other
  deriving DecidableEq

/-- Go to sleep, and tidy up. -/
def goToSleep (chan : Chan) : List Op :=
  [.setChan (some chan), .setState .SLEEPING, .sched, .setChan none]

def sleep (chan : Chan) : Lk → List Op
  | .ptable => goToSleep chan
  | .tickslock => [.acquire, .releaseTicks] ++ goToSleep chan ++ [.release, .acquireTicks]
  | .other => [.acquire] ++ goToSleep chan ++ [.release]

def exit : List Op := [.checkInit, .acquire, .orphan, .setState .ZOMBIE, .sched, .zombieExit]

def wait : List Op := [.acquire, .scanChildren]

def kill (pid : ℕ) : List Op := [.acquire, .kill pid, .release]

def fork : List Op := [.acquire, .allocproc 0]

def sys_sleep (n : ℕ) : List Op := [.acquireTicks, .sleepStart n]

def sys_uptime : List Op := [.acquireTicks, .releaseTicks]

/-- `trap` for a timer interrupt on CPU `c`. -/
def timer (c : ℕ) (user : Bool) : List Op :=
  (if c = 0 then [.acquireTicks, .tick] ++ wakeup .ticks ++ [.releaseTicks] else []) ++
    [.checkKilled user, .charge, .checkKilled user]

/-! ## The machine -/

/-- Where the `scheduler` of a CPU is. -/
inductive SchedPc
  /-- before `acquire(&ptable.lock)` -/
  | loop
  | scan (rest : List Slot)
  /-- before `p->state = RUNNING` -/
  | run (d : Dispatch)
  /-- before the `acquire` of `sys_uptime` -/
  | uptime (d : Dispatch)
  | uptimeRead (d : Dispatch)
  | uptimeDone (d : Dispatch) (xticks : ℕ)
  | swtch (d : Dispatch)
  /-- before `switchkvm()` -/
  | back (d : Dispatch)
  | after (d : Dispatch)
  | release
  deriving DecidableEq

/-- `lock` and `ticksLock` hold the CPU that has `ptable.lock` and `tickslock`. `stack` is the
process whose kernel stack the CPU executes on (`none` for the stack of its `scheduler`), `cr3` the
one whose page directory it uses (`none` for the kernel's). `intr` is what is left of an interrupt
that came in `scheduler`; `kstack` and `pgdir` tell which processes have a stack and a page
directory. The queues, the process table and the `proc` of each CPU are those of `Kernel`. -/
structure Machine where
  kernel : Kernel
  lock : Option ℕ := none
  ticksLock : Option ℕ := none
  stack : ℕ → Option ProcId := fun _ => none
  cr3 : ℕ → Option ProcId := fun _ => none
  sched : ℕ → SchedPc := fun _ => .loop
  intr : ℕ → List Op := fun _ => []
  code : ProcId → List Op := fun _ => []
  kstack : ProcId → Bool := fun _ => false
  pgdir : ProcId → Bool := fun _ => false

namespace Machine

/-- `cpu->proc`. -/
def proc (m : Machine) (c : ℕ) : Option ProcId := ((m.kernel.cpu c).current).map Dispatch.p

def setKernel (m : Machine) (k : Kernel) : Machine := { m with kernel := k }

def setSched (m : Machine) (c : ℕ) (pc : SchedPc) : Machine :=
  { m with sched := Function.update m.sched c pc }

def setIntr (m : Machine) (c : ℕ) (l : List Op) : Machine :=
  { m with intr := Function.update m.intr c l }

def setCode (m : Machine) (p : ProcId) (l : List Op) : Machine :=
  { m with code := Function.update m.code p l }

/-- Process `p` goes on with `l` in the kernel state `k`. -/
def next (m : Machine) (p : ProcId) (k : Kernel) (l : List Op) : Machine :=
  (m.setKernel k).setCode p l

end Machine

/-! ## Operations -/

/-- The operations that need no process. -/
def execShared (m : Machine) (c : ℕ) : Op → Option Machine
  | .acquire => if m.lock = none then some { m with lock := some c } else none
  | .release => if m.lock = some c then some { m with lock := none } else none
  | .acquireTicks => if m.ticksLock = none then some { m with ticksLock := some c } else none
  | .releaseTicks => if m.ticksLock = some c then some { m with ticksLock := none } else none
  | .tick => some (m.setKernel { m.kernel with ticks := (m.kernel.ticks + 1) % 2 ^ 32 })
  | .wakeup1 chan => some (m.setKernel (Mlfq.wakeup1 m.kernel chan))
  | _ => none

/-- The next operation of an interrupt in `scheduler`: there is no `proc` to charge. -/
def execIdle (m : Machine) (c : ℕ) (op : Op) (l : List Op) : Option Machine :=
  match op with
  | .checkKilled _ => some (m.setIntr c l)
  | .charge => some (m.setIntr c l)
  | op => (execShared m c op).map fun m => m.setIntr c l

/-- `exit` from `acquire` to the change of its own state. -/
def orphan (k : Kernel) (p : ProcId) (init : ProcId) : Kernel :=
  reparent (match (k.proc p).parent with
    | some parent => Mlfq.wakeup1 k (.proc parent)
    | none => k) p init

/-- Operation `op` of process `p` on CPU `c`, with `l` left to do after it. `ok` says whether
`kalloc` and `copyuvm` succeed. -/
def exec (m : Machine) (c : ℕ) (p : ProcId) (ok : Bool) (op : Op) (l : List Op) : Option Machine :=
  let k := m.kernel
  match op with
  | .sched =>
    if m.lock = some c ∧ m.ticksLock ≠ some c ∧ (k.proc p).state ≠ .RUNNING then
      some { m with
        stack := Function.update m.stack c none
        code := Function.update m.code p l }
    else none
  | .setState st => some (m.next p (k.setState p st) l)
  | .setChan chan => some (m.next p (k.setProc p { k.proc p with chan := chan }) l)
  | .kill pid => some (m.next p (Mlfq.kill k pid) l)
  | .checkKilled user =>
    some (m.next p k (if (k.proc p).killed = true ∧ user = true then exit else l))
  | .charge =>
    if (k.proc p).state = .RUNNING then
      some (m.next p (account k p) ([.acquire, .starvation, .release] ++ yield ++ l))
    else some (m.next p k l)
  | .starvation =>
    if k.starvTicks = 100 then
      some (m.next p { k with starvTicks := 0 } (.acquireTicks :: .now :: l))
    else some (m.next p k l)
  | .now => some (m.next p k (.releaseTicks :: .boostAll k.ticks :: l))
  | .boostAll now => some (m.next p ((List.finRange NPROC).foldl (boost now) k) l)
  | .checkInit => if k.initproc = some p then none else some (m.next p k l)
  | .orphan => k.initproc.map fun init => m.next p (orphan k p init) l
  | .zombieExit => none
  | .scanChildren =>
    match (List.finRange NPROC).find? fun q =>
        (k.proc q).parent = some p ∧ (k.proc q).state = .ZOMBIE with
    | some q => some (m.next p k (.kfree q :: l))
    | none =>
      if (∀ q, (k.proc q).parent ≠ some p) ∨ (k.proc p).killed = true then
        some (m.next p k (.release :: l))
      else some (m.next p k (sleep (.proc p) .ptable ++ .scanChildren :: l))
  | .kfree q =>
    some { m.next p k (.freevm q :: l) with kstack := Function.update m.kstack q false }
  | .freevm q =>
    some { m.next p k (.clear q :: l) with pgdir := Function.update m.pgdir q false }
  | .clear q =>
    some (m.next p (k.setProc q
      { k.proc q with state := .UNUSED, pid := 0, parent := none, killed := false }) (.release :: l))
  | .allocproc i =>
    if h : i < NPROC then
      let np : ProcId := ⟨i, h⟩
      if (k.proc np).state = .UNUSED then
        some (m.next p { k.setProc np { k.proc np with state := .EMBRYO, pid := k.nextpid } with
          nextpid := k.nextpid + 1 } (.release :: .kalloc np :: l))
      else some (m.next p k (.allocproc (i + 1) :: l))
    else some (m.next p k (.release :: l))
  | .kalloc np =>
    if ok then
      some { (m.setCode np forkret).next p k (.copyuvm np :: l) with
        kstack := Function.update m.kstack np true }
    else some (m.next p (k.setState np .UNUSED) l)
  | .copyuvm np =>
    if ok then
      some { m.next p (k.setProc np { k.proc np with priority := 0 }) (.insert np 0 :: l) with
        pgdir := Function.update m.pgdir np true }
    else
      some { m.next p (k.setState np .UNUSED) l with kstack := Function.update m.kstack np false }
  | .insert np i =>
    if i < NPROC then
      if k.queues (0, i) = none then some (m.next p k (.store np i :: l))
      else some (m.next p k (.insert np (i + 1) :: l))
    else some (m.next p k (.link np :: l))
  | .store np i =>
    some (m.next p { k with queues := Function.update k.queues (0, i) (some np) } (.link np :: l))
  | .link np =>
    some (m.next p (k.setProc np { k.proc np with parent := some p }) (.publish np :: l))
  | .publish np => some (m.next p (k.setState np .RUNNABLE) l)
  | .sleepStart n => some (m.next p k (.sleepWhile n k.ticks :: l))
  | .sleepWhile n ticks0 =>
    if (k.ticks + 2 ^ 32 - ticks0) % 2 ^ 32 < n then
      if (k.proc p).killed = true then some (m.next p k (.releaseTicks :: l))
      else some (m.next p k (sleep .ticks .tickslock ++ .sleepWhile n ticks0 :: l))
    else some (m.next p k (.releaseTicks :: l))
  | op => (execShared m c op).map fun m => m.setCode p l

/-! ## The scheduler -/

/-- One step of `scheduler` on CPU `c`. The five loops of the source differ in their slots
(`scanOrder`) and in the code after `swtch` (`afterSwtch`), not in what they do to the process. -/
def schedStep (m : Machine) (c : ℕ) : Option Machine :=
  let k := m.kernel
  match m.sched c with
  | .loop =>
    if m.lock = none then
      some { m with
        lock := some c
        sched := Function.update m.sched c (.scan (scanOrder (k.cpu c).lastRR)) }
    else none
  | .scan [] => some (m.setSched c .release)
  | .scan (q :: rest) =>
    match k.queues q with
    | none => some (m.setSched c (.scan rest))
    | some p =>
      if (k.proc p).state = .UNUSED then
        some ((m.setKernel { k with queues := Function.update k.queues q none }).setSched c (.scan rest))
      else if (k.proc p).state ≠ .RUNNABLE then some (m.setSched c (.scan rest))
      else some { m with
        kernel := { k with cpu := Function.update k.cpu c { k.cpu c with current := some ⟨q, p⟩ } }
        cr3 := Function.update m.cr3 c (some p)
        sched := Function.update m.sched c (.run ⟨q, p⟩) }
  | .run d => some ((m.setKernel (k.setState d.p .RUNNING)).setSched c (.uptime d))
  | .uptime d =>
    if m.ticksLock = none then some ({ m with ticksLock := some c }.setSched c (.uptimeRead d))
    else none
  | .uptimeRead d => some (m.setSched c (.uptimeDone d k.ticks))
  | .uptimeDone d xticks =>
    if m.ticksLock = some c then
      some (({ m with ticksLock := none }.setKernel
        (k.setProc d.p { k.proc d.p with lastTick := xticks })).setSched c (.swtch d))
    else none
  | .swtch d =>
    some ({ m with stack := Function.update m.stack c (some d.p) }.setSched c (.back d))
  | .back d => some ({ m with cr3 := Function.update m.cr3 c none }.setSched c (.after d))
  | .after d => some ((m.setKernel (afterSwtch k c d)).setSched c .release)
  | .release =>
    if m.lock = some c then some ({ m with lock := none }.setSched c .loop) else none

/-! ## Steps -/

inductive Interrupt
  | timer
  | wakeup (chan : Chan)

def Interrupt.code (c : ℕ) (user : Bool) : Interrupt → List Op
  | .timer => Smp.timer c user
  | .wakeup chan => Smp.wakeup chan

inductive Call
  | fork
  | exit
  | wait
  | kill (pid : ℕ)
  | sleep (chan : Chan)
  | sys_sleep (n : ℕ)
  | sys_uptime

def Call.code : Call → List Op
  | .fork => Smp.fork
  | .exit => Smp.exit
  | .wait => Smp.wait
  | .kill pid => Smp.kill pid
  | .sleep chan => Smp.sleep chan .other
  | .sys_sleep n => Smp.sys_sleep n
  | .sys_uptime => Smp.sys_uptime

inductive Label
  | go (c : ℕ) (ok : Bool)
  | interrupt (c : ℕ) (i : Interrupt)
  | call (c : ℕ) (s : Call)

def Label.cpu : Label → ℕ
  | .go c _ => c
  | .interrupt c _ => c
  | .call c _ => c

/-- CPU `c` executes its next operation, takes an interrupt, or the process it runs in user mode
makes a system call. -/
def step (m : Machine) : Label → Option Machine
  | .go c ok =>
    match m.stack c with
    | some p =>
      match m.code p with
      | [] => none
      | op :: l => exec m c p ok op l
    | none =>
      match m.intr c with
      | [] => schedStep m c
      | op :: l => execIdle m c op l
  | .interrupt c i =>
    if m.lock = some c ∨ m.ticksLock = some c then none
    else
      match m.stack c with
      | some p => some (m.setCode p (i.code c (m.code p).isEmpty ++ m.code p))
      | none => some (m.setIntr c (i.code c false ++ m.intr c))
  | .call c s =>
    match m.stack c with
    | some p => if m.code p = [] then some (m.setCode p s.code) else none
    | none => none

/-- The machine after `userinit`, with any contents of the queues. -/
def boot (qs : Queues) : Machine where
  kernel := { userinit with queues := qs }
  code := fun p => if (userinit.proc p).state = .RUNNABLE then forkret else []
  kstack := fun p => (userinit.proc p).state = .RUNNABLE
  pgdir := fun p => (userinit.proc p).state = .RUNNABLE

/-- CPU `c` executes on the kernel stack of `q` or with its page directory. -/
def Machine.Executes (m : Machine) (c : ℕ) (q : ProcId) : Prop :=
  m.stack c = some q ∨ m.cr3 c = some q

/-- CPU `c` is about to free the kernel stack or the page directory of `q` in `wait`. -/
def Machine.Frees (m : Machine) (c : ℕ) (q : ProcId) : Prop :=
  ∃ p, m.stack c = some p ∧ ∃ l, m.code p = .kfree q :: l ∨ m.code p = .freevm q :: l

end IntroToOS.Mlfq.Smp

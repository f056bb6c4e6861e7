import IntroToOS.Threads.Files

/-! # Processes and kernel threads of Project4b

Translated from `Project4b/xv6/kernel/proc.c`, `exec.c` and `sysfile.c`. A thread is a process that
`clone` has made: it uses the page directory, the open files and the current directory of its
creator. A step is one system call of a running process, taken as a whole, or a decision of the
scheduler. Whether `kalloc` and the checks of `exec` succeed is a choice of the label; `wait` and
`join` are taken pass by pass, and a process that sleeps in one of them goes on with it.

Not in the source: page directories are numbered in the order in which `setupkvm` makes them,
`freed` lists the arguments of `freevm`, and an entry of `ofile` remembers which handing-out of the
file it names and whether `thread_fork` has copied it without a reference (`borrowed`).
-/

namespace IntroToOS.Threads
set_option autoImplicit false

/-- Maximum number of processes. -/
abbrev NPROC : ℕ := 64

instance : NeZero NPROC := ⟨by decide⟩

abbrev PGSIZE : ℕ := 4096
abbrev USERTOP : ℕ := 0xA0000

abbrev ProcId := Fin NPROC

inductive ProcState
  | UNUSED | EMBRYO | SLEEPING | RUNNABLE | RUNNING | ZOMBIE
  deriving DecidableEq, Repr

/-- An entry of `ofile`. -/
structure Fd where
  file : FileId
  gen : ℕ
  borrowed : Bool
  deriving DecidableEq

structure Cwd where
  inode : InodeId
  borrowed : Bool
  deriving DecidableEq

/-- The system calls that a process may sleep in. -/
inductive Blocking
  | wait
  | join
  deriving DecidableEq

structure Proc where
  state : ProcState := .UNUSED
  pid : ℕ := 0
  parent : Option ProcId := none
  chan : Option ProcId := none
  killed : Bool := false
  sz : ℕ := 0
  pgdir : Option ℕ := none
  ofile : Fin NOFILE → Option Fd := fun _ => none
  cwd : Option Cwd := none
  /-- `thread_info.is_thread` and `thread_info.stack`. -/
  is_thread : Bool := false
  stack : ℕ := 0
  /-- The call that the kernel stack is in when the process is scheduled again. -/
  resume : Option Blocking := none

structure Kernel where
  proc : ProcId → Proc := fun _ => {}
  files : Files := {}
  initproc : Option ProcId := none
  nextpid : ℕ := 1
  nextDir : ℕ := 0
  freed : List ℕ := []

/-- What a system call returns, and what `join` stores at `*stack`. -/
structure Reply where
  ret : Option ℤ := none
  stack : Option ℕ := none

namespace Kernel

def setProc (s : Kernel) (p : ProcId) (x : Proc) : Kernel :=
  { s with proc := Function.update s.proc p x }

def setState (s : Kernel) (p : ProcId) (st : ProcState) : Kernel :=
  s.setProc p { s.proc p with state := st }

def setFiles (s : Kernel) (files : Files) : Kernel := { s with files }

section
variable {s : Kernel} {p q : ProcId} {x : Proc}

@[simp] theorem setProc_self : (s.setProc p x).proc p = x := Function.update_self ..

theorem setProc_of_ne (h : q ≠ p) : (s.setProc p x).proc q = s.proc q :=
  Function.update_of_ne h ..

theorem setState_of_ne {st : ProcState} (h : q ≠ p) : (s.setState p st).proc q = s.proc q :=
  setProc_of_ne h

end

end Kernel

/-! ## Page directories -/

def setupkvm (s : Kernel) : Kernel × ℕ := ({ s with nextDir := s.nextDir + 1 }, s.nextDir)

def freevm (s : Kernel) (pgdir : Option ℕ) : Kern Kernel :=
  match pgdir with
  | none => .error .freevmNoPgdir
  | some d => .ok { s with freed := s.freed ++ [d] }

/-- How `copyuvm` ends: `setupkvm` fails, a page cannot be copied, or all goes well. -/
inductive Copy
  | noDir
  | noPage
  | done

def copyuvm (s : Kernel) : Copy → Kern (Kernel × Option ℕ)
  | .noDir => .ok (s, none)
  | .noPage => do
    let (s, d) := setupkvm s
    let s ← freevm s (some d)
    .ok (s, none)
  | .done =>
    let (s, d) := setupkvm s
    .ok (s, some d)

def PGROUNDUP (sz : ℕ) : ℕ := (sz + PGSIZE - 1) / PGSIZE * PGSIZE

/-- The result of `allocuvm`; `enough` says whether `kalloc` finds the pages that are needed. -/
def allocuvm (oldsz newsz : ℕ) (enough : Bool) : ℕ :=
  if USERTOP < newsz then 0
  else if newsz < oldsz then oldsz
  else if newsz ≤ PGROUNDUP oldsz ∨ enough then newsz else 0

def deallocuvm (oldsz newsz : ℕ) : ℕ := if oldsz ≤ newsz then oldsz else newsz

/-! ## The process table -/

/-- The slot `allocproc` and `allocthread` take: the first UNUSED process. -/
def findUnused (s : Kernel) : Option ProcId :=
  (List.finRange NPROC).find? fun p => (s.proc p).state = .UNUSED

/-- `allocproc`, and `allocthread`, which is the same code. `kstack` says whether `kalloc` finds a
page for the kernel stack. -/
def allocproc (s : Kernel) (kstack : Bool) : Kernel × Option ProcId :=
  match findUnused s with
  | none => (s, none)
  | some p =>
    let s := { s.setProc p { s.proc p with state := .EMBRYO, pid := s.nextpid } with
      nextpid := s.nextpid + 1 }
    if kstack then (s, some p) else (s.setState p .UNUSED, none)

/-- Set up the first user process. -/
def userinit : Kern Kernel := do
  match allocproc {} true with
  | (s, none) => .ok s
  | (s, some p) =>
    let (s, d) := setupkvm s
    let (files, ip) ← iget s.files ROOTINO
    .ok { s.setProc p { s.proc p with
        pgdir := some d, sz := PGSIZE, cwd := some ⟨ip, false⟩, state := .RUNNABLE } with
      files, initproc := some p }

/-- Wake up all processes sleeping on `chan`. -/
def wakeup1 (s : Kernel) (chan : ProcId) : Kernel :=
  { s with proc := fun p =>
      let x := s.proc p
      if x.state = .SLEEPING ∧ x.chan = some chan then { x with state := .RUNNABLE } else x }

/-- `for(i = 0; i < NOFILE; i++) if(proc->ofile[i]) np->ofile[i] = filedup(proc->ofile[i])`, for one
`i`; `q` holds the files and the table of the child. -/
def dupFile (ofile : Fin NOFILE → Option Fd) (q : Files × (Fin NOFILE → Option Fd))
    (i : Fin NOFILE) : Kern (Files × (Fin NOFILE → Option Fd)) :=
  match ofile i with
  | none => .ok q
  | some e => do
    let files ← filedup q.1 e.file
    .ok (files, Function.update q.2 i (some { e with borrowed := false }))

def dupCwd (files : Files) : Option Cwd → Kern (Files × Option Cwd)
  | none => .error .nullCwd
  | some c => .ok (idup files c.inode, some { c with borrowed := false })

def fork (s : Kernel) (p : ProcId) (kstack : Bool) (copied : Copy) : Kern (Kernel × Reply) :=
  match allocproc s kstack with
  | (s, none) => .ok (s, { ret := some (-1) })
  | (s, some np) => do
    let (s, pgdir) ← copyuvm s copied
    match pgdir with
    | none =>
      .ok (s.setProc np { s.proc np with pgdir := none, state := .UNUSED }, { ret := some (-1) })
    | some d => do
      let (files, ofile) ←
        (List.finRange NOFILE).foldlM (dupFile (s.proc p).ofile) (s.files, (s.proc np).ofile)
      let (files, cwd) ← dupCwd files (s.proc p).cwd
      .ok ((s.setFiles files).setProc np { s.proc np with
          pgdir := some d, sz := (s.proc p).sz, parent := some p, ofile, cwd, state := .RUNNABLE },
        { ret := some (s.proc np).pid })

/-- The entries of the creator are copied, without a reference; others of the slot stay. -/
def borrowFile (ofile old : Fin NOFILE → Option Fd) (i : Fin NOFILE) : Option Fd :=
  match ofile i with
  | none => old i
  | some e => some { e with borrowed := true }

def thread_fork (s : Kernel) (p : ProcId) (kstack : Bool) (stack : ℕ) : Kernel × Reply :=
  match allocproc s kstack with
  | (s, none) => (s, { ret := some (-1) })
  | (s, some np) =>
    (s.setProc np { s.proc np with
        pgdir := (s.proc p).pgdir
        sz := (s.proc p).sz
        parent := some p
        ofile := borrowFile (s.proc p).ofile (s.proc np).ofile
        cwd := (s.proc p).cwd.map fun c => { c with borrowed := true }
        is_thread := true
        stack
        state := .RUNNABLE },
      { ret := some (s.proc np).pid })

/-- One turn of the loop of `exit` over the open files. -/
def closeFile (q : Files × (Fin NOFILE → Option Fd)) (i : Fin NOFILE) :
    Kern (Files × (Fin NOFILE → Option Fd)) :=
  match q.2 i with
  | none => .ok q
  | some e => do
    let files ← fileclose q.1 e.file
    .ok (files, Function.update q.2 i none)

def putCwd (files : Files) : Option Cwd → Kern Files
  | none => .error .nullCwd
  | some c => .ok (iput files c.inode)

/-- A thread leaves the files and the directory alone. -/
def closeAll (files : Files) (x : Proc) : Kern (Files × (Fin NOFILE → Option Fd)) :=
  if x.is_thread then .ok (files, x.ofile)
  else do
    let (files, ofile) ← (List.finRange NOFILE).foldlM closeFile (files, x.ofile)
    let files ← putCwd files x.cwd
    .ok (files, ofile)

/-- Pass abandoned children to init, waking it for those that are zombies. -/
def reparent (s : Kernel) (p init : ProcId) : Kernel :=
  (List.finRange NPROC).foldl (fun s q =>
    if (s.proc q).parent = some p then
      let s := s.setProc q { s.proc q with parent := some init }
      if (s.proc q).state = .ZOMBIE then wakeup1 s init else s
    else s) s

def wakeupParent (s : Kernel) (p : ProcId) : Kernel :=
  match (s.proc p).parent with
  | none => s
  | some parent => wakeup1 s parent

def exit (s : Kernel) (p : ProcId) : Kern (Kernel × Reply) :=
  match s.initproc with
  | none => .error .initExiting
  | some init =>
    if p = init then .error .initExiting
    else do
      let (files, ofile) ← closeAll s.files (s.proc p)
      let s := (s.setFiles files).setProc p { s.proc p with ofile, cwd := none }
      let s := reparent (wakeupParent s p) p init
      .ok (s.setState p .ZOMBIE, {})

/-- Go to sleep on oneself, inside `call`. -/
def sleep (s : Kernel) (p : ProcId) (call : Blocking) : Kernel :=
  s.setProc p { s.proc p with state := .SLEEPING, chan := some p, resume := some call }

/-- Return from a call that may have slept. -/
def finish (s : Kernel) (p : ProcId) : Kernel :=
  s.setProc p { s.proc p with resume := none }

/-- The first zombie child. -/
def zombieChild (s : Kernel) (p : ProcId) : Option ProcId :=
  (List.finRange NPROC).find? fun q => (s.proc q).parent = some p ∧ (s.proc q).state = .ZOMBIE

/-- One pass of the loop of `wait`. -/
def wait (s : Kernel) (p : ProcId) : Kern (Kernel × Reply) :=
  match zombieChild s p with
  | some q => do
    let pid := (s.proc q).pid
    let s ← freevm s (s.proc q).pgdir
    let s := s.setProc q
      { s.proc q with state := .UNUSED, pid := 0, parent := none, killed := false }
    .ok (finish s p, { ret := some pid })
  | none =>
    if (∀ q, (s.proc q).parent ≠ some p) ∨ (s.proc p).killed = true then
      .ok (finish s p, { ret := some (-1) })
    else .ok (sleep s p .wait, {})

/-- The first zombie child that is a thread. -/
def zombieThread (s : Kernel) (p : ProcId) : Option ProcId :=
  (List.finRange NPROC).find? fun q =>
    (s.proc q).parent = some p ∧ (s.proc q).is_thread = true ∧ (s.proc q).state = .ZOMBIE

/-- One pass of the loop of `sys_join`. -/
def join (s : Kernel) (p : ProcId) : Kernel × Reply :=
  match zombieThread s p with
  | some q =>
    let x := s.proc q
    let s := s.setProc q { x with
      state := .UNUSED, pid := 0, parent := none, killed := false, is_thread := false }
    (finish s p, { ret := some x.pid, stack := some x.stack })
  | none =>
    if (∀ q, (s.proc q).parent = some p → (s.proc q).is_thread = false) ∨
        (s.proc p).killed = true then
      (finish s p, { ret := some (-1) })
    else (sleep s p .join, {})

/-- Kill the first process with the given pid. -/
def kill (s : Kernel) (pid : ℕ) : Kernel × Reply :=
  match (List.finRange NPROC).find? fun p => (s.proc p).pid = pid with
  | none => (s, { ret := some (-1) })
  | some p =>
    let x := s.proc p
    (s.setProc p { x with
        killed := true
        state := if x.state = .SLEEPING then .RUNNABLE else x.state },
      { ret := some 0 })

/-- The size that `growproc` computes; sizes are `uint`. -/
def grownSize (sz : ℕ) (n : ℤ) (enough : Bool) : ℕ :=
  let newsz := ((sz + n) % 2 ^ 32).toNat
  if 0 < n then allocuvm sz newsz enough else if n < 0 then deallocuvm sz newsz else sz

/-- The loop of `growproc`: processes with the pid of `p`. -/
def shareSize (s : Kernel) (p : ProcId) (sz : ℕ) : Kernel :=
  { s with proc := fun q =>
      if (s.proc p).pid = (s.proc q).pid then { s.proc q with sz } else s.proc q }

/-- Grow the memory of the process by `n` bytes. -/
def growproc (s : Kernel) (p : ProcId) (n : ℤ) (enough : Bool) : Kernel × ℤ :=
  let sz := grownSize (s.proc p).sz n enough
  if n ≠ 0 ∧ sz = 0 then (s, -1)
  else (shareSize (s.setProc p { s.proc p with sz }) p sz, 0)

def sbrk (s : Kernel) (p : ProcId) (n : ℤ) (enough : Bool) : Kernel × Reply :=
  let addr := (s.proc p).sz
  let (s, r) := growproc s p n enough
  (s, { ret := some (if r < 0 then -1 else addr) })

/-- How `exec` ends: before it has a page directory, with one that it gives up, or with an image of
`sz` bytes. -/
inductive Load
  | noDir
  | bad
  | done (sz : ℕ)

def execLoad (s : Kernel) (p : ProcId) : Load → Kern (Kernel × Reply)
  | .noDir => .ok (s, { ret := some (-1) })
  | .bad => do
    let (s, d) := setupkvm s
    let s ← freevm s (some d)
    .ok (s, { ret := some (-1) })
  | .done sz => do
    let oldpgdir := (s.proc p).pgdir
    let (s, d) := setupkvm s
    let s ← freevm (s.setProc p { s.proc p with pgdir := some d, sz }) oldpgdir
    .ok (s, { ret := some 0 })

/-- The inode of the program is held while the program is loaded. -/
def exec (s : Kernel) (p : ProcId) (path : Path) (load : Load) : Kern (Kernel × Reply) := do
  let (files, ip) ← namei s.files ((s.proc p).cwd.map Cwd.inode) path
  match ip with
  | none => .ok (s.setFiles files, { ret := some (-1) })
  | some ip => do
    ilock files ip
    let files ← iunlockput files ip
    execLoad (s.setFiles files) p load

/-! ## Open files -/

/-- The first free descriptor. -/
def fdalloc (ofile : Fin NOFILE → Option Fd) : Option (Fin NOFILE) :=
  (List.finRange NOFILE).find? fun i => (ofile i).isNone

/-- The entry of descriptor `fd`, if there is one. -/
def argfd (x : Proc) (fd : ℤ) : Option (Fin NOFILE × Fd) :=
  if h : 0 ≤ fd ∧ fd < NOFILE then
    let i : Fin NOFILE := ⟨fd.toNat, by omega⟩
    (x.ofile i).map fun e => (i, e)
  else none

def sys_dup (s : Kernel) (p : ProcId) (fd : ℤ) : Kern (Kernel × Reply) :=
  match argfd (s.proc p) fd with
  | none => .ok (s, { ret := some (-1) })
  | some (_, e) =>
    match fdalloc (s.proc p).ofile with
    | none => .ok (s, { ret := some (-1) })
    | some i => do
      let files ← filedup s.files e.file
      let ofile := Function.update (s.proc p).ofile i (some { e with borrowed := false })
      .ok ((s.setFiles files).setProc p { s.proc p with ofile }, { ret := some i.val })

def sys_close (s : Kernel) (p : ProcId) (fd : ℤ) : Kern (Kernel × Reply) :=
  match argfd (s.proc p) fd with
  | none => .ok (s, { ret := some (-1) })
  | some (i, e) => do
    let s := s.setProc p { s.proc p with ofile := Function.update (s.proc p).ofile i none }
    let files ← fileclose s.files e.file
    .ok (s.setFiles files, { ret := some 0 })

def sys_fstat (s : Kernel) (p : ProcId) (fd : ℤ) : Kern (Kernel × Reply) :=
  match argfd (s.proc p) fd with
  | none => .ok (s, { ret := some (-1) })
  | some (_, e) => do
    let r ← filestat s.files e.file
    .ok (s, { ret := some r })

/-- The second half of `sys_open`, with the inode `ip` locked. -/
def openInode (s : Kernel) (p : ProcId) (ip : InodeId) : Kern (Kernel × Reply) :=
  match filealloc s.files with
  | (files, none) => do
    let files ← iunlockput files ip
    .ok (s.setFiles files, { ret := some (-1) })
  | (files, some f) =>
    match fdalloc (s.proc p).ofile with
    | none => do
      let files ← fileclose files f
      let files ← iunlockput files ip
      .ok (s.setFiles files, { ret := some (-1) })
    | some i => do
      iunlock files ip
      let files := files.setFile f { files.file f with type := .FD_INODE ip }
      let e : Fd := { file := f, gen := (files.file f).gen, borrowed := false }
      .ok ((s.setFiles files).setProc p
          { s.proc p with ofile := Function.update (s.proc p).ofile i (some e) },
        { ret := some i.val })

/-- For the inodes, the walk of `create` is that of `namei`; `refused` says that the inode found may
not be opened this way. -/
def sys_open (s : Kernel) (p : ProcId) (path : Path) (refused : Bool) : Kern (Kernel × Reply) := do
  let (files, ip) ← namei s.files ((s.proc p).cwd.map Cwd.inode) path
  match ip with
  | none => .ok (s.setFiles files, { ret := some (-1) })
  | some ip => do
    ilock files ip
    if refused then do
      let files ← iunlockput files ip
      .ok (s.setFiles files, { ret := some (-1) })
    else openInode (s.setFiles files) p ip

def sys_chdir (s : Kernel) (p : ProcId) (path : Path) (isDir : Bool) : Kern (Kernel × Reply) := do
  let (files, ip) ← namei s.files ((s.proc p).cwd.map Cwd.inode) path
  match ip with
  | none => .ok (s.setFiles files, { ret := some (-1) })
  | some ip => do
    ilock files ip
    if isDir then do
      iunlock files ip
      let files ← putCwd files (s.proc p).cwd
      .ok ((s.setFiles files).setProc p { s.proc p with cwd := some ⟨ip, false⟩ },
        { ret := some 0 })
    else do
      let files ← iunlockput files ip
      .ok (s.setFiles files, { ret := some (-1) })

/-! ## Steps -/

/-- `schedule` is the choice of `scheduler`, `yield` the end of a time slice; the others are system
calls of process `p`. -/
inductive Call
  | schedule (p : ProcId)
  | yield (p : ProcId)
  | fork (p : ProcId) (kstack : Bool) (copied : Copy)
  | clone (p : ProcId) (kstack : Bool) (stack : ℕ)
  | exec (p : ProcId) (path : Path) (load : Load)
  | exit (p : ProcId)
  | wait (p : ProcId)
  | join (p : ProcId)
  | kill (p : ProcId) (pid : ℕ)
  | sbrk (p : ProcId) (n : ℤ) (enough : Bool)
  | open (p : ProcId) (path : Path) (refused : Bool)
  | close (p : ProcId) (fd : ℤ)
  | dup (p : ProcId) (fd : ℤ)
  | fstat (p : ProcId) (fd : ℤ)
  | chdir (p : ProcId) (path : Path) (isDir : Bool)

/-- The process that makes the call is running, and it is not inside another one. -/
def enabled (s : Kernel) : Call → Bool
  | .schedule p => (s.proc p).state = .RUNNABLE
  | .yield p => (s.proc p).state = .RUNNING
  | .wait p => (s.proc p).state = .RUNNING ∧ (s.proc p).resume ≠ some .join
  | .join p => (s.proc p).state = .RUNNING ∧ (s.proc p).resume ≠ some .wait
  | .fork p .. | .clone p .. | .exec p .. | .exit p | .kill p _ | .sbrk p .. | .open p ..
  | .close p _ | .dup p _ | .fstat p _ | .chdir p .. =>
    (s.proc p).state = .RUNNING ∧ (s.proc p).resume = none

def call (s : Kernel) : Call → Kern (Kernel × Reply)
  | .schedule p => .ok (s.setProc p { s.proc p with state := .RUNNING, chan := none }, {})
  | .yield p => .ok (s.setState p .RUNNABLE, {})
  | .fork p kstack copied => fork s p kstack copied
  | .clone p kstack stack => .ok (thread_fork s p kstack stack)
  | .exec p path load => exec s p path load
  | .exit p => exit s p
  | .wait p => wait s p
  | .join p => .ok (join s p)
  | .kill _ pid => .ok (kill s pid)
  | .sbrk p n enough => .ok (sbrk s p n enough)
  | .open p path refused => sys_open s p path refused
  | .close p fd => sys_close s p fd
  | .dup p fd => sys_dup s p fd
  | .fstat p fd => sys_fstat s p fd
  | .chdir p path isDir => sys_chdir s p path isDir

/-- A panic ends the run. -/
def step (s : Kernel) (a : Call) : Option Kernel :=
  if enabled s a then (call s a).toOption.map Prod.fst else none

theorem step_eq_some {s t : Kernel} {a : Call} :
    step s a = some t ↔ enabled s a = true ∧ ∃ r, call s a = .ok (t, r) := by
  unfold step
  by_cases h : enabled s a = true
  · rw [if_pos h, and_iff_right h]
    rcases call s a with e | ⟨u, r⟩
    · simp [Except.toOption]
    · simp [Except.toOption, eq_comm]
  · simp [h]

end IntroToOS.Threads

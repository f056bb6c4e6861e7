import Mathlib.Data.Fintype.Basic
import Mathlib.Algebra.Order.Ring.Int
import Mathlib.Data.List.FinRange
import Mathlib.Logic.Function.Basic

/-! # The acceptor and the workers of the web server

Translated from `Project4a/server.c`. A step is one lock, wait, signal or unlock of `main` or of a
worker, with what the thread computes before the next one; a thread that `pthread_cond_signal` or a
spurious wake-up has taken off its condition still has to get `main_lock`. What `requestHandle` does
is left out. `stored` and `returned` are not in the source: they record the descriptors that `main`
has written and those that `get_buffer` has given to the workers.
-/

namespace IntroToOS.WebServer
set_option autoImplicit false

/-- `conn_info_t`. -/
structure ConnInfo where
  conn_fd : ℤ
  filled : ℤ
  issued : ℤ
  deriving DecidableEq

namespace ConnInfo

def setFd (x : ConnInfo) (connfd : ℤ) : ConnInfo := { x with conn_fd := connfd }

def setFilled (x : ConnInfo) (v : ℤ) : ConnInfo := { x with filled := v }

def setIssued (x : ConnInfo) (v : ℤ) : ConnInfo := { x with issued := v }

end ConnInfo

/-- Where `main` is in its loop, and the descriptor that it has accepted. In `check`, `store`,
`signal` and `unlock` it has the lock. -/
inductive MainPc (n_buffers : ℕ)
  | accept
  | lock (connfd : ℤ)
  | check (connfd : ℤ)
  | waiting (connfd : ℤ)
  | relock (connfd : ℤ)
  | store (connfd : ℤ) (i : Fin n_buffers)
  | signal
  | unlock
  deriving DecidableEq

/-- Where a worker is in `connection_consumer`. -/
inductive WorkerPc (n_buffers : ℕ)
  | lock
  | check
  | waiting
  | relock
  | free (i : Fin n_buffers) (connfd : ℤ)
  | signal (connfd : ℤ)
  | unlock (connfd : ℤ)
  | handle (connfd : ℤ)
  deriving DecidableEq

inductive Thread (n_threads : ℕ)
  | main
  | worker (w : Fin n_threads)
  deriving DecidableEq

structure Server (n_buffers n_threads : ℕ) where
  buffer : Fin n_buffers → ConnInfo
  fill_count : ℤ := 0
  main_lock : Option (Thread n_threads) := none
  main : MainPc n_buffers := .accept
  worker : Fin n_threads → WorkerPc n_buffers := fun _ => .lock
  /-- `exit(1)` has been called. -/
  exited : Bool := false
  stored : List ℤ := []
  returned : List (Fin n_threads × ℤ) := []

/-- The loop of `main` over the slots that `malloc` has returned. -/
def initSlot (x : ConnInfo) : ConnInfo := (x.setFd (-1)).setFilled 0

/-- The workers have been created, with whatever `malloc` has left in the buffer. -/
def init {n_buffers n_threads : ℕ} (malloc : Fin n_buffers → ConnInfo) :
    Server n_buffers n_threads := { buffer := fun i => initSlot (malloc i) }

variable {n_buffers n_threads : ℕ}

namespace Server

def setSlot (s : Server n_buffers n_threads) (i : Fin n_buffers) (x : ConnInfo) :
    Server n_buffers n_threads := { s with buffer := Function.update s.buffer i x }

def setWorker (s : Server n_buffers n_threads) (w : Fin n_threads) (pc : WorkerPc n_buffers) :
    Server n_buffers n_threads := { s with worker := Function.update s.worker w pc }

section
variable {s : Server n_buffers n_threads} {i j : Fin n_buffers} {x : ConnInfo}
  {v w : Fin n_threads} {pc : WorkerPc n_buffers}

@[simp] theorem setSlot_self : (s.setSlot i x).buffer i = x := Function.update_self ..

theorem setSlot_of_ne (h : j ≠ i) : (s.setSlot i x).buffer j = s.buffer j :=
  Function.update_of_ne h ..

@[simp] theorem setWorker_self : (s.setWorker w pc).worker w = pc := Function.update_self ..

theorem setWorker_of_ne (h : v ≠ w) : (s.setWorker w pc).worker v = s.worker v :=
  Function.update_of_ne h ..

end

end Server

/-! ## The buffer -/

/-- The first slot that is not filled. -/
def put_buffer (s : Server n_buffers n_threads) :
    Server n_buffers n_threads × Option (Fin n_buffers) :=
  match (List.finRange n_buffers).find? fun i => (s.buffer i).filled = 0 with
  | none => (s, none)
  | some i =>
    ({ s.setSlot i ((s.buffer i).setFilled 1) with fill_count := s.fill_count + 1 }, some i)

/-- The first slot that is filled and not issued. -/
def get_buffer (s : Server n_buffers n_threads) :
    Server n_buffers n_threads × Option (Fin n_buffers) :=
  match (List.finRange n_buffers).find? fun i =>
    (s.buffer i).filled = 1 ∧ (s.buffer i).issued = 0 with
  | none => (s, none)
  | some i => (s.setSlot i ((s.buffer i).setIssued 1), some i)

def free_buffer (s : Server n_buffers n_threads) (i : Fin n_buffers) :
    Server n_buffers n_threads :=
  { s.setSlot i (((s.buffer i).setIssued 0).setFilled 0) with fill_count := s.fill_count - 1 }

/-! ## The threads -/

inductive Event (n_threads : ℕ)
  | accept (connfd : ℤ)
  | mainLock
  | mainTest
  | mainStore
  | mainSignal (woken : Fin n_threads → Bool)
  | mainUnlock
  | mainSpurious
  | lock (w : Fin n_threads)
  | test (w : Fin n_threads)
  | free (w : Fin n_threads)
  | signal (w : Fin n_threads)
  | unlock (w : Fin n_threads)
  | handle (w : Fin n_threads)
  | spurious (w : Fin n_threads)

/-- The loop on `empty`, or what follows it up to the store. -/
def mainTest (s : Server n_buffers n_threads) (connfd : ℤ) : Server n_buffers n_threads :=
  if s.fill_count = n_buffers then { s with main := .waiting connfd, main_lock := none }
  else match put_buffer s with
    | (s, none) => { s with exited := true }
    | (s, some i) => { s with main := .store connfd i }

def mainStore (s : Server n_buffers n_threads) (connfd : ℤ) (i : Fin n_buffers) :
    Server n_buffers n_threads :=
  { s.setSlot i ((s.buffer i).setFd connfd) with
    main := .signal, stored := s.stored ++ [connfd] }

/-- `pthread_cond_signal(&full)` wakes at least one of the workers that wait. -/
def mainSignal (s : Server n_buffers n_threads) (woken : Fin n_threads → Bool) :
    Option (Server n_buffers n_threads) :=
  if (∃ w, s.worker w = .waiting) → ∃ w, s.worker w = .waiting ∧ woken w = true then
    some { s with
      main := .unlock
      worker := fun w => if s.worker w = .waiting ∧ woken w = true then .relock else s.worker w }
  else none

/-- The loop on `full`, or what follows it up to `free_buffer`. Without a slot the worker reads
before the start of the buffer, and exits. -/
def workerTest (s : Server n_buffers n_threads) (w : Fin n_threads) : Server n_buffers n_threads :=
  if s.fill_count = 0 then { s.setWorker w .waiting with main_lock := none }
  else match get_buffer s with
    | (s, none) => { s with exited := true }
    | (s, some i) =>
      let connfd := (s.buffer i).conn_fd
      { s.setWorker w (.free i connfd) with returned := s.returned ++ [(w, connfd)] }

/-- `pthread_cond_signal(&empty)`: only `main` ever waits for it. -/
def wakeMain : MainPc n_buffers → MainPc n_buffers
  | .waiting connfd => .relock connfd
  | pc => pc

def run (s : Server n_buffers n_threads) : Event n_threads → Option (Server n_buffers n_threads)
  | .accept connfd =>
    match s.main with
    | .accept => some { s with main := .lock connfd }
    | _ => none
  | .mainLock =>
    match s.main, s.main_lock with
    | .lock connfd, none | .relock connfd, none =>
      some { s with main := .check connfd, main_lock := some .main }
    | _, _ => none
  | .mainTest =>
    match s.main with
    | .check connfd => some (mainTest s connfd)
    | _ => none
  | .mainStore =>
    match s.main with
    | .store connfd i => some (mainStore s connfd i)
    | _ => none
  | .mainSignal woken =>
    match s.main with
    | .signal => mainSignal s woken
    | _ => none
  | .mainUnlock =>
    match s.main with
    | .unlock => some { s with main := .accept, main_lock := none }
    | _ => none
  | .mainSpurious =>
    match s.main with
    | .waiting connfd => some { s with main := .relock connfd }
    | _ => none
  | .lock w =>
    match s.worker w, s.main_lock with
    | .lock, none | .relock, none =>
      some { s.setWorker w .check with main_lock := some (.worker w) }
    | _, _ => none
  | .test w =>
    match s.worker w with
    | .check => some (workerTest s w)
    | _ => none
  | .free w =>
    match s.worker w with
    | .free i connfd => some ((free_buffer s i).setWorker w (.signal connfd))
    | _ => none
  | .signal w =>
    match s.worker w with
    | .signal connfd => some { s.setWorker w (.unlock connfd) with main := wakeMain s.main }
    | _ => none
  | .unlock w =>
    match s.worker w with
    | .unlock connfd => some { s.setWorker w (.handle connfd) with main_lock := none }
    | _ => none
  | .handle w =>
    match s.worker w with
    | .handle _ => some (s.setWorker w .lock)
    | _ => none
  | .spurious w =>
    match s.worker w with
    | .waiting => some (s.setWorker w .relock)
    | _ => none

/-- The whole process ends with `exit`. -/
def step (s : Server n_buffers n_threads) (a : Event n_threads) :
    Option (Server n_buffers n_threads) := if s.exited then none else run s a

end IntroToOS.WebServer

import IntroToOS.Lib.Bytes
import IntroToOS.Lib.Ring
import IntroToOS.Lib.Run
import Mathlib.Data.Fintype.Basic

/-! # Pipes

Translated from `kernel/pipe.c`, which is the same file in all xv6 projects, with `sleep`, `wakeup`
and `kill` of `proc.c` as far as a pipe is concerned. The processes interleave: `acquire`, `sleep`,
`wakeup`, `release` and every turn of a loop are steps of their own, and a process may be killed
between any two of them. `sleep` gives the lock up and goes to sleep in one step, since `wakeup`
and `kill` need `ptable.lock`.

`stored` and `replies` are not in the source: they record the bytes that are written into the pipe,
with the process that writes them, and the calls that have returned. `frees` counts the calls of
`kfree`.
-/

namespace IntroToOS.Pipes
open Lib
set_option autoImplicit false

abbrev PIPESIZE : ℕ := 512

/-- `struct pipe` without its lock. -/
structure Pipe where
  data : ℕ → Byte
  nread : BitVec 32 := 0
  nwrite : BitVec 32 := 0
  readopen : Bool := true
  writeopen : Bool := true

namespace Pipe

/-- `p->data[p->nwrite++ % PIPESIZE] = b`. -/
def put (p : Pipe) (b : Byte) : Pipe :=
  { p with
    data := Function.update p.data (Ring.cell PIPESIZE p.nwrite) b
    nwrite := p.nwrite + 1 }

/-- `p->data[p->nread++ % PIPESIZE]`. -/
def take (p : Pipe) : Byte × Pipe :=
  (p.data (Ring.cell PIPESIZE p.nread), { p with nread := p.nread + 1 })

end Pipe

/-- The two addresses that processes sleep on. -/
inductive Chan
  | nread
  | nwrite
  deriving DecidableEq

/-- A call in progress: `pipewrite` before its byte `i`, `piperead` before its copy loop, or
`pipeclose`. -/
inductive Call
  | write (addr : ℕ → Byte) (n : ℤ) (i : ℕ)
  | read (n : ℤ)
  | close (writable : Bool)

/-- What a call returns: a write whether it is complete, and how many bytes it has stored, a read
the bytes, `none` for -1. -/
inductive Reply
  | write (addr : ℕ → Byte) (n : ℤ) (i : ℕ) (ok : Bool)
  | read (n : ℤ) (bytes : Option (List Byte))
  | close (writable : Bool)

/-- Where a process is. In `run`, `wake`, `doze`, `copy`, `finish` and `leave` it has the lock. -/
inductive Pc
  | out
  | enter (c : Call)
  | run (c : Call)
  | wake (c : Call)
  | doze (c : Call)
  | asleep (c : Call)
  | woken (c : Call)
  | copy (n : ℤ) (bytes : List Byte)
  | finish (r : Reply)
  | leave (r : Reply)
  | free

structure State (T : Type) where
  pipe : Pipe
  lock : Option T := none
  pc : T → Pc := fun _ => .out
  killed : T → Bool := fun _ => false
  frees : ℕ := 0
  stored : List (T × Byte) := []
  replies : List (T × Reply) := []

/-- After `pipealloc`, with whatever `kalloc` has left in the page. -/
def pipealloc {T : Type} (page : ℕ → Byte) : State T := { pipe := { data := page } }

/-- The channel that a call sleeps on. -/
def Call.chan : Call → Option Chan
  | .write .. => some .nwrite
  | .read _ => some .nread
  | .close _ => none

/-- The channel of the last `wakeup` of a call. -/
def Reply.chan : Reply → Chan
  | .write .. => .nread
  | .read .. => .nwrite
  | .close writable => if writable then .nread else .nwrite

/-- `wakeup1`. -/
def wakePc (chan : Chan) : Pc → Pc
  | .asleep c => if c.chan = some chan then .woken c else .asleep c
  | pc => pc

variable {T : Type} [DecidableEq T]

namespace State

def goto (s : State T) (t : T) (pc : Pc) : State T := { s with pc := Function.update s.pc t pc }

def wakeup (s : State T) (chan : Chan) : State T := { s with pc := fun t => wakePc chan (s.pc t) }

end State

/-- One turn of the loop of `pipewrite`, up to the calls of `wakeup` and `sleep`. -/
def pipewrite (s : State T) (t : T) (addr : ℕ → Byte) (n : ℤ) (i : ℕ) : State T :=
  if (i : ℤ) < n then
    if s.pipe.nwrite = s.pipe.nread + .ofNat 32 PIPESIZE then
      if s.pipe.readopen = false ∨ s.killed t = true then s.goto t (.leave (.write addr n i false))
      else s.goto t (.wake (.write addr n i))
    else
      { s.goto t (.run (.write addr n (i + 1))) with
        pipe := s.pipe.put (addr i)
        stored := s.stored ++ [(t, addr i)] }
  else s.goto t (.finish (.write addr n i true))

/-- The `while` loop of `piperead`. -/
def piperead (s : State T) (t : T) (n : ℤ) : State T :=
  if s.pipe.nread = s.pipe.nwrite ∧ s.pipe.writeopen = true then
    if s.killed t then s.goto t (.leave (.read n none)) else s.goto t (.doze (.read n))
  else s.goto t (.copy n [])

/-- One turn of the copy loop of `piperead`. -/
def pipecopy (s : State T) (t : T) (n : ℤ) (bytes : List Byte) : State T :=
  if (bytes.length : ℤ) < n ∧ s.pipe.nread ≠ s.pipe.nwrite then
    { s.goto t (.copy n (bytes ++ [s.pipe.take.1])) with pipe := s.pipe.take.2 }
  else s.goto t (.finish (.read n (some bytes)))

/-- The first assignment of `pipeclose`. -/
def pipeclose (s : State T) (t : T) (writable : Bool) : State T :=
  { s.goto t (.finish (.close writable)) with
    pipe := if writable then { s.pipe with writeopen := false }
      else { s.pipe with readopen := false } }

/-- The test at the end of `pipeclose`, made before the lock is released. -/
def lastClose (p : Pipe) : Reply → Bool
  | .close _ => !p.readopen && !p.writeopen
  | _ => false

/-- `release`; after the last `pipeclose` the pipe has still to be freed. -/
def leave (s : State T) (t : T) (r : Reply) : State T :=
  { s.goto t (if lastClose s.pipe r then .free else .out) with
    lock := none, replies := s.replies ++ [(t, r)] }

/-- The next step of a process. -/
def go (s : State T) (t : T) : Option (State T) :=
  match s.pc t with
  | .out | .asleep _ => none
  | .enter c | .woken c =>
    if s.lock = none then some { s.goto t (.run c) with lock := some t } else none
  | .run (.write addr n i) => some (pipewrite s t addr n i)
  | .run (.read n) => some (piperead s t n)
  | .run (.close writable) => some (pipeclose s t writable)
  | .wake c => some ((s.wakeup .nread).goto t (.doze c))
  | .doze c => some { s.goto t (.asleep c) with lock := none }
  | .copy n bytes => some (pipecopy s t n bytes)
  | .finish r => some ((s.wakeup r.chan).goto t (.leave r))
  | .leave r => some (leave s t r)
  | .free => some { s.goto t .out with frees := s.frees + 1 }

/-- A process that is killed in its sleep becomes RUNNABLE. -/
def killPc : Pc → Pc
  | .asleep c => .woken c
  | pc => pc

/-- `kill` of `proc.c`. -/
def kill (s : State T) (t : T) : State T :=
  { s.goto t (killPc (s.pc t)) with killed := Function.update s.killed t true }

inductive Event (T : Type)
  | call (t : T) (c : Call)
  | go (t : T)
  | kill (t : T)

/-- Whether a call starts at its beginning. -/
def Call.fresh : Call → Bool
  | .write _ _ i => i = 0
  | _ => true

def step (s : State T) : Event T → Option (State T)
  | .call t c =>
    match s.pc t with
    | .out => if c.fresh then some (s.goto t (.enter c)) else none
    | _ => none
  | .go t => go s t
  | .kill t => some (kill s t)

/-! ## What the file layer promises -/

/-- The end of the pipe that a call belongs to, `true` for the write end. -/
def Call.writable : Call → Bool
  | .write .. => true
  | .read _ => false
  | .close writable => writable

def Reply.writable : Reply → Bool
  | .write .. => true
  | .read .. => false
  | .close writable => writable

/-- The end that a process is using. -/
def Pc.using : Pc → Option Bool
  | .out | .free => none
  | .enter c | .run c | .wake c | .doze c | .asleep c | .woken c => some c.writable
  | .copy .. => some false
  | .finish r | .leave r => some r.writable

def Call.isClose : Call → Bool
  | .close _ => true
  | _ => false

/-- The process is in `pipeclose` of this end, before the assignment. -/
def Pc.closes (writable : Bool) : Pc → Bool
  | .enter c | .run c | .wake c | .doze c | .asleep c | .woken c =>
    c.isClose && c.writable == writable
  | _ => false

def Pipe.isOpen (p : Pipe) (writable : Bool) : Bool := if writable then p.writeopen else p.readopen

/-- A call is made through an open file. `fileclose` closes an end with the last reference, so that no
other call on that end is in progress. -/
def Promised (s : State T) : Event T → Prop
  | .call _ c => s.pipe.isOpen c.writable = true ∧ (∀ u, (s.pc u).closes c.writable = false) ∧
    (c.isClose = true → ∀ u, (s.pc u).using ≠ some c.writable)
  | _ => True

instance Promised.decidable [Fintype T] (s : State T) : ∀ a, Decidable (Promised s a)
  | .call _ _ => inferInstanceAs (Decidable (_ ∧ _ ∧ _))
  | .go _ | .kill _ => isTrue trivial

end IntroToOS.Pipes

import IntroToOS.Lib.Bytes
import IntroToOS.Lib.Ring
import IntroToOS.Lib.Run

/-! # The console

`consoleintr` and `consoleread`, translated from `kernel/console.c`, which is the same file in all xv6
projects. The keyboard, the serial line and any number of processes that read interleave. What is done
under `input.lock` is one step: `consoleintr` has it for all the characters that `getc` returns, and
`consoleread` from its `acquire` until it goes to sleep or returns.

`screen` is what `consputc` has been called with, `none` for `BACKSPACE`. Left out are the output of
`procdump`, the inode lock and `consolewrite`, whose characters would only stand between those of the
lines. `history`, `taken` and `replies` are not in the source: they record the characters that
have been given to the readers, those that the readers have taken, and the calls that have returned.
-/

namespace IntroToOS.Console
open Lib
set_option autoImplicit false

abbrev INPUT_BUF : ℕ := 128

/-- `input` without its lock. -/
structure Input where
  buf : ℕ → Byte
  r : BitVec 32 := 0
  w : BitVec 32 := 0
  e : BitVec 32 := 0

/-- `C(x)`. -/
def ctrl (x : Char) : Byte := .ofNat 8 x.toNat - .ofNat 8 '@'.toNat

def newline : Byte := .ofNat 8 '\n'.toNat

def carriageReturn : Byte := .ofNat 8 '\r'.toNat

/-- Where a process is: in `enter` and `woken` it is about to acquire the lock. -/
inductive Pc
  | out
  | enter (n : ℤ)
  | asleep (n : ℤ) (dst : List Byte)
  | woken (n : ℤ) (dst : List Byte)
  deriving DecidableEq

/-- What `consoleread` returns: what it has copied, nothing since it has met the end of the file, or
-1. -/
inductive Reply
  | copied (n : ℤ) (dst : List Byte)
  | eof (n : ℤ)
  | interrupted (n : ℤ) (dst : List Byte)

structure State (T : Type) where
  input : Input
  screen : List (Option Byte) := []
  pc : T → Pc := fun _ => .out
  killed : T → Bool := fun _ => false
  history : List Byte := []
  taken : List (T × Byte) := []
  replies : List (T × Reply) := []

variable {T : Type} [DecidableEq T]

namespace State

def goto (s : State T) (t : T) (pc : Pc) : State T := { s with pc := Function.update s.pc t pc }

/-- `wakeup(&input.r)`. -/
def wakeup (s : State T) : State T :=
  { s with pc := fun t => match s.pc t with
    | .asleep n dst => .woken n dst
    | pc => pc }

/-- The last character is erased. -/
def erase (s : State T) : State T :=
  { s with input := { s.input with e := s.input.e - 1 }, screen := s.screen ++ [none] }

/-- A character is stored and echoed. -/
def put (s : State T) (c : Byte) : State T :=
  { s with
    input := { s.input with
      buf := Function.update s.input.buf (Ring.cell INPUT_BUF s.input.e) c
      e := s.input.e + 1 }
    screen := s.screen ++ [some c] }

/-- How many characters have not been given to the readers. -/
def editing (s : State T) : ℕ := (s.input.e - s.input.w).toNat

/-- How many characters there are for the readers. -/
def waiting (s : State T) : ℕ := (s.input.w - s.input.r).toNat

/-- `input.w = input.e`. -/
def commit (s : State T) : State T :=
  { s with
    input := { s.input with w := s.input.e }
    history := s.history ++ Ring.contents INPUT_BUF s.input.buf s.input.w s.editing }

end State

/-- `C('U')`: the loop turns `s.editing` times at most. -/
def killLine : ℕ → State T → State T
  | 0, s => s
  | fuel + 1, s =>
    if s.input.e ≠ s.input.w ∧ s.input.buf (Ring.cell INPUT_BUF (s.input.e - 1)) ≠ newline then
      killLine fuel s.erase
    else s

/-- The end of the `default` case, after a character has been stored. -/
def ended (s : State T) (c : Byte) : Bool :=
  c = newline ∨ c = ctrl 'D' ∨ s.input.e = s.input.r + .ofNat 32 INPUT_BUF

/-- One character of `getc`. -/
def key (s : State T) (c : Byte) : State T :=
  if c = ctrl 'P' then s
  else if c = ctrl 'U' then killLine s.editing s
  else if c = ctrl 'H' ∨ c = 0x7f then if s.input.e ≠ s.input.w then s.erase else s
  else if c ≠ 0 ∧ (s.input.e - s.input.r).toNat < INPUT_BUF then
    let c := if c = carriageReturn then newline else c
    let s := s.put c
    if ended s c then s.commit.wakeup else s
  else s

def consoleintr (s : State T) (getc : List Byte) : State T := getc.foldl key s

/-- `release` and the `return` of `consoleread`. -/
def State.leave (s : State T) (t : T) (r : Reply) : State T :=
  { s.goto t .out with replies := s.replies ++ [(t, r)] }

/-- `input.r++`. -/
def State.take (s : State T) (t : T) : State T :=
  { s with
    input := { s.input with r := s.input.r + 1 }
    taken := s.taken ++ [(t, s.input.buf (Ring.cell INPUT_BUF s.input.r))] }

/-- The loops of `consoleread`, which has copied `dst`. They turn `s.waiting + 1` times at most. Only
what is not put back by `input.r--` is recorded as taken. -/
def consoleread : ℕ → State T → T → ℤ → List Byte → State T
  | 0, s, _, _, _ => s
  | fuel + 1, s, t, n, dst =>
    if n ≤ dst.length then s.leave t (.copied n dst)
    else if s.input.r = s.input.w then
      if s.killed t then s.leave t (.interrupted n dst) else s.goto t (.asleep n dst)
    else
      let c := s.input.buf (Ring.cell INPUT_BUF s.input.r)
      if c = ctrl 'D' then
        if dst = [] then (s.take t).leave t (.eof n) else s.leave t (.copied n dst)
      else if c = newline then (s.take t).leave t (.copied n (dst ++ [c]))
      else consoleread fuel (s.take t) t n (dst ++ [c])

inductive Event (T : Type)
  | intr (getc : List Byte)
  | read (t : T) (n : ℤ)
  | go (t : T)
  | kill (t : T)

def killPc : Pc → Pc
  | .asleep n dst => .woken n dst
  | pc => pc

def kill (s : State T) (t : T) : State T :=
  { s.goto t (killPc (s.pc t)) with killed := Function.update s.killed t true }

def step (s : State T) : Event T → Option (State T)
  | .intr getc => some (consoleintr s getc)
  | .read t n => if s.pc t = .out then some (s.goto t (.enter n)) else none
  | .go t =>
    match s.pc t with
    | .enter n => some (consoleread (s.waiting + 1) s t n [])
    | .woken n dst => some (consoleread (s.waiting + 1) s t n dst)
    | .out | .asleep .. => none
  | .kill t => some (kill s t)

/-- At boot. -/
def State.init (buf : ℕ → Byte) : State T := { input := { buf := buf } }

end IntroToOS.Console

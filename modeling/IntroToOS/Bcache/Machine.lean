import IntroToOS.Lib.Run
import Mathlib.Algebra.Order.Ring.Nat
import Mathlib.Data.Fintype.Basic
import Mathlib.Data.List.FinRange
import Mathlib.Logic.Function.Basic

/-! # The buffer cache and the disk driver

Translated from `kernel/bio.c` and `kernel/ide.c`, which are the same files in all xv6 projects. The
processes and the interrupt handler interleave. What is done under a lock without an `acquire`, a
`release`, a `sleep` or a `wakeup` in between is one step, and `sleep` gives its lock up and goes to
sleep in one step; a process may be woken at any time, by `kill` or by a `wakeup` that is meant for
another one. The links of the list of buffers are the order of `lru`, the most recently used one
first, and those of the disk queue the order of `idequeue`.

The disk executes its commands in their order, so that a command to write has happened once it has
been issued. `handle false` is an interrupt after which `idewait` reports an error. What `data` holds
is left open.

Not in the source: `owner` is the process that `bget` has given the buffer to, `modified` says that it
has changed the data since the last `bwrite`, `released` gives the time of the last `brelse`, `asked`
is what a process has called `bread` for, and `started` is the buffer whose command the disk executes.
-/

namespace IntroToOS.Bcache
open Lib
set_option autoImplicit false

/-- Size of disk block cache. -/
abbrev NBUF : ℕ := 10

abbrev BufId := Fin NBUF

structure Buf (D : Type) where
  busy : Bool := false
  valid : Bool := false
  dirty : Bool := false
  dev : BitVec 32
  sector : BitVec 32
  data : D

inductive Panic
  | bget
  | bwrite
  | brelse
  | notBusy
  | nothingToDo
  | noDisk1
  deriving DecidableEq

/-- What `iderw` is called for. -/
inductive Rw
  | bread
  | bwrite
  deriving DecidableEq

/-- Where a process is; in `out` it is in code that uses the cache. In `scan`, `move`, `wake` and
`unlock` it has `bcache.lock`, in `append` and `wait` it has `idelock`. -/
inductive Pc
  | out
  | get (dev sector : BitVec 32)
  | scan (dev sector : BitVec 32)
  | asleepGet (b : BufId) (dev sector : BitVec 32)
  | wokenGet (dev sector : BitVec 32)
  | got (b : BufId)
  | iderw (b : BufId) (k : Rw)
  | enter (b : BufId) (k : Rw)
  | append (b : BufId) (k : Rw)
  | wait (b : BufId) (k : Rw)
  | asleepIde (b : BufId) (k : Rw)
  | wokenIde (b : BufId) (k : Rw)
  | brelse (b : BufId)
  | move (b : BufId)
  | wake (b : BufId)
  | unlock
  deriving DecidableEq

/-- Where `ideintr` is. From `run` on it has `idelock`. -/
inductive Handler
  | idle
  | enter
  | run
  | wake (b : BufId)
  | start
  deriving DecidableEq

/-- Who can have `idelock`. -/
inductive Agent (T : Type)
  | proc (t : T)
  | handler
  deriving DecidableEq

/-- What the drive is told of a device and a sector. -/
def ideAddr (dev sector : BitVec 32) : Bool × BitVec 28 := (dev.getLsbD 0, sector.setWidth 28)

structure Cache (T D : Type) where
  buf : BufId → Buf D
  lru : List BufId
  bcacheLock : Option T := none
  idequeue : List BufId := []
  idelock : Option (Agent T) := none
  disk : Bool × BitVec 28 → D
  havedisk1 : Bool
  pc : T → Pc := fun _ => .out
  handler : Handler := .idle
  panicked : Option Panic := none
  owner : BufId → Option T := fun _ => none
  modified : BufId → Bool := fun _ => false
  clock : ℕ := NBUF
  released : BufId → ℕ
  asked : T → BitVec 32 × BitVec 32 := fun _ => (0, 0)
  started : Option BufId := none

/-- `binit` puts every buffer at the head of the list. -/
def binit {T D : Type} (data : BufId → D) (disk : Bool × BitVec 28 → D) (havedisk1 : Bool) :
    Cache T D where
  buf b := { dev := -1, sector := 0, data := data b }
  lru := (List.finRange NBUF).foldl (fun l b => b :: l) []
  disk := disk
  havedisk1 := havedisk1
  released b := b

variable {T D : Type} [DecidableEq T]

namespace Cache

def setBuf (s : Cache T D) (b : BufId) (x : Buf D) : Cache T D :=
  { s with buf := Function.update s.buf b x }

def goto (s : Cache T D) (t : T) (pc : Pc) : Cache T D := { s with pc := Function.update s.pc t pc }

def panic (s : Cache T D) (p : Panic) : Cache T D := { s with panicked := some p }

end Cache

/-- `wakeup(b)`, for a process in `bget` or in `iderw`. -/
def wakePc (b : BufId) : Pc → Pc
  | .asleepGet c dev sector => if c = b then .wokenGet dev sector else .asleepGet c dev sector
  | .asleepIde c k => if c = b then .wokenIde c k else .asleepIde c k
  | pc => pc

def wakeup (s : Cache T D) (b : BufId) : Cache T D := { s with pc := fun t => wakePc b (s.pc t) }

/-! ## bio.c -/

def holds (s : Cache T D) (dev sector : BitVec 32) (b : BufId) : Bool :=
  (s.buf b).dev = dev ∧ (s.buf b).sector = sector

/-- The first loop of `bget`. -/
def cached (s : Cache T D) (dev sector : BitVec 32) : Option BufId :=
  s.lru.find? (holds s dev sector)

/-- The second loop of `bget`. -/
def victim (s : Cache T D) : Option BufId := s.lru.reverse.find? fun b => !(s.buf b).busy

/-- `bget` returns the buffer. -/
def give (s : Cache T D) (t : T) (b : BufId) (x : Buf D) : Cache T D :=
  { (s.setBuf b { x with busy := true }).goto t (.got b) with
    bcacheLock := none
    owner := Function.update s.owner b (some t)
    modified := Function.update s.modified b false }

/-- From `loop` on, until the lock is released. -/
def bget (s : Cache T D) (t : T) (dev sector : BitVec 32) : Cache T D :=
  match cached s dev sector with
  | some b =>
    if (s.buf b).busy then { s.goto t (.asleepGet b dev sector) with bcacheLock := none }
    else give s t b (s.buf b)
  | none =>
    match victim s with
    | some b => give s t b { dev := dev, sector := sector, data := (s.buf b).data }
    | none => s.panic .bget

/-- The buffer is taken out of the list and put at its head. -/
def moveToFront (s : Cache T D) (t : T) (b : BufId) : Cache T D :=
  { (s.setBuf b { s.buf b with busy := false }).goto t (.wake b) with
    lru := b :: s.lru.erase b
    owner := Function.update s.owner b none
    clock := s.clock + 1
    released := Function.update s.released b s.clock }

/-! ## ide.c -/

/-- A command to write takes the data along. -/
def idestart (s : Cache T D) (b : BufId) : Cache T D :=
  let x := s.buf b
  { s with
    disk := if x.dirty then Function.update s.disk (ideAddr x.dev x.sector) x.data else s.disk
    started := some b }

/-- The checks of `iderw`. -/
def iderw (s : Cache T D) (t : T) (b : BufId) (k : Rw) : Cache T D :=
  let x := s.buf b
  if x.busy = false then s.panic .notBusy
  else if x.valid = true ∧ x.dirty = false then s.panic .nothingToDo
  else if x.dev ≠ 0 ∧ s.havedisk1 = false then s.panic .noDisk1
  else s.goto t (.enter b k)

/-- The buffer is appended to the queue; if it is the first one, the disk is started. -/
def enqueue (s : Cache T D) (t : T) (b : BufId) (k : Rw) : Cache T D :=
  let s := { s.goto t (.wait b k) with idequeue := s.idequeue ++ [b] }
  if s.idequeue.head? = some b then idestart s b else s

/-- The request has been served. -/
def Buf.served {D : Type} (x : Buf D) : Bool := x.valid && !x.dirty

/-- One turn of the loop at the end of `iderw`. -/
def waitIde (s : Cache T D) (t : T) (b : BufId) (k : Rw) : Cache T D :=
  if (s.buf b).served then { s.goto t .out with idelock := none }
  else { s.goto t (.asleepIde b k) with idelock := none }

/-- `ideintr` from its `acquire` up to the `wakeup`. -/
def ideintr (s : Cache T D) (ok : Bool) : Cache T D :=
  match s.idequeue with
  | [] => { s with idelock := none, handler := .idle }
  | b :: queue =>
    let x := s.buf b
    let data := if x.dirty = false ∧ ok = true then s.disk (ideAddr x.dev x.sector) else x.data
    { s.setBuf b { x with valid := true, dirty := false, data := data } with
      idequeue := queue
      handler := .wake b
      started := none }

/-- The disk is started on the next buffer in the queue. -/
def startNext (s : Cache T D) : Cache T D :=
  let s := match s.idequeue with
    | [] => s
    | b :: _ => idestart s b
  { s with idelock := none, handler := .idle }

/-! ## Steps -/

def go (s : Cache T D) (t : T) : Option (Cache T D) :=
  match s.pc t with
  | .out | .asleepGet .. | .asleepIde .. => none
  | .get dev sector | .wokenGet dev sector =>
    if s.bcacheLock = none then some { s.goto t (.scan dev sector) with bcacheLock := some t } else none
  | .scan dev sector => some (bget s t dev sector)
  | .got b => some (s.goto t (if (s.buf b).valid then .out else .iderw b .bread))
  | .iderw b k => some (iderw s t b k)
  | .enter b k =>
    if s.idelock = none then some { s.goto t (.append b k) with idelock := some (.proc t) } else none
  | .append b k => some (enqueue s t b k)
  | .wokenIde b k =>
    if s.idelock = none then some { s.goto t (.wait b k) with idelock := some (.proc t) } else none
  | .wait b k => some (waitIde s t b k)
  | .brelse b =>
    if s.bcacheLock = none then some { s.goto t (.move b) with bcacheLock := some t } else none
  | .move b => some (moveToFront s t b)
  | .wake b => some ((wakeup s b).goto t .unlock)
  | .unlock => some { s.goto t .out with bcacheLock := none }

def handle (s : Cache T D) (ok : Bool) : Option (Cache T D) :=
  match s.handler with
  | .idle => some { s with handler := .enter }
  | .enter =>
    if s.idelock = none then some { s with idelock := some .handler, handler := .run } else none
  | .run => some (ideintr s ok)
  | .wake b => some { wakeup s b with handler := .start }
  | .start => some (startNext s)

/-- A process that is killed in its sleep becomes RUNNABLE. -/
def killPc : Pc → Pc
  | .asleepGet _ dev sector => .wokenGet dev sector
  | .asleepIde b k => .wokenIde b k
  | pc => pc

inductive Event (T D : Type)
  | bread (t : T) (dev sector : BitVec 32)
  | modify (t : T) (b : BufId) (data : D)
  | bwrite (t : T) (b : BufId)
  | brelse (t : T) (b : BufId)
  | go (t : T)
  | handle (ok : Bool)
  | kill (t : T)

def bwrite (s : Cache T D) (t : T) (b : BufId) : Cache T D :=
  if (s.buf b).busy = false then s.panic .bwrite
  else { (s.setBuf b { s.buf b with dirty := true }).goto t (.iderw b .bwrite) with
    modified := Function.update s.modified b false }

def brelse (s : Cache T D) (t : T) (b : BufId) : Cache T D :=
  if (s.buf b).busy = false then s.panic .brelse else s.goto t (.brelse b)

def modify (s : Cache T D) (b : BufId) (data : D) : Cache T D :=
  { s.setBuf b { s.buf b with data := data } with modified := Function.update s.modified b true }

def run (s : Cache T D) : Event T D → Option (Cache T D)
  | .bread t dev sector =>
    if s.pc t = .out then
      some { s.goto t (.get dev sector) with asked := Function.update s.asked t (dev, sector) }
    else none
  | .modify t b data => if s.pc t = .out then some (modify s b data) else none
  | .bwrite t b => if s.pc t = .out then some (bwrite s t b) else none
  | .brelse t b => if s.pc t = .out then some (brelse s t b) else none
  | .go t => go s t
  | .handle ok => handle s ok
  | .kill t => some (s.goto t (killPc (s.pc t)))

/-- A panic stops the machine. -/
def step (s : Cache T D) (a : Event T D) : Option (Cache T D) :=
  if s.panicked = none then run s a else none

/-! ## What the users of the cache promise -/

/-- A sector that there is a drive for and that the drive can be told. -/
def Addressable (havedisk1 : Bool) (dev sector : BitVec 32) : Prop :=
  dev.toNat ≤ 1 ∧ sector.toNat < 2 ^ 28 ∧ (dev ≠ 0 → havedisk1 = true)

instance (havedisk1 : Bool) (dev sector : BitVec 32) :
    Decidable (Addressable havedisk1 dev sector) := inferInstanceAs (Decidable (_ ∧ _ ∧ _))

/-- A buffer is used by the process that `bread` has returned it to, until its `brelse`, and `bwrite`
is called after changing the data. -/
def Promised (s : Cache T D) : Event T D → Prop
  | .bread _ dev sector => Addressable s.havedisk1 dev sector
  | .modify t b _ | .bwrite t b => s.owner b = some t
  | .brelse t b => s.owner b = some t ∧ s.modified b = false
  | _ => True

instance (s : Cache T D) : ∀ a, Decidable (Promised s a)
  | .bread .. => inferInstanceAs (Decidable (Addressable ..))
  | .modify t b _ | .bwrite t b => inferInstanceAs (Decidable (s.owner b = some t))
  | .brelse t b => inferInstanceAs (Decidable (s.owner b = some t ∧ s.modified b = false))
  | .go _ | .handle _ | .kill _ => isTrue trivial

end IntroToOS.Bcache

import IntroToOS.Lib.Fold
import IntroToOS.Lib.Run
import Mathlib.Algebra.Order.Ring.Int
import Mathlib.Algebra.Order.Ring.Nat
import Mathlib.Logic.Function.Basic

/-! # `malloc` and `free` of Project4b

Translated from `Project4b/xv6/user/umalloc.c`, with `sys_sbrk` and what it calls in the kernel for a
process that is alone in its address space. Pointers and sizes are `uint`; a header takes 8 bytes
and is the unit of every size. `base` is the address of the static header.

Memory is a table of headers, since the allocator reads nothing else. An access to a page that is
not mapped kills the process (`fault`), an `xchg` that finds the lock taken spins for ever (`spin`),
and a loop that has used its fuel is still running.
-/

namespace IntroToOS.Threads.Umalloc
open Lib
set_option autoImplicit false

abbrev PGSIZE : ℕ := 4096
abbrev USERTOP : ℕ := 0xA0000

def pages (sz : ℕ) : ℕ := (sz + PGSIZE - 1) / PGSIZE

structure Header where
  ptr : ℕ
  size : ℕ
  deriving DecidableEq, Inhabited

structure Proc where
  mem : ℕ → Header
  freep : ℕ := 0
  alloc_lock : Bool := false
  sz : ℕ
  mapped : ℕ → Bool

inductive Stop
  | fault
  | spin
  | running
  deriving DecidableEq

abbrev Prog := Except Stop

/-! ## Memory -/

/-- `p->s.ptr` -/
def ptr (s : Proc) (p : ℕ) : Prog ℕ :=
  if s.mapped (p / PGSIZE) then .ok (s.mem p).ptr else .error .fault

/-- `p->s.size` -/
def size (s : Proc) (p : ℕ) : Prog ℕ :=
  if s.mapped ((p + 4) / PGSIZE) then .ok (s.mem p).size else .error .fault

def Proc.putPtr (s : Proc) (p v : ℕ) : Proc :=
  { s with mem := Function.update s.mem p { s.mem p with ptr := v } }

def Proc.putSize (s : Proc) (p v : ℕ) : Proc :=
  { s with mem := Function.update s.mem p { s.mem p with size := v } }

def setPtr (s : Proc) (p v : ℕ) : Prog Proc :=
  if s.mapped (p / PGSIZE) then .ok (s.putPtr p v) else .error .fault

def setSize (s : Proc) (p v : ℕ) : Prog Proc :=
  if s.mapped ((p + 4) / PGSIZE) then .ok (s.putSize p v) else .error .fault

/-- `p + k` for a `Header *`. -/
def padd (p k : ℕ) : ℕ := (p + 8 * k) % 2 ^ 32

/-! ## `sbrk` -/

/-- The pages that a size of `hi` bytes has and one of `lo` bytes has not. -/
def Added (lo hi v : ℕ) : Prop := pages lo ≤ v ∧ v < pages hi

instance (lo hi v : ℕ) : Decidable (Added lo hi v) := inferInstanceAs (Decidable (_ ∧ _))

/-- The new size, 0 on error; `frames` is the number of free frames. What has been allocated before
the memory runs out is given back. -/
def allocuvm (s : Proc) (frames oldsz newsz : ℕ) : Proc × ℕ :=
  if USERTOP < newsz then (s, 0)
  else if newsz < oldsz then (s, oldsz)
  else if frames < pages newsz - pages oldsz then (s, 0)
  else ({ s with
    mapped := fun v => s.mapped v || decide (Added oldsz newsz v)
    mem := fun p => if Added oldsz newsz (p / PGSIZE) then ⟨0, 0⟩ else s.mem p }, newsz)

def deallocuvm (s : Proc) (oldsz newsz : ℕ) : Proc × ℕ :=
  if oldsz ≤ newsz then (s, oldsz)
  else ({ s with mapped := fun v => s.mapped v && !decide (Added newsz oldsz v) }, newsz)

/-- A size of 0 is taken for an error. -/
def growproc (s : Proc) (frames : ℕ) (n : ℤ) : Proc × Bool :=
  let newsz := ((s.sz + n) % 2 ^ 32).toNat
  let (s, sz) := if 0 < n then allocuvm s frames s.sz newsz
    else if n < 0 then deallocuvm s s.sz newsz else (s, s.sz)
  if n ≠ 0 ∧ sz = 0 then (s, false) else ({ s with sz }, true)

/-- `(char *)-1` -/
def FAILED : ℕ := 2 ^ 32 - 1

def sys_sbrk (s : Proc) (frames : ℕ) (n : ℤ) : Proc × ℕ :=
  match growproc s frames n with
  | (t, false) => (t, FAILED)
  | (t, true) => (t, s.sz)

/-! ## The lock -/

def lock_acquire (s : Proc) : Prog Proc :=
  if s.alloc_lock then .error .spin else .ok { s with alloc_lock := true }

def lock_release (s : Proc) : Proc := { s with alloc_lock := false }

/-! ## `free` -/

/-- The loop that looks for the free block behind which `bp` belongs. -/
def locate : ℕ → Proc → ℕ → ℕ → Prog ℕ
  | 0, _, _, _ => .error .running
  | fuel + 1, s, bp, p => do
    let q ← ptr s p
    if p < bp ∧ bp < q then .ok p
    else if q ≤ p ∧ (p < bp ∨ bp < q) then .ok p
    else locate fuel s bp q

/-- `bp` is put in front of `q`, the block behind `p`, or takes it in. -/
def joinUpper (s : Proc) (bp q : ℕ) : Prog Proc := do
  let n ← size s bp
  if padd bp n = q then do
    let m ← size s q
    let s ← setSize s bp ((n + m) % 2 ^ 32)
    let r ← ptr s q
    setPtr s bp r
  else setPtr s bp q

/-- `bp` is put behind `p`, or `p` takes it in. -/
def joinLower (s : Proc) (p bp : ℕ) : Prog Proc := do
  let k ← size s p
  if padd p k = bp then do
    let n ← size s bp
    let s ← setSize s p ((k + n) % 2 ^ 32)
    let r ← ptr s bp
    setPtr s p r
  else setPtr s p bp

/-- What `free` and its copy do to the list. -/
def giveBack (fuel : ℕ) (s : Proc) (ap : ℕ) : Prog Proc := do
  let bp := (ap + (2 ^ 32 - 8)) % 2 ^ 32
  let p ← locate fuel s bp s.freep
  let q ← ptr s p
  let s ← joinUpper s bp q
  let s ← joinLower s p bp
  .ok { s with freep := p }

def copy_of_free (fuel : ℕ) (s : Proc) (ap : ℕ) : Prog Proc := giveBack fuel s ap

def free (fuel : ℕ) (s : Proc) (ap : ℕ) : Prog Proc := do
  let s ← lock_acquire s
  let s ← giveBack fuel s ap
  .ok (lock_release s)

/-! ## `malloc` -/

/-- The result is 0 when there is no memory, and otherwise `freep`. -/
def morecore (fuel frames : ℕ) (s : Proc) (nu : ℕ) : Prog (Proc × ℕ) :=
  let nu := max nu 4096
  match sys_sbrk s frames (BitVec.ofNat 32 (nu * 8)).toInt with
  | (s, p) =>
    if p = FAILED then .ok (s, 0)
    else do
      let s ← setSize s p nu
      let s ← copy_of_free fuel s (padd p 1)
      .ok (s, s.freep)

/-- A block of `nunits` units is taken from `p`, which has `n` units and is behind `prevp`. -/
def take (s : Proc) (nunits prevp p n : ℕ) : Prog (Proc × ℕ) :=
  if n = nunits then do
    let q ← ptr s p
    let s ← setPtr s prevp q
    .ok (lock_release { s with freep := prevp }, padd p 1)
  else do
    let s ← setSize s p (n - nunits)
    let p := padd p (n - nunits)
    let s ← setSize s p nunits
    .ok (lock_release { s with freep := prevp }, padd p 1)

/-- The loop of `malloc`. -/
def search (fuel frames nunits : ℕ) : ℕ → Proc → ℕ → ℕ → Prog (Proc × ℕ)
  | 0, _, _, _ => .error .running
  | turns + 1, s, prevp, p => do
    let n ← size s p
    if nunits ≤ n then take s nunits prevp p n
    else if p = s.freep then do
      let (s, p) ← morecore fuel frames s nunits
      if p = 0 then .ok (lock_release s, 0)
      else do
        let q ← ptr s p
        search fuel frames nunits turns s p q
    else do
      let q ← ptr s p
      search fuel frames nunits turns s p q

/-- The list is set up by the first call. -/
def initBase (base : ℕ) (s : Proc) : Prog Proc :=
  if s.freep = 0 then do
    let s ← setPtr s base base
    let s ← setSize s base 0
    .ok { s with freep := base }
  else .ok s

/-- `nbytes` rounded up to units, with one for the header. -/
def units (nbytes : ℕ) : ℕ := (nbytes + 7) % 2 ^ 32 / 8 + 1

/-- The result is 0 for `NULL`. -/
def malloc (base fuel frames : ℕ) (s : Proc) (nbytes : ℕ) : Prog (Proc × ℕ) := do
  let s ← lock_acquire s
  let s ← initBase base s
  let p ← ptr s s.freep
  search fuel frames (units nbytes) fuel s s.freep p

/-! ## Steps -/

/-- `live` are the blocks that have been returned and not freed, with the bytes that were asked for. -/
structure State where
  proc : Proc
  live : List (ℕ × ℕ) := []

/-- Besides calling the allocator, the program stores into its blocks. -/
inductive Call
  | malloc (nbytes : BitVec 32) (frames : ℕ)
  | free (ap : ℕ)
  | store (ap q : ℕ) (h : Header)

/-- `q` is a unit of a block of `e.2` bytes at `e.1`. -/
def Owns (e : ℕ × ℕ) (ap q : ℕ) : Prop := e.1 = ap ∧ ap ≤ q ∧ q < ap + e.2 ∧ (q - ap) % 8 = 0

instance (e : ℕ × ℕ) (ap q : ℕ) : Decidable (Owns e ap q) :=
  inferInstanceAs (Decidable (_ ∧ _ ∧ _ ∧ _))

/-- A call that returns, with the fuel for its loops. -/
def step (base : ℕ) (s : State) (a : Call × ℕ) : Option State :=
  match a.1 with
  | .malloc nbytes frames =>
    match malloc base a.2 frames s.proc nbytes.toNat with
    | .ok (t, ap) =>
      some { proc := t, live := if ap = 0 then s.live else (ap, nbytes.toNat) :: s.live }
    | .error _ => none
  | .free ap =>
    if ap ∈ s.live.map Prod.fst then
      (free a.2 s.proc ap).toOption.map fun t =>
        { proc := t, live := s.live.filter fun e => e.1 ≠ ap }
    else none
  | .store ap q h =>
    if ∃ e ∈ s.live, Owns e ap q then
      some { s with proc := { s.proc with mem := Function.update s.proc.mem q h } }
    else none

end IntroToOS.Threads.Umalloc

import IntroToOS.Lib.Fold
import IntroToOS.Lib.Run
import IntroToOS.SharedMemory.Syscall
import Mathlib.Data.List.FinRange

/-! # Memory and processes of Project3b

Translated from `Project3b/xv6/kernel/kalloc.c`, `vm.c`, `proc.c` and `exec.c`. A frame is the
number of a page of physical memory, and 0 is NULL. The kernel part of an address space is the same
in all page directories and never changes, so that of a directory only the page tables and the
entries of the user pages are kept; pages from `USERTOP` on count as present and as not accessible
to the user. The link in a free page is the order of `freelist`.

A call of a process is one step. Left out are what no modelled routine reads: files, names, trap
frames, and the scheduler, so that any RUNNABLE process may be the one that runs.
-/

namespace IntroToOS.SharedMemory
open Lib
set_option autoImplicit false

abbrev NPROC : ℕ := 64

instance : NeZero NPROC := ⟨by decide⟩
abbrev MAXARG : ℕ := 32
abbrev MAX_SHARED_PAGES_PER_KEY : ℕ := 4
abbrev MAX_SHARED_KEYS : ℕ := 8

/-- End of the memory that `kalloc` hands out. -/
abbrev PHYSTOP : ℕ := 0x1000000

abbrev Frame := ℕ
abbrev ProcId := Fin NPROC
abbrev Key := Fin MAX_SHARED_KEYS

/-- The pages below `USERTOP`, and those of the memory. -/
abbrev userPages : ℕ := USERTOP / PGSIZE
abbrev physPages : ℕ := PHYSTOP / PGSIZE

/-- The pages that `sz` bytes take. -/
def pages (sz : ℕ) : ℕ := (sz + PGSIZE - 1) / PGSIZE

theorem PGROUNDUP_eq (sz : ℕ) : PGROUNDUP sz = pages sz * PGSIZE := rfl

/-- Subtraction in `uint`. -/
def sub32 (a b : ℕ) : ℕ := (a + (2 ^ 32 - b % 2 ^ 32)) % 2 ^ 32

/-! ## State -/

/-- A page directory: its page tables and the entries of the user pages. -/
@[ext]
structure PageDir where
  tables : List Frame := []
  pte : ℕ → Option Frame := fun _ => none

inductive ProcState
  | UNUSED | EMBRYO | RUNNABLE | ZOMBIE
  deriving DecidableEq, Repr

structure Proc where
  state : ProcState := .UNUSED
  pid : ℕ := 0
  sz : ℕ := 0
  pgdir : Frame := 0
  kstack : Frame := 0
  parent : Option ProcId := none
  killed : Bool := false
  key_addresses : Key → ℕ := fun _ => 0
  current_top : ℕ := 0

structure KeysPages where
  addr : ℕ → Frame := fun _ => 0
  N : ℕ := 0
  refcount : ℤ := 0

structure Kernel where
  /-- The first frame behind the kernel, `PGROUNDUP(end) / PGSIZE`. -/
  kend : Frame
  freelist : List Frame := []
  mem : Frame → ℕ → Byte := fun _ _ => 1
  dir : Frame → PageDir := fun _ => {}
  spages : Key → KeysPages := fun _ => {}
  proc : ProcId → Proc := fun _ => {}
  initproc : Option ProcId := none
  nextpid : ℕ := 1

/-- Why a call does not return: one of the panics, a fault in the kernel, or sleep. -/
inductive Stop
  | kfree
  | remap
  | pageNotPresent
  | loaduvm
  | noPgdir
  | initExiting
  | pageFault
  | sleeps
  deriving DecidableEq, Repr

abbrev Kern := Except Stop

namespace Kernel

def setProc (s : Kernel) (p : ProcId) (x : Proc) : Kernel :=
  { s with proc := Function.update s.proc p x }

def setPage (s : Kernel) (f : Frame) (data : ℕ → Byte) : Kernel :=
  { s with mem := Function.update s.mem f data }

/-- `memmove` of the bytes to offset `o` of a frame. -/
def store (s : Kernel) (f : Frame) (o : ℕ) (bytes : List Byte) : Kernel :=
  s.setPage f fun x => if o ≤ x ∧ x < o + bytes.length then bytes.getD (x - o) 0 else s.mem f x

def setDir (s : Kernel) (d : Frame) (x : PageDir) : Kernel :=
  { s with dir := Function.update s.dir d x }

def setPte (s : Kernel) (d : Frame) (v : ℕ) (e : Option Frame) : Kernel :=
  s.setDir d { s.dir d with pte := Function.update (s.dir d).pte v e }

def setKey (s : Kernel) (k : Key) (x : KeysPages) : Kernel :=
  { s with spages := Function.update s.spages k x }

end Kernel

/-! ## Frames -/

def kalloc (s : Kernel) : Option (Frame × Kernel) :=
  match s.freelist with
  | [] => none
  | r :: rest => some (r, { s with freelist := rest })

/-- The page is filled with junk. -/
def kfree (s : Kernel) (v : Frame) : Kern Kernel :=
  if v < s.kend ∨ physPages ≤ v then .error .kfree
  else .ok { s.setPage v (fun _ => 1) with freelist := v :: s.freelist }

/-! ## Page tables -/

/-- The page tables that the four ranges of `kmap` need, as indices into the directory: the memory
up to `PHYSTOP` and the devices. -/
def kmap : List ℕ := List.range 4 ++ List.range' 1016 8

/-- The calls of `mappages` in `setupkvm`: a zeroed page table for every index. -/
def mapKernel (pgdir : Frame) : List ℕ → Kernel → Kernel × Bool
  | [], s => (s, true)
  | _ :: l, s =>
    match kalloc s with
    | none => (s, false)
    | some (pgtab, s) =>
      let s := s.setPage pgtab fun _ => 0
      mapKernel pgdir l
        (s.setDir pgdir { s.dir pgdir with tables := (s.dir pgdir).tables ++ [pgtab] })

def setupkvm (s : Kernel) : Kernel × Option Frame :=
  match kalloc s with
  | none => (s, none)
  | some (pgdir, s) =>
    match mapKernel pgdir kmap ((s.setPage pgdir fun _ => 0).setDir pgdir {}) with
    | (s, false) => (s, none)
    | (s, true) => (s, some pgdir)

/-- `mappages` for one user page; the page tables of user pages are there. -/
def mappages (s : Kernel) (pgdir : Frame) (v : ℕ) (pa : Frame) : Kern Kernel :=
  if userPages ≤ v ∨ ((s.dir pgdir).pte v).isSome then .error .remap
  else .ok (s.setPte pgdir v (some pa))

/-- A turn of the loop of `deallocuvm`. -/
def deallocPage (pgdir : Frame) (s : Kernel) (v : ℕ) : Kern Kernel :=
  match (s.dir pgdir).pte v with
  | none => .ok s
  | some pa => do
    let s ← kfree s pa
    .ok (s.setPte pgdir v none)

def deallocuvm (s : Kernel) (pgdir : Frame) (oldsz newsz : ℕ) : Kern (Kernel × ℕ) :=
  if oldsz ≤ newsz then .ok (s, oldsz)
  else do
    let s ← (List.range' (pages newsz) (pages oldsz - pages newsz)).foldlM (deallocPage pgdir) s
    .ok (s, newsz)

/-- The loop of `allocuvm`: the `n` pages from `v` on. -/
def allocPages (pgdir : Frame) : ℕ → ℕ → Kernel → Kern (Kernel × Bool)
  | 0, _, s => .ok (s, true)
  | n + 1, v, s =>
    match kalloc s with
    | none => .ok (s, false)
    | some (mem, s) => do
      let s ← mappages (s.setPage mem fun _ => 0) pgdir v mem
      allocPages pgdir n (v + 1) s

/-- The limit is that of the process `proc`, whose call it is. -/
def allocuvm (s : Kernel) (proc : ProcId) (pgdir : Frame) (oldsz newsz : ℕ) : Kern (Kernel × ℕ) :=
  if (s.proc proc).current_top < newsz then .ok (s, 0)
  else if newsz < oldsz then .ok (s, oldsz)
  else do
    let (s, enough) ← allocPages pgdir (pages newsz - pages oldsz) (pages oldsz) s
    if enough then .ok (s, newsz)
    else do
      let (s, _) ← deallocuvm s pgdir newsz oldsz
      .ok (s, 0)

def freevm (s : Kernel) (pgdir : Frame) : Kern Kernel :=
  if pgdir = 0 then .error .noPgdir
  else do
    let (s, _) ← deallocuvm s pgdir USERTOP 0
    let s ← (s.dir pgdir).tables.foldlM kfree s
    kfree s pgdir

/-- The first loop of `copyuvm`. -/
def copyPages (pgdir d : Frame) : List ℕ → Kernel → Kern (Kernel × Bool)
  | [], s => .ok (s, true)
  | v :: l, s =>
    match (s.dir pgdir).pte v with
    | none => .error .pageNotPresent
    | some pa =>
      match kalloc s with
      | none => .ok (s, false)
      | some (mem, s) => do
        let s ← mappages (s.setPage mem (s.mem pa)) d v mem
        copyPages pgdir d l s

/-- A turn of the second loop of `copyuvm`. -/
def sharePage (pgdir d : Frame) (s : Kernel) (v : ℕ) : Kern Kernel :=
  match (s.dir pgdir).pte v with
  | none => .ok s
  | some pa => mappages s d v pa

def copyuvm (s : Kernel) (pgdir : Frame) (sz : ℕ) (parent : ProcId) : Kern (Kernel × Option Frame) :=
  match setupkvm s with
  | (s, none) => .ok (s, none)
  | (s, some d) => do
    let (s, copied) ← copyPages pgdir d (List.range (pages sz)) s
    if copied then do
      let top := pages (s.proc parent).current_top
      let s ← (List.range' top (userPages - top)).reverse.foldlM (sharePage pgdir d) s
      .ok (s, some d)
    else do
      let s ← freevm s d
      .ok (s, none)

/-! ## Shared pages -/

def shm_inc_refcount (s : Kernel) (key : Key) : Kernel :=
  s.setKey key { s.spages key with refcount := (s.spages key).refcount + 1 }

def shm_dec_refcount (s : Kernel) (key : Key) : Kernel :=
  s.setKey key { s.spages key with refcount := (s.spages key).refcount - 1 }

def setAddr (s : Kernel) (key : Key) (i : ℕ) (f : Frame) : Kernel :=
  s.setKey key { s.spages key with addr := Function.update (s.spages key).addr i f }

def setN (s : Kernel) (key : Key) (n : ℕ) : Kernel :=
  s.setKey key { s.spages key with N := n }

/-- The pages of a key, from the `i`-th on. -/
def allocShared (key : Key) : ℕ → ℕ → Kernel → Kernel × Bool
  | 0, _, s => (s, true)
  | n + 1, i, s =>
    match kalloc s with
    | none => (setAddr s key i 0, false)
    | some (mem, s) => allocShared key n (i + 1) ((setAddr s key i mem).setPage mem fun _ => 0)

/-- Not enough address space to attach the pages. -/
def NoRoom (x : Proc) (npages : ℕ) : Prop := sub32 x.current_top x.sz < npages * PGSIZE

instance (x : Proc) (npages : ℕ) : Decidable (NoRoom x npages) :=
  inferInstanceAs (Decidable (_ < _))

/-- The end of `attach_pages_to_process`, when the pages are there. -/
def mapShared (s : Kernel) (proc : ProcId) (key : Key) (npages : ℕ) : Kern (Kernel × ℤ) :=
  if NoRoom (s.proc proc) npages then .ok (s, -1)
  else do
    let location := sub32 (s.proc proc).current_top (PGSIZE * npages)
    let s ← (List.range npages).foldlM (fun s i =>
      mappages s (s.proc proc).pgdir (location / PGSIZE + i) ((s.spages key).addr i)) s
    let s := s.setProc proc { s.proc proc with
      key_addresses := Function.update (s.proc proc).key_addresses key location
      current_top := location }
    .ok (shm_inc_refcount s key, location)

def attach_pages_to_process (s : Kernel) (proc : ProcId) (key : Key) (npages : ℕ) :
    Kern (Kernel × ℤ) :=
  if (s.spages key).refcount = 0 then
    let s := setN s key npages
    if NoRoom (s.proc proc) npages then .ok (s, -1)
    else
      match allocShared key npages 0 s with
      | (s, false) => .ok (s, -1)
      | (s, true) => mapShared s proc key npages
  else if (s.proc proc).key_addresses key ≠ 0 then .ok (s, (s.proc proc).key_addresses key)
  else mapShared s proc key (s.spages key).N

def sys_shmgetat (s : Kernel) (proc : ProcId) (key npages : ℤ) : Kern (Kernel × ℤ) :=
  if h : key < 0 ∨ MAX_SHARED_KEYS ≤ key ∨ npages < 1 ∨ MAX_SHARED_PAGES_PER_KEY < npages then
    .ok (s, -1)
  else attach_pages_to_process s proc ⟨key.toNat, by omega⟩ npages.toNat

/-- The loop of `sys_shmdt` that removes the page table entries. -/
def clearShared (s : Kernel) (x : Proc) : Kernel :=
  s.setDir x.pgdir { s.dir x.pgdir with
    pte := fun v =>
      if x.current_top / PGSIZE ≤ v ∧ v < userPages then none else (s.dir x.pgdir).pte v }

def freeShared (key : Key) (s : Kernel) (k : ℕ) : Kern Kernel := do
  let s ← kfree s ((s.spages key).addr k)
  .ok (setAddr s key k 0)

/-- A turn of the loop of `sys_shmdt` over the keys. -/
def detachKey (proc : ProcId) (s : Kernel) (i : Key) : Kern Kernel := do
  let s := if (s.proc proc).key_addresses i ≠ 0 then shm_dec_refcount s i else s
  let s := s.setProc proc { s.proc proc with
    key_addresses := Function.update (s.proc proc).key_addresses i 0
    current_top := USERTOP }
  if (s.spages i).refcount = 0 then do
    let s ← (List.range (s.spages i).N).foldlM (freeShared i) s
    .ok (setN s i 0)
  else .ok s

def sys_shmdt (s : Kernel) (proc : ProcId) : Kern Kernel :=
  (List.finRange MAX_SHARED_KEYS).foldlM (detachKey proc) (clearShared s (s.proc proc))

/-! ## Processes -/

/-- The first UNUSED process. -/
def findUnused (s : Kernel) : Option ProcId :=
  (List.finRange NPROC).find? fun p => (s.proc p).state = .UNUSED

def allocproc (s : Kernel) : Kernel × Option ProcId :=
  match findUnused s with
  | none => (s, none)
  | some p =>
    let s := { s.setProc p { s.proc p with state := .EMBRYO, pid := s.nextpid } with
      nextpid := s.nextpid + 1 }
    match kalloc s with
    | none => (s.setProc p { s.proc p with kstack := 0, state := .UNUSED }, none)
    | some (kstack, s) =>
      (s.setProc p { s.proc p with kstack, current_top := USERTOP, key_addresses := fun _ => 0 },
        some p)

def growproc (s : Kernel) (proc : ProcId) (n : BitVec 32) : Kern (Kernel × ℤ) := do
  let sz := (s.proc proc).sz
  let newsz := (sz + n.toNat) % 2 ^ 32
  let pgdir := (s.proc proc).pgdir
  if 0 < n.toInt then do
    let (s, sz) ← allocuvm s proc pgdir sz newsz
    if sz = 0 then .ok (s, -1)
    else .ok (s.setProc proc { s.proc proc with sz }, 0)
  else if n.toInt < 0 then do
    let (s, sz) ← deallocuvm s pgdir sz newsz
    if sz = 0 then .ok (s, -1)
    else .ok (s.setProc proc { s.proc proc with sz }, 0)
  else .ok (s, 0)

/-- `sys_sbrk` returns the old size. -/
def sys_sbrk (s : Kernel) (proc : ProcId) (n : BitVec 32) : Kern (Kernel × ℤ) := do
  let addr := (s.proc proc).sz
  let (s, ret) ← growproc s proc n
  if ret < 0 then .ok (s, -1) else .ok (s, addr)

/-- The end of `fork`: the shared pages are counted after the child is RUNNABLE. -/
def copyKeys (s : Kernel) (proc np : ProcId) : Kernel :=
  let s := (List.finRange MAX_SHARED_KEYS).foldl (fun s i =>
    if (s.proc proc).key_addresses i ≠ 0 then
      shm_inc_refcount (s.setProc np { s.proc np with
        key_addresses := Function.update (s.proc np).key_addresses i
          ((s.proc proc).key_addresses i) }) i
    else s) s
  s.setProc np { s.proc np with current_top := (s.proc proc).current_top }

/-- `fork` up to the point where the child is RUNNABLE. -/
def forkChild (s : Kernel) (proc : ProcId) : Kern (Kernel × Option ProcId) :=
  match allocproc s with
  | (s, none) => .ok (s, none)
  | (s, some np) => do
    let (s, pgdir) ← copyuvm s (s.proc proc).pgdir (s.proc proc).sz proc
    match pgdir with
    | none => do
      let s ← kfree (s.setProc np { s.proc np with pgdir := 0 }) (s.proc np).kstack
      .ok (s.setProc np { s.proc np with kstack := 0, state := .UNUSED }, none)
    | some pgdir =>
      .ok (s.setProc np { s.proc np with
        pgdir, sz := (s.proc proc).sz, parent := some proc, state := .RUNNABLE }, some np)

def fork (s : Kernel) (proc : ProcId) : Kern (Kernel × ℤ) := do
  let (s, np) ← forkChild s proc
  match np with
  | none => .ok (s, -1)
  | some np => .ok (copyKeys s proc np, (s.proc np).pid)

/-- Pass abandoned children to init. -/
def reparent (s : Kernel) (proc : ProcId) : Kernel :=
  { s with proc := fun p =>
      if (s.proc p).parent = some proc then { s.proc p with parent := s.initproc } else s.proc p }

def exit (s : Kernel) (proc : ProcId) : Kern (Kernel × ℤ) :=
  if s.initproc = some proc then .error .initExiting
  else do
    let s ← sys_shmdt s proc
    let s := reparent s proc
    .ok (s.setProc proc { s.proc proc with state := .ZOMBIE }, 0)

def zombieChild (s : Kernel) (proc : ProcId) : Option ProcId :=
  (List.finRange NPROC).find? fun p => (s.proc p).parent = some proc ∧ (s.proc p).state = .ZOMBIE

/-- A process with children but no zombie among them sleeps, unless it has been killed. -/
def wait (s : Kernel) (proc : ProcId) : Kern (Kernel × ℤ) :=
  match zombieChild s proc with
  | some p => do
    let pid := (s.proc p).pid
    let s ← kfree s (s.proc p).kstack
    let s ← freevm (s.setProc p { s.proc p with kstack := 0 }) (s.proc p).pgdir
    .ok (s.setProc p { s.proc p with state := .UNUSED, pid := 0, parent := none, killed := false },
      pid)
  | none =>
    if (∀ p, (s.proc p).parent ≠ some proc) ∨ (s.proc proc).killed then .ok (s, -1)
    else .error .sleeps

/-- Kill the first process with the given pid. -/
def kill (s : Kernel) (pid : ℤ) : Kern (Kernel × ℤ) :=
  match (List.finRange NPROC).find? fun p => ((s.proc p).pid : ℤ) = pid with
  | none => .ok (s, -1)
  | some p => .ok (s.setProc p { s.proc p with killed := true }, 0)

end IntroToOS.SharedMemory

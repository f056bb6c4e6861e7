import IntroToOS.SharedMemory.Kernel

/-! # `exec` of Project3b

Translated from `Project3b/xv6/kernel/exec.c` with `loaduvm` and `copyout` of `vm.c`, and the step
of the system. What `readi` delivers is a parameter, since a file may hold anything: `file off n`
are the bytes that are read.

`allocuvm` gets the sum `ph.va + ph.memsz` as a `uint`. When it wraps, `loaduvm` meets addresses that
have not been allocated: pages without an entry, for which it stores to address 0, and pages of the
kernel. Which variables of the kernel such a store hits is decided by the linker, so that its effect
is a parameter (`KernelStore`).
-/

namespace IntroToOS.SharedMemory
open Lib
set_option autoImplicit false

/-- The bytes that `readi` delivers for an offset and a length. -/
abbrev File := ℕ → ℕ → List Byte

/-- The effect of storing bytes at the beginning of a page of the kernel. -/
abbrev KernelStore := ℕ → List Byte → Kernel → Kernel

/-! ## Headers -/

structure ElfHdr where
  phoff : ℕ
  phnum : ℕ

abbrev ELF_MAGIC : BitVec 32 := 0x464C457F

/-- `none` when the header is short or not that of an executable. -/
def readElf (file : File) : Option ElfHdr :=
  let bytes := file 0 52
  let at' : ℕ → Byte := fun x => bytes.getD x 0
  if bytes.length < 52 ∨ u32 at' 0 ≠ ELF_MAGIC then none
  else some { phoff := (u32 at' 28).toNat, phnum := (u16 at' 44).toNat }

structure ProgHdr where
  type : ℕ
  offset : ℕ
  va : ℕ
  filesz : ℕ
  memsz : ℕ

abbrev ELF_PROG_LOAD : ℕ := 1

def readProg (file : File) (off : ℕ) : Option ProgHdr :=
  let bytes := file (off % 2 ^ 32) 32
  let word := fun x => (u32 (fun x => bytes.getD x 0) x).toNat
  if bytes.length ≠ 32 then none
  else some { type := word 0, offset := word 4, va := word 8, filesz := word 16, memsz := word 20 }

/-! ## Segments -/

/-- Store the bytes that have been read where the entry for the page of `va` points to. Without an
entry that is address 0, which lies in the first page of the running process. -/
def storePage (K : KernelStore) (proc : ProcId) (pgdir : Frame) (va : ℕ) (bytes : List Byte)
    (s : Kernel) : Kern Kernel :=
  let v := va / PGSIZE
  if v < userPages then
    match (s.dir pgdir).pte v with
    | some pa => .ok (s.store pa 0 bytes)
    | none =>
      match (s.dir (s.proc proc).pgdir).pte 0 with
      | some pa => .ok (s.store pa 0 bytes)
      | none => if bytes = [] then .ok s else .error .pageFault
  else if v / 1024 ∈ kmap then .ok (if bytes = [] then s else K v bytes s)
  else .error .loaduvm

/-- The loop of `loaduvm`, over the multiples of `PGSIZE` below `sz`. -/
def loadPages (K : KernelStore) (proc : ProcId) (pgdir : Frame) (file : File) (va offset sz : ℕ) :
    List ℕ → Kernel → Kern (Kernel × Bool)
  | [], s => .ok (s, true)
  | k :: l, s =>
    let i := k * PGSIZE
    let n := min (sz - i) PGSIZE
    let bytes := file ((offset + i) % 2 ^ 32) n
    do
      let s ← storePage K proc pgdir ((va + i) % 2 ^ 32) bytes s
      if bytes.length = n then loadPages K proc pgdir file va offset sz l s else .ok (s, false)

def loaduvm (K : KernelStore) (s : Kernel) (proc : ProcId) (pgdir : Frame) (file : File)
    (va offset sz : ℕ) : Kern (Kernel × Bool) :=
  if va % PGSIZE ≠ 0 then .error .loaduvm
  else loadPages K proc pgdir file va offset sz (List.range (pages sz)) s

/-- The loop of `exec` over the `n` program headers from `off` on; the result is `sz`, or `none` for
`goto bad`. -/
def loadSegments (K : KernelStore) (proc : ProcId) (pgdir : Frame) (file : File) :
    ℕ → ℕ → Kernel → ℕ → Kern (Kernel × Option ℕ)
  | 0, _, s, sz => .ok (s, some sz)
  | n + 1, off, s, sz =>
    match readProg file off with
    | none => .ok (s, none)
    | some ph =>
      if ph.type ≠ ELF_PROG_LOAD then loadSegments K proc pgdir file n (off + 32) s sz
      else if ph.memsz < ph.filesz then .ok (s, none)
      else do
        let (s, sz) ← allocuvm s proc pgdir sz ((ph.va + ph.memsz) % 2 ^ 32)
        if sz = 0 then .ok (s, none)
        else do
          let (s, loaded) ← loaduvm K s proc pgdir file ph.va ph.offset ph.filesz
          if loaded then loadSegments K proc pgdir file n (off + 32) s sz else .ok (s, none)

/-! ## The stack -/

/-- `copyout`; every turn of its loop copies at least one byte. The flag is false for `-1`. -/
def copyout (pgdir : Frame) : ℕ → Kernel → ℕ → List Byte → Kernel × Bool
  | 0, s, _, _ => (s, true)
  | fuel + 1, s, va, p =>
    if p = [] then (s, true)
    else
      match (s.dir pgdir).pte (va / PGSIZE) with
      | none => (s, false)
      | some pa =>
        let n := min (PGSIZE - va % PGSIZE) p.length
        copyout pgdir fuel (s.store pa (va % PGSIZE) (p.take n)) ((va / PGSIZE + 1) * PGSIZE)
          (p.drop n)

/-- Push the argument strings; `args` are the addresses of those pushed so far. -/
def pushArgs (pgdir : Frame) : List (List Byte) → Kernel → ℕ → List ℕ →
    Kernel × Option (ℕ × List ℕ)
  | [], s, sp, args => (s, some (sp, args))
  | arg :: argv, s, sp, args =>
    if MAXARG ≤ args.length then (s, none)
    else
      let sp := sub32 sp (arg.length + 1) / 4 * 4
      match copyout pgdir (arg.length + 1) s sp (arg ++ [0]) with
      | (s, false) => (s, none)
      | (s, true) => pushArgs pgdir argv s sp (args ++ [sp])

def wordBytes (w : ℕ) : List Byte :=
  (List.range 4).map fun i => BitVec.ofNat 8 (w / 256 ^ i)

/-- The arguments, a fake return address, `argc` and `argv`. -/
def pushStack (pgdir : Frame) (argv : List (List Byte)) (s : Kernel) (sz : ℕ) : Kernel × Bool :=
  match pushArgs pgdir argv s sz [] with
  | (s, none) => (s, false)
  | (s, some (sp, args)) =>
    let argc := args.length
    let ustack := [0xffffffff, argc, sub32 sp ((argc + 1) * 4)] ++ args ++ [0]
    copyout pgdir (4 * ustack.length) s (sub32 sp ((3 + argc + 1) * 4))
      (ustack.flatMap wordBytes)

/-! ## `exec` -/

/-- The part of `exec` between `setupkvm` and the commit; `none` for `goto bad`. -/
def buildImage (K : KernelStore) (s : Kernel) (proc : ProcId) (pgdir : Frame) (file : File)
    (elf : ElfHdr) (argv : List (List Byte)) : Kern (Kernel × Option ℕ) := do
  let (s, sz) ← loadSegments K proc pgdir file elf.phnum elf.phoff s 0
  match sz with
  | none => .ok (s, none)
  | some sz => do
    let sz := PGROUNDUP sz
    let (s, sz) ← allocuvm s proc pgdir sz (sz + PGSIZE)
    if sz = 0 then .ok (s, none)
    else
      match pushStack pgdir argv s sz with
      | (s, false) => .ok (s, none)
      | (s, true) => .ok (s, some sz)

/-- `file` is `none` when `namei` does not find the path. -/
def exec (K : KernelStore) (s : Kernel) (proc : ProcId) (file : Option File)
    (argv : List (List Byte)) : Kern (Kernel × ℤ) :=
  match file with
  | none => .ok (s, -1)
  | some file =>
    match readElf file with
    | none => .ok (s, -1)
    | some elf =>
      match setupkvm s with
      | (s, none) => .ok (s, -1)
      | (s, some pgdir) => do
        let (s, sz) ← buildImage K s proc pgdir file elf argv
        match sz with
        | none => do
          let s ← freevm s pgdir
          .ok (s, -1)
        | some sz => do
          let s ← sys_shmdt s proc
          let oldpgdir := (s.proc proc).pgdir
          let s ← freevm (s.setProc proc { s.proc proc with pgdir, sz }) oldpgdir
          .ok (s, 0)

/-! ## Steps -/

inductive Call
  | sbrk (n : BitVec 32)
  | shmgetat (key npages : ℤ)
  | fork
  | exec (file : Option File) (argv : List (List Byte))
  | exit
  | wait
  | kill (pid : ℤ)

def call (K : KernelStore) (s : Kernel) (proc : ProcId) : Call → Kern (Kernel × ℤ)
  | .sbrk n => sys_sbrk s proc n
  | .shmgetat key npages => sys_shmgetat s proc key npages
  | .fork => fork s proc
  | .exec file argv => exec K s proc file argv
  | .exit => exit s proc
  | .wait => wait s proc
  | .kill pid => kill s pid

/-- A step is a call of a RUNNABLE process that returns. -/
def step (K : KernelStore) (s : Kernel) (a : ProcId × Call) : Option Kernel :=
  if (s.proc a.1).state = .RUNNABLE then (call K s a.1 a.2).toOption.map Prod.fst else none

/-! ## Start -/

/-- Memory after `kinit`, less the stacks of `cpus` processors. -/
def kinit (kend cpus : ℕ) : Kernel where
  kend
  freelist := (List.range' kend (physPages - kend)).reverse.drop cpus

/-- The first process has one page, which holds `initcode`. -/
def userinit (s : Kernel) (initcode : List Byte) : Kern Kernel :=
  match allocproc s with
  | (_, none) => .error .pageFault
  | (s, some p) =>
    match setupkvm s with
    | (_, none) => .error .pageFault
    | (s, some pgdir) =>
      match kalloc s with
      | none => .error .pageFault
      | some (mem, s) => do
        let s ← mappages (s.setPage mem fun _ => 0) pgdir 0 mem
        let s := s.store mem 0 initcode
        .ok { s.setProc p { s.proc p with pgdir, sz := PGSIZE, state := .RUNNABLE } with
          initproc := some p }

/-- The page directory of the scheduler is made before the first process. -/
def boot (kend cpus : ℕ) (initcode : List Byte) : Kern Kernel :=
  userinit (setupkvm (kinit kend cpus)).1 initcode

end IntroToOS.SharedMemory

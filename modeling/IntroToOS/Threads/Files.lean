import Mathlib.Algebra.Order.Ring.Int
import Mathlib.Data.List.FinRange
import Mathlib.Logic.Function.Basic

/-! # Files and inodes in memory

Translated from `Project4b/xv6/kernel/file.c` and the inode cache of `fs.c`. What is kept of a
`struct file` is its reference count, its type and, for `FD_INODE`, its inode; of a cached inode
its number and its reference count. The path of a system call is given by what `dirlookup` finds
for it. `gen` is not in the source: it counts how often `filealloc` has handed the file out.
-/

namespace IntroToOS.Threads
set_option autoImplicit false

/-- Open files per process, open files per system, and inodes in the cache. -/
abbrev NOFILE : ℕ := 16
abbrev NFILE : ℕ := 100
abbrev NINODE : ℕ := 50

abbrev ROOTINO : ℕ := 1

/-- `nullCwd` stands for the use of a `cwd` that is 0. -/
inductive Panic
  | filedup
  | fileclose
  | ilock
  | iunlock
  | igetNoInodes
  | nullCwd
  | freevmNoPgdir
  | initExiting
  deriving DecidableEq, Repr

abbrev Kern := Except Panic

abbrev FileId := Fin NFILE
abbrev InodeId := Fin NINODE

inductive FileType
  | FD_NONE
  | FD_PIPE
  | FD_INODE (ip : InodeId)
  deriving DecidableEq

structure File where
  type : FileType := .FD_NONE
  ref : ℤ := 0
  gen : ℕ := 0

structure Inode where
  inum : ℕ := 0
  ref : ℤ := 0

/-- `ftable` and `icache`. -/
structure Files where
  file : FileId → File := fun _ => {}
  inode : InodeId → Inode := fun _ => {}

namespace Files

def setFile (s : Files) (f : FileId) (x : File) : Files :=
  { s with file := Function.update s.file f x }

def setInode (s : Files) (i : InodeId) (x : Inode) : Files :=
  { s with inode := Function.update s.inode i x }

section
variable {s : Files} {f g : FileId} {i j : InodeId} {x : File} {y : Inode}

@[simp] theorem setFile_self : (s.setFile f x).file f = x := Function.update_self ..

theorem setFile_of_ne (h : g ≠ f) : (s.setFile f x).file g = s.file g :=
  Function.update_of_ne h ..

@[simp] theorem setInode_self : (s.setInode i y).inode i = y := Function.update_self ..

theorem setInode_of_ne (h : j ≠ i) : (s.setInode i y).inode j = s.inode j :=
  Function.update_of_ne h ..

end

end Files

/-! ## The inode cache -/

/-- The cached inode, or the first empty slot. -/
def iget (s : Files) (inum : ℕ) : Kern (Files × InodeId) :=
  match (List.finRange NINODE).find? fun i => 0 < (s.inode i).ref ∧ (s.inode i).inum = inum with
  | some i => .ok (s.setInode i { s.inode i with ref := (s.inode i).ref + 1 }, i)
  | none =>
    match (List.finRange NINODE).find? fun i => (s.inode i).ref = 0 with
    | some i => .ok (s.setInode i { inum, ref := 1 }, i)
    | none => .error .igetNoInodes

def idup (s : Files) (i : InodeId) : Files :=
  s.setInode i { s.inode i with ref := (s.inode i).ref + 1 }

/-- The flag `I_BUSY` is left out: calls are atomic. -/
def ilock (s : Files) (i : InodeId) : Kern Unit :=
  if (s.inode i).ref < 1 then .error .ilock else .ok ()

def iunlock (s : Files) (i : InodeId) : Kern Unit :=
  if (s.inode i).ref < 1 then .error .iunlock else .ok ()

def iput (s : Files) (i : InodeId) : Files :=
  s.setInode i { s.inode i with ref := (s.inode i).ref - 1 }

def iunlockput (s : Files) (i : InodeId) : Kern Files := do
  iunlock s i
  .ok (iput s i)

/-- A path: where it starts, the inodes that the lookups of its components find, and whether the
walk comes to its end or the next lookup fails. -/
structure Path where
  absolute : Bool
  inums : List ℕ
  found : Bool

/-- The loop of `namex`, with `ip` the directory reached. -/
def namexLoop (s : Files) (ip : InodeId) : List ℕ → Kern (Files × InodeId)
  | [] => .ok (s, ip)
  | inum :: inums => do
    ilock s ip
    let (s, next) ← iget s inum
    let s ← iunlockput s ip
    namexLoop s next inums

def namexStart (s : Files) (cwd : Option InodeId) (absolute : Bool) : Kern (Files × InodeId) :=
  if absolute then iget s ROOTINO
  else match cwd with
    | none => .error .nullCwd
    | some i => .ok (idup s i, i)

def namei (s : Files) (cwd : Option InodeId) (path : Path) : Kern (Files × Option InodeId) := do
  let (s, ip) ← namexStart s cwd path.absolute
  let (s, ip) ← namexLoop s ip path.inums
  if path.found then .ok (s, some ip)
  else do
    ilock s ip
    let s ← iunlockput s ip
    .ok (s, none)

/-! ## The file table -/

/-- The first file without references. -/
def filealloc (s : Files) : Files × Option FileId :=
  match (List.finRange NFILE).find? fun f => (s.file f).ref = 0 with
  | some f => (s.setFile f { s.file f with ref := 1, gen := (s.file f).gen + 1 }, some f)
  | none => (s, none)

def filedup (s : Files) (f : FileId) : Kern Files :=
  if (s.file f).ref < 1 then .error .filedup
  else .ok (s.setFile f { s.file f with ref := (s.file f).ref + 1 })

/-- Close file `f`: decrement the count, close when it reaches 0. A pipe has no inode. -/
def fileclose (s : Files) (f : FileId) : Kern Files :=
  let x := s.file f
  if x.ref < 1 then .error .fileclose
  else if 0 < x.ref - 1 then .ok (s.setFile f { x with ref := x.ref - 1 })
  else
    let s := s.setFile f { x with ref := 0, type := .FD_NONE }
    match x.type with
    | .FD_INODE ip => .ok (iput s ip)
    | .FD_PIPE | .FD_NONE => .ok s

def filestat (s : Files) (f : FileId) : Kern ℤ :=
  match (s.file f).type with
  | .FD_INODE ip => do
    ilock s ip
    iunlock s ip
    .ok 0
  | .FD_PIPE | .FD_NONE => .ok (-1)

end IntroToOS.Threads

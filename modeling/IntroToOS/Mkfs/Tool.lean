import IntroToOS.Fscheck.Check

/-! # mkfs of Project5b

Translated from `Project5b/xv6/tools/mkfs.c`. The image file is a function from offsets to bytes
of which the 1024 sectors written at the start exist; reading another sector ends the program, and
so does a failed assertion (`none`). Sector buffers and the in-core `struct dinode` are functions
of which the first 512 and 64 bytes count.

A host directory is what `readdir_r` makes of it, a stream of entries that are files or directories
(`Listing`). All calls on the host succeed, and a `read` of a file returns as many bytes as there
are, up to the buffer's size.
-/

namespace IntroToOS.Mkfs
open Lib
open Fscheck (Image NDIRECT MAXFILE BSIZE T_DIR T_FILE)
set_option autoImplicit false

abbrev IPB : ℕ := 8
abbrev DIRSIZ : ℕ := 14

def nblocks : ℕ := 995
def ninodes : ℕ := 200
def size : ℕ := 1024

structure Disk where
  img : Image
  freeblock : ℕ
  usedblocks : ℕ
  freeinode : ℕ

/-! ## Sectors and inodes -/

def rsect (s : Disk) (sec : ℕ) : Option (ℕ → Byte) :=
  if sec < size then some fun k => s.img (sec * 512 + k) else none

def wsect (img : Image) (sec : ℕ) (buf : ℕ → Byte) : Image := fun x =>
  if sec * 512 ≤ x ∧ x < sec * 512 + 512 then buf (x - sec * 512) else img x

def i2b (inum : ℕ) : ℕ := inum / IPB + 2

def rinode (s : Disk) (inum : ℕ) : Option (ℕ → Byte) := do
  let buf ← rsect s (i2b inum)
  return fun k => buf (inum % IPB * 64 + k)

def winode (s : Disk) (inum : ℕ) (dip : ℕ → Byte) : Option Disk := do
  let buf ← rsect s (i2b inum)
  let base := inum % IPB * 64
  let buf := fun k => if base ≤ k ∧ k < base + 64 then dip (k - base) else buf k
  return { s with img := wsect s.img (i2b inum) buf }

def ialloc (s : Disk) (type : ℕ) : Option (Disk × ℕ) := do
  let inum := s.freeinode
  let din : ℕ → Byte := fun _ => 0
  let din := putU16 din 0 (BitVec.ofNat 16 type)
  let din := putU16 din 6 1
  let din := putU32 din 8 0
  let s ← winode { s with freeinode := s.freeinode + 1 } inum din
  return (s, inum)

def balloc (s : Disk) (used : ℕ) : Option Disk :=
  if used < 512 * 8 then
    some { s with img := wsect s.img (ninodes / IPB + 3) ((List.range used).foldl setBit fun _ => 0) }
  else none

/-! ## Appending to a file -/

/-- `freeblock++; usedblocks++`. -/
def Disk.take (s : Disk) : Disk :=
  { s with freeblock := s.freeblock + 1, usedblocks := s.usedblocks + 1 }

/-- The offset of `addrs[k]` in a `struct dinode`. -/
def addrOff (k : ℕ) : ℕ := 12 + 4 * k

/-- The part of `iappend` that finds block `fbn` of the file, or takes a new one for it. -/
def getBlock (s : Disk) (din : ℕ → Byte) (fbn : ℕ) : Option (Disk × (ℕ → Byte) × ℕ) :=
  if fbn < NDIRECT then
    if u32 din (addrOff fbn) = 0 then
      let din := putU32 din (addrOff fbn) (BitVec.ofNat 32 s.freeblock)
      some (s.take, din, (u32 din (addrOff fbn)).toNat)
    else some (s, din, (u32 din (addrOff fbn)).toNat)
  else do
    let fresh := u32 din (addrOff NDIRECT) = 0
    let din := if fresh then putU32 din (addrOff NDIRECT) (BitVec.ofNat 32 s.freeblock) else din
    let s := if fresh then s.take else s
    let ind := (u32 din (addrOff NDIRECT)).toNat
    let indirect ← rsect s ind
    if u32 indirect (4 * (fbn - NDIRECT)) = 0 then
      let indirect := putU32 indirect (4 * (fbn - NDIRECT)) (BitVec.ofNat 32 s.freeblock)
      return ({ s.take with img := wsect s.img ind indirect }, din,
        (u32 indirect (4 * (fbn - NDIRECT))).toNat)
    else return (s, din, (u32 indirect (4 * (fbn - NDIRECT))).toNat)

def bcopy (src : List Byte) (dst : ℕ → Byte) (o : ℕ) : ℕ → Byte := fun k =>
  if o ≤ k ∧ k < o + src.length then src.getD (k - o) 0 else dst k

/-- The loop of `iappend`, with `din` and `off` as it leaves them; each turn takes at least one
byte of `p`, so the length of `p` bounds the turns. -/
def iappendLoop : ℕ → Disk → (ℕ → Byte) → ℕ → List Byte → Option (Disk × (ℕ → Byte) × ℕ)
  | 0, s, din, off, _ => some (s, din, off)
  | n + 1, s, din, off, p =>
    if p = [] then some (s, din, off)
    else
      let fbn := off / 512
      if MAXFILE ≤ fbn then none
      else do
        let (s, din, x) ← getBlock s din fbn
        let n1 := min p.length ((fbn + 1) * 512 - off)
        let buf ← rsect s x
        let buf := bcopy (p.take n1) buf (off - fbn * 512)
        iappendLoop n { s with img := wsect s.img x buf } din (off + n1) (p.drop n1)

def iappend (s : Disk) (inum : ℕ) (p : List Byte) : Option Disk := do
  let din ← rinode s inum
  let (s, din, off) ← iappendLoop p.length s din (u32 din 8).toNat p
  winode s inum (putU32 din 8 (BitVec.ofNat 32 off))

/-! ## The directory tree -/

/-- The name of a host file: a C string other than `.` and `..`. -/
structure Name where
  chars : List Byte
  nonempty : chars ≠ []
  noNul : 0 ∉ chars
  notDot : chars ≠ [46]
  notDotDot : chars ≠ [46, 46]

/-- The entries that `readdir_r` has still to return. -/
inductive Listing
  | nil
  /-- `.` or `..`. -/
  | dots (parent : Bool) (rest : Listing)
  | file (name : Name) (content : List Byte) (rest : Listing)
  | dir (name : Name) (sub : Listing) (rest : Listing)

/-- A `struct dirent` with the first `DIRSIZ` characters of the name, as `strncpy` leaves it. -/
def dirent (inum : ℕ) (name : List Byte) : List Byte :=
  [BitVec.ofNat 8 inum, BitVec.ofNat 8 (inum / 256)] ++
    (name ++ List.replicate DIRSIZ 0).take DIRSIZ

/-- The loop that copies a file in buffers of 512 bytes; `n` bounds the number of buffers. -/
def copyFile : ℕ → Disk → ℕ → List Byte → Option Disk
  | 0, s, _, _ => some s
  | n + 1, s, child, content =>
    if content = [] then some s
    else do
      let s ← iappend s child (content.take 512)
      copyFile n s child (content.drop 512)

/-- The end of `add_dir`: the size goes up to a multiple of the block size. -/
def fixSize (s : Disk) (inum : ℕ) : Option Disk := do
  let din ← rinode s inum
  let off := (u32 din 8).toNat
  let off := (off / BSIZE + 1) * BSIZE
  winode s inum (putU32 din 8 (BitVec.ofNat 32 off))

/-- The loop of `add_dir` over the entries of the host directory. The nested call of `add_dir` for
a subdirectory is written out (`addEntries_dir`). -/
def addEntries (s : Disk) (cur : ℕ) : Listing → Option Disk
  | .nil => some s
  | .dots _ rest => addEntries s cur rest
  | .file name content rest => do
    let (s, child) ← ialloc s T_FILE
    let s ← copyFile content.length s child content
    let s ← iappend s cur (dirent child name.chars)
    addEntries s cur rest
  | .dir name sub rest => do
    let (s, child) ← ialloc s T_DIR
    let s ← iappend s child (dirent child [46])
    let s ← iappend s child (dirent cur [46, 46])
    let s ← addEntries s child sub
    let s ← fixSize s child
    let s ← iappend s cur (dirent child name.chars)
    addEntries s cur rest

def add_dir (s : Disk) (cur_inode parent_inode : ℕ) (cur_dir : Listing) : Option Disk := do
  let s ← iappend s cur_inode (dirent cur_inode [46])
  let s ← iappend s cur_inode (dirent parent_inode [46, 46])
  let s ← addEntries s cur_inode cur_dir
  fixSize s cur_inode

theorem addEntries_dir (s : Disk) (cur : ℕ) (name : Name) (sub rest : Listing) :
    addEntries s cur (.dir name sub rest) = (do
      let (s, child) ← ialloc s T_DIR
      let s ← add_dir s child cur sub
      let s ← iappend s cur (dirent child name.chars)
      addEntries s cur rest) := by
  simp only [addEntries, add_dir, bind_assoc]

/-! ## The program -/

/-- The empty disk: `bitblocks` is 1, and the blocks before the data are 29. -/
def mkfs : Disk where
  img := putU32 (putU32 (putU32 (fun _ => 0) 512 (BitVec.ofNat 32 size)) 516
    (BitVec.ofNat 32 nblocks)) 520 (BitVec.ofNat 32 ninodes)
  freeblock := ninodes / IPB + 3 + (size / (512 * 8) + 1)
  usedblocks := ninodes / IPB + 3 + (size / (512 * 8) + 1)
  freeinode := 1

/-- The image that is written for the host directory `argv[2]`. -/
def main (root_dir : Listing) : Option Image := do
  let (s, root_inode) ← ialloc mkfs T_DIR
  if root_inode ≠ 1 then none
  else do
    let s ← add_dir s root_inode root_inode root_dir
    let s ← balloc s s.usedblocks
    return s.img

end IntroToOS.Mkfs

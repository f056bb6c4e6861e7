import IntroToOS.Lib.Bytes
import Mathlib.Algebra.Order.Ring.Int

/-! # The file system of Project5b

Translated from `Project5b/xv6/kernel/fs.c` and `include/fs.h`. The regions of the disk are kept
apart: the two words of the superblock that are read, the inode table, the bits of the bitmap, and
the blocks, of which only those behind the bitmap ever carry data (this is an invariant of the
system, not an assumption of the model). The buffer cache writes through, so a block has one
content. `inode` holds the valid in-core copies; locks and reference counts play no part in what
the routines compute.

A panic stops the machine in the state it has reached (`Halt`). Two fields of the state are not in
the source: `freed` records the arguments of `bfree`, and `exhausted` that `balloc` has returned a
block behind the end of the disk, which it does when the disk is full and its size is not a
multiple of `BPB`.
-/

namespace IntroToOS.CheckedFs
open Lib
set_option autoImplicit false

abbrev BSIZE : ℕ := 512
abbrev NDIRECT : ℕ := 12
abbrev NINDIRECT : ℕ := 128
abbrev MAXFILE : ℕ := NDIRECT + NINDIRECT

/-- Inodes per block, and bits of the bitmap per block. -/
abbrev IPB : ℕ := 8
abbrev BPB : ℕ := BSIZE * 8

abbrev T_DIR : ℕ := 1
abbrev T_FILE : ℕ := 2
abbrev T_DEV : ℕ := 3
abbrev T_CHECKED : ℕ := 4

abbrev NDEV : ℕ := 10

abbrev Addr := BitVec 32

/-! ## Checksums in pointers -/

def CH_MASK : Addr := 0xff000000#32

def CH_GET_CHECKSUM (addr : Addr) : Byte := ((addr &&& CH_MASK) >>> 24).setWidth 8

def CH_SET_CHECKSUM (addr : Addr) (val : Byte) : Addr :=
  (addr &&& ~~~ CH_MASK) ||| (val.setWidth 32 <<< 24)

def CH_GET_ADDR (addr : Addr) : Addr := addr &&& ~~~ CH_MASK

/-! ## State -/

/-- An inode as it is on disk; `type` 0 is a free one. -/
structure Inode where
  type : ℕ := 0
  major : ℤ := 0
  minor : ℤ := 0
  nlink : ℤ := 0
  size : ℕ := 0
  addrs : ℕ → Addr := fun _ => 0

/-- The two functions of a device, with what they return and deliver. -/
structure Device where
  read : Option (ℕ → ℤ × List Byte) := none
  write : Option ((ℕ → Byte) → ℕ → ℤ) := none

structure Fs where
  size : ℕ
  ninodes : ℕ
  bitmap : ℕ → Bool
  dinode : ℕ → Inode
  block : ℕ → ℕ → Byte
  inode : ℕ → Option Inode := fun _ => none
  devsw : ℕ → Device := fun _ => {}
  freed : List ℕ := []
  exhausted : Bool := false

inductive Panic
  | outOfBlocks
  | freeingFreeBlock
  | noInodes
  | noType
  | outOfRange
  deriving DecidableEq, Repr

structure Halt where
  panic : Panic
  fs : Fs

abbrev Kern := Except Halt

def panic {α : Type} (p : Panic) (s : Fs) : Kern α := .error ⟨p, s⟩

namespace Fs

def setBlock (s : Fs) (b : ℕ) (data : ℕ → Byte) : Fs :=
  { s with block := Function.update s.block b data }

end Fs

/-! ## Blocks -/

/-- The first of the `n` bits from `b` on that is clear. -/
def firstFree (bitmap : ℕ → Bool) : ℕ → ℕ → Option ℕ
  | 0, _ => none
  | n + 1, b => if bitmap b then firstFree bitmap n (b + 1) else some b

/-- The bits are searched block of the bitmap by block of the bitmap, each to its end. -/
def balloc (s : Fs) : Kern (Fs × Addr) :=
  match firstFree s.bitmap ((s.size + BPB - 1) / BPB * BPB) 0 with
  | some b => .ok ({ s with
      bitmap := Function.update s.bitmap b true
      exhausted := s.exhausted || s.size ≤ b }, BitVec.ofNat 32 b)
  | none => panic .outOfBlocks s

def bfree (s : Fs) (b : ℕ) : Kern Fs :=
  let s := { s.setBlock b (fun _ => 0) with freed := s.freed ++ [b] }
  if s.bitmap b then .ok { s with bitmap := Function.update s.bitmap b false }
  else panic .freeingFreeBlock s

/-! ## Inodes -/

/-- Copy an inode, which has changed, from memory to disk. -/
def iupdate (s : Fs) (inum : ℕ) (ip : Inode) : Fs :=
  { s with dinode := Function.update s.dinode inum ip }

/-- The in-core copy becomes `ip`. -/
def Fs.setInode (s : Fs) (inum : ℕ) (ip : Inode) : Fs :=
  { s with inode := Function.update s.inode inum (some ip) }

def Fs.putInode (s : Fs) (inum : ℕ) (ip : Inode) : Fs := (iupdate s inum ip).setInode inum ip

/-- `ialloc` together with what `create` does to the inode: major, minor and one link. -/
def create (s : Fs) (type : ℕ) (major minor : ℤ) : Kern Fs :=
  match (List.range' 1 (s.ninodes - 1)).find? fun inum => (s.dinode inum).type = 0 with
  | some inum =>
    .ok (s.putInode inum { type, major, minor, nlink := 1 })
  | none => panic .noInodes s

/-- The in-core copy, read from the disk when there is no valid one. -/
def ilock (s : Fs) (inum : ℕ) : Kern Inode :=
  match s.inode inum with
  | some ip => .ok ip
  | none =>
    let ip := s.dinode inum
    if ip.type = 0 then panic .noType s else .ok ip

/-! ## Inode contents -/

/-- Word `bn` of an indirect block. -/
def word (data : ℕ → Byte) (bn : ℕ) : Addr := u32 data (4 * bn)

def putWord (data : ℕ → Byte) (bn : ℕ) (w : Addr) : ℕ → Byte := putU32 data (4 * bn) w

def Inode.setAddr (ip : Inode) (i : ℕ) (addr : Addr) : Inode :=
  { ip with addrs := Function.update ip.addrs i addr }

/-- The number of the block a pointer names. -/
def blockNo (addr : Addr) : ℕ := (CH_GET_ADDR addr).toNat

/-- Load the indirect block, allocating it if necessary. -/
def bmapIndirect (s : Fs) (ip : Inode) : Kern (Fs × Inode) :=
  if ip.addrs NDIRECT = 0 then do
    let (s, addr) ← balloc s
    .ok (s, ip.setAddr NDIRECT addr)
  else .ok (s, ip)

/-- The disk block number of block `bn` of the inode, allocating it if there is none. -/
def bmap (s : Fs) (ip : Inode) (bn : ℕ) : Kern (Fs × Inode × ℕ) :=
  if bn < NDIRECT then
    if ip.addrs bn = 0 then do
      let (s, addr) ← balloc s
      .ok (s, ip.setAddr bn addr, blockNo addr)
    else .ok (s, ip, blockNo (ip.addrs bn))
  else if bn - NDIRECT < NINDIRECT then do
    let (s, ip) ← bmapIndirect s ip
    let bp := blockNo (ip.addrs NDIRECT)
    let addr := word (s.block bp) (bn - NDIRECT)
    if addr = 0 then do
      let (s, addr) ← balloc s
      .ok (s.setBlock bp (putWord (s.block bp) (bn - NDIRECT) addr), ip, blockNo addr)
    else .ok (s, ip, blockNo addr)
  else panic .outOfRange s

/-- The direct part of `itrunc`, for `addrs[i]`. -/
def truncDirect (p : Fs × Inode) (i : ℕ) : Kern (Fs × Inode) :=
  if p.2.addrs i = 0 then .ok p
  else do
    let s ← bfree p.1 (blockNo (p.2.addrs i))
    .ok (s, p.2.setAddr i 0)

/-- The body of the loop over the indirect block: the pointer is passed on as it is. -/
def truncIndirect (a : ℕ → Byte) (s : Fs) (j : ℕ) : Kern Fs :=
  if word a j = 0 then .ok s else bfree s (word a j).toNat

/-- Truncate inode (discard contents). -/
def itrunc (s : Fs) (inum : ℕ) (ip : Inode) : Kern (Fs × Inode) := do
  let (s, ip) ← (List.range NDIRECT).foldlM truncDirect (s, ip)
  if ip.addrs NDIRECT = 0 then
    let ip := { ip with size := 0 }
    .ok (iupdate s inum ip, ip)
  else do
    let bp := blockNo (ip.addrs NDIRECT)
    let s ← (List.range NINDIRECT).foldlM (truncIndirect (s.block bp)) s
    let s ← bfree s bp
    let ip := { ip.setAddr NDIRECT 0 with size := 0 }
    .ok (iupdate s inum ip, ip)

/-- The last reference to an inode is dropped: a valid one without links is truncated and freed. -/
def iput (s : Fs) (inum : ℕ) : Kern Fs :=
  match s.inode inum with
  | none => .ok s
  | some ip =>
    if ip.nlink = 0 then do
      let (s, ip) ← itrunc s inum ip
      let s := iupdate s inum { ip with type := 0 }
      .ok { s with inode := Function.update s.inode inum none }
    else .ok s

/-! ## Checksums -/

def calculate_checksum (data : ℕ → Byte) (size : ℕ) : Byte :=
  xorBytes ((List.range size).map data)

/-- Both routines get a block number that `bmap` has accepted before. -/
def update_checksum (s : Fs) (ip : Inode) (bn : ℕ) (checksum : Byte) : Kern (Fs × Inode) :=
  if bn < NDIRECT then .ok (s, ip.setAddr bn (CH_SET_CHECKSUM (ip.addrs bn) checksum))
  else if bn - NDIRECT < NINDIRECT then
    let bp := blockNo (ip.addrs NDIRECT)
    let w := CH_SET_CHECKSUM (word (s.block bp) (bn - NDIRECT)) checksum
    .ok (s.setBlock bp (putWord (s.block bp) (bn - NDIRECT) w), ip)
  else panic .outOfRange s

def fetch_checksum (s : Fs) (ip : Inode) (bn : ℕ) : Kern Byte :=
  if bn < NDIRECT then .ok (CH_GET_CHECKSUM (ip.addrs bn))
  else if bn - NDIRECT < NINDIRECT then
    .ok (CH_GET_CHECKSUM (word (s.block (blockNo (ip.addrs NDIRECT))) (bn - NDIRECT)))
  else panic .outOfRange s

def calculate_file_checksum (s : Fs) (ip : Inode) : Byte :=
  let result := xorBytes ((List.range NDIRECT).map fun i => CH_GET_CHECKSUM (ip.addrs i))
  if ip.addrs NDIRECT = 0 then result
  else
    let data := s.block (blockNo (ip.addrs NDIRECT))
    result ^^^ xorBytes ((List.range NINDIRECT).map fun i => CH_GET_CHECKSUM (word data i))

/-- What `stati` stores in a `struct stat`; `checksum` is left alone unless the file is checked. -/
structure Stat where
  type : ℕ
  ino : ℕ
  nlink : ℤ
  size : ℕ
  checksum : Option Byte

def stati (s : Fs) (inum : ℕ) (ip : Inode) : Stat where
  type := ip.type
  ino := inum
  nlink := ip.nlink
  size := ip.size
  checksum := if ip.type = T_CHECKED then some (calculate_file_checksum s ip) else none

/-! ## Reading and writing -/

/-- The bytes of a block from `o` on that one turn of a loop copies. -/
def chunk (off left : ℕ) : ℕ := min left (BSIZE - off % BSIZE)

/-- The checksum test of a turn of the loop of `readi`. -/
def checkBlock (s : Fs) (ip : Inode) (bp bn : ℕ) : Kern Bool :=
  if ip.type = T_CHECKED then do
    let stored ← fetch_checksum s ip bn
    .ok (calculate_checksum (s.block bp) BSIZE = stored)
  else .ok true

/-- The loops of `readi`, with `left` bytes still to deliver; each turn delivers at least one, so
`left` turns are enough. The flag is false when a checksum did not match. -/
def readLoop : ℕ → Fs → Inode → ℕ → ℕ → List Byte → Kern (Fs × Inode × Bool × List Byte)
  | 0, s, ip, _, _, dst => .ok (s, ip, true, dst)
  | fuel + 1, s, ip, off, left, dst =>
    if left = 0 then .ok (s, ip, true, dst)
    else do
      let (s, ip, bp) ← bmap s ip (off / BSIZE)
      let m := chunk off left
      let good ← checkBlock s ip bp (off / BSIZE)
      if good then
        readLoop fuel s ip (off + m) (left - m)
          (dst ++ (List.range m).map fun k => s.block bp (off % BSIZE + k))
      else .ok (s, ip, false, dst)

/-- `off + n < off` in `uint`. -/
def wraps (off n : ℕ) : Prop := (off + n) % 2 ^ 32 < off

instance (off n : ℕ) : Decidable (wraps off n) := inferInstanceAs (Decidable (_ < _))

/-- `readi` returns its result and the bytes it has copied to `dst`. -/
def readi (s : Fs) (ip : Inode) (off n : ℕ) : Kern (Fs × Inode × ℤ × List Byte) :=
  if ip.type = T_DEV then
    if ip.major < 0 ∨ NDEV ≤ ip.major then .ok (s, ip, -1, [])
    else match (s.devsw ip.major.toNat).read with
      | none => .ok (s, ip, -1, [])
      | some read => .ok (s, ip, read n)
  else if ip.size < off ∨ wraps off n then .ok (s, ip, -1, [])
  else do
    let n := if ip.size < off + n then ip.size - off else n
    let (s, ip, good, dst) ← readLoop n s ip off n []
    if good then .ok (s, ip, n, dst) else .ok (s, ip, -1, dst)

/-- `memmove(bp->data + o, src, m)`. -/
def patch (data : ℕ → Byte) (o m : ℕ) (src : ℕ → Byte) : ℕ → Byte := fun x =>
  if o ≤ x ∧ x < o + m then src (x - o) else data x

/-- The checksum of the patched block is stored before the block is written. -/
def storeChecksum (s : Fs) (ip : Inode) (bn : ℕ) (data : ℕ → Byte) : Kern (Fs × Inode) :=
  if ip.type = T_CHECKED then update_checksum s ip bn (calculate_checksum data BSIZE)
  else .ok (s, ip)

/-- The loops of `writei`. -/
def writeLoop : ℕ → Fs → Inode → (ℕ → Byte) → ℕ → ℕ → Kern (Fs × Inode)
  | 0, s, ip, _, _, _ => .ok (s, ip)
  | fuel + 1, s, ip, src, off, left =>
    if left = 0 then .ok (s, ip)
    else do
      let (s, ip, bp) ← bmap s ip (off / BSIZE)
      let m := chunk off left
      let data := patch (s.block bp) (off % BSIZE) m src
      let (s, ip) ← storeChecksum s ip (off / BSIZE) data
      writeLoop fuel (s.setBlock bp data) ip (fun k => src (m + k)) (off + m) (left - m)

/-- `checksum_updated` is set by the first turn of the loop for a checked file. -/
def writei (s : Fs) (inum : ℕ) (ip : Inode) (src : ℕ → Byte) (off n : ℕ) :
    Kern (Fs × Inode × ℤ) :=
  if ip.type = T_DEV then
    if ip.major < 0 ∨ NDEV ≤ ip.major then .ok (s, ip, -1)
    else match (s.devsw ip.major.toNat).write with
      | none => .ok (s, ip, -1)
      | some write => .ok (s, ip, write src n)
  else if ip.size < off ∨ wraps off n then .ok (s, ip, -1)
  else do
    let n := if MAXFILE * BSIZE < off + n then MAXFILE * BSIZE - off else n
    let (s, ip) ← writeLoop n s ip src off n
    let checksum_updated := ip.type = T_CHECKED ∧ 0 < n
    if checksum_updated ∨ 0 < n ∧ ip.size < off + n then
      let ip := { ip with size := off + n }
      .ok (iupdate s inum ip, ip, n)
    else .ok (s, ip, n)

/-! ## Steps -/

/-- The types of the inodes that system calls create. -/
inductive FileType
  | dir | file | dev | checked

def FileType.code : FileType → ℕ
  | .dir => T_DIR
  | .file => T_FILE
  | .dev => T_DEV
  | .checked => T_CHECKED

/-- The calls on inodes. Offsets and lengths are `uint`; `link` adds to `nlink`; `evict` gives the
cache slot of an inode up, `iput` drops the last reference to it. -/
inductive Call
  | create (type : FileType) (major minor : ℤ)
  | writei (inum : ℕ) (src : ℕ → Byte) (off n : BitVec 32)
  | readi (inum : ℕ) (off n : BitVec 32)
  | stati (inum : ℕ)
  | link (inum : ℕ) (k : ℤ)
  | iput (inum : ℕ)
  | evict (inum : ℕ)

/-- What a call returns to its caller. -/
structure Reply where
  ret : ℤ := 0
  dst : List Byte := []
  st : Option Stat := none

def call (s : Fs) : Call → Kern (Fs × Reply)
  | .create type major minor => do
    let s ← create s type.code major minor
    .ok (s, {})
  | .writei inum src off n => do
    let ip ← ilock s inum
    let (s, ip, ret) ← writei s inum ip src off.toNat n.toNat
    .ok (s.setInode inum ip, { ret })
  | .readi inum off n => do
    let ip ← ilock s inum
    let (s, ip, ret, dst) ← readi s ip off.toNat n.toNat
    .ok (s.setInode inum ip, { ret, dst })
  | .stati inum => do
    let ip ← ilock s inum
    .ok (s.setInode inum ip, { st := some (stati s inum ip) })
  | .link inum k => do
    let ip ← ilock s inum
    .ok (s.putInode inum { ip with nlink := ip.nlink + k }, {})
  | .iput inum => do
    let s ← iput s inum
    .ok (s, {})
  | .evict inum => .ok ({ s with inode := Function.update s.inode inum none }, {})

/-- A step is a call that returns. -/
def step (s : Fs) (a : Call) : Option Fs := (call s a).toOption.map Prod.fst

end IntroToOS.CheckedFs

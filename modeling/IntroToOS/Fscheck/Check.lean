import IntroToOS.Lib.Bytes
import Mathlib.Data.List.Basic

/-! # The file system checker of Project5a

Translated from `Project5a/main.c`, over images of 1024 blocks. The image is mapped read-only, so
it is a function from offsets to bytes of which only the first `IMAGE_SIZE` may be read. A check
that fails ends the program with status 1 and a message, and a read outside the image or an index
outside one of the four global arrays is an `outOfBounds` of its own. The two branches of the
directory scans, for direct and for indirect blocks, differ in where the block number comes from
only (`blockAddr`).

`sect * BSIZE` is an `unsigned` product. The entries of a directory block are 16 bytes each and
start at a multiple of 16, so one of them is inside the image as a whole or not at all.
-/

namespace IntroToOS.Fscheck
open Lib
set_option autoImplicit false

abbrev BSIZE : ℕ := 512
abbrev NDIRECT : ℕ := 12
abbrev NINDIRECT : ℕ := 128
abbrev MAXFILE : ℕ := NDIRECT + NINDIRECT
abbrev IMAGE_SIZE : ℕ := 1024 * BSIZE

abbrev T_DIR : ℕ := 1
abbrev T_FILE : ℕ := 2
abbrev T_DEV : ℕ := 3

/-- The global `ninodes`, which `check_balloced` uses, and the length of the arrays. -/
abbrev NINODES : ℕ := 200

abbrev Image := ℕ → Byte

/-- Why the program stops before its end. -/
inductive Stop
  | exit1 (message : String)
  | outOfBounds
  deriving DecidableEq, Repr

abbrev Check := Except Stop

def fail {α : Type} (message : String) : Check α := .error (.exit1 message)

/-! ## Reading the image -/

def rsect (sect : ℕ) : ℕ := sect * BSIZE % 2 ^ 32

/-- Block containing the bit for block `b`. -/
def BBLOCK (b ninodes : ℕ) : ℕ := (b / (BSIZE * 8) + ninodes / 8 + 3) % 2 ^ 32

def readU16 (img : Image) (off : ℕ) : Check ℕ :=
  if off + 2 ≤ IMAGE_SIZE then .ok (u16 img off).toNat else .error .outOfBounds

def readU32 (img : Image) (off : ℕ) : Check ℕ :=
  if off + 4 ≤ IMAGE_SIZE then .ok (u32 img off).toNat else .error .outOfBounds

def readByte (img : Image) (off : ℕ) : Check Byte :=
  if off < IMAGE_SIZE then .ok (img off) else .error .outOfBounds

/-- Offset of the on-disk inode `i`: the inodes start at block 2, 64 bytes each. -/
def dinode (i : ℕ) : ℕ := rsect 2 + 64 * i

structure Dirent where
  inum : ℕ
  name : ℕ → Byte

def direntAt (img : Image) (off : ℕ) : Dirent where
  inum := (u16 img off).toNat
  name := fun k => img (off + 2 + k)

def readDirent (img : Image) (off : ℕ) : Check Dirent :=
  if off + 16 ≤ IMAGE_SIZE then .ok (direntAt img off) else .error .outOfBounds

/-- `strcmp(name, t) == 0` for a literal `t` of fewer than 14 characters. -/
def strEq (name : ℕ → Byte) : List Byte → Bool
  | [] => name 0 = 0
  | c :: t => name 0 = c && strEq (fun k => name (k + 1)) t

def Dirent.isDot (e : Dirent) : Bool := strEq e.name [46]

def Dirent.isDotDot (e : Dirent) : Bool := strEq e.name [46, 46]

/-! ## The global arrays -/

structure Globals where
  my_bitmap : ℕ → Byte := fun _ => 0
  my_inode : ℕ → Byte := fun _ => 0
  my_inode_alloced : ℕ → Bool := fun _ => false
  my_dir_parent_inode : ℕ → Byte := fun _ => 0
  seen_root : Bool := false
  parent_mismatch_seen : Bool := false

/-- An index into an array of `n` elements. -/
def index (i n : ℕ) : Check Unit := if i < n then .ok () else .error .outOfBounds

/-! ## The checks -/

def check_inode_alloced (img : Image) (s : Globals) (inode_num : ℕ) : Check Globals := do
  let type ← readU16 img (dinode inode_num)
  if type = 0 then fail "ERROR: inode referred to in directory but marked free.\n"
  else if type = T_FILE then do
    index inode_num NINODES
    pure { s with my_inode := Function.update s.my_inode inode_num (s.my_inode inode_num - 1) }
  else pure s

def check_balloced (img : Image) (s : Globals) (block : ℕ) : Check Globals := do
  let bits ← readByte img (rsect (BBLOCK block NINODES) + block / 8)
  if bits.getLsbD (block % 8) = false then
    fail "ERROR: address used by inode but marked free in bitmap.\n"
  else do
    index (block / 8) 512
    if bit s.my_bitmap block = false then fail "ERROR: address used more than once.\n"
    else pure { s with my_bitmap := clearBit s.my_bitmap block }

/-- `n_blocks`: the size in blocks, rounded up. -/
def n_blocks (file_size : ℕ) : ℕ :=
  if file_size % 512 = 0 then file_size / 512 else file_size / 512 + 1

/-- `indirect`, which stays `NULL` in a file that needs no indirect block. -/
def indirectAddr (img : Image) (dip n : ℕ) : Check ℕ :=
  if NDIRECT < n then readU32 img (dip + 12 + 4 * NDIRECT) else .ok 0

/-- The address of block `i`: `dip->addrs[i]` or `indirect[i - NDIRECT]`. -/
def blockAddr (img : Image) (dip indirect i : ℕ) : Check ℕ :=
  if i < NDIRECT then readU32 img (dip + 12 + 4 * i)
  else readU32 img (rsect indirect + 4 * (i - NDIRECT))

/-- The search of a directory block for an entry naming the child; the first free slot ends it. -/
def seen_child (img : Image) (child_inode : ℕ) : ℕ → ℕ → Check Bool
  | 0, _ => pure false
  | j + 1, off => do
    let e ← readDirent img off
    if e.inum = 0 then pure false
    else if e.isDotDot then seen_child img child_inode j (off + 16)
    else if e.isDot then seen_child img child_inode j (off + 16)
    else if e.inum = child_inode then pure true
    else seen_child img child_inode j (off + 16)

def check_parent_dir (img : Image) (s : Globals) (parent_inode child_inode : ℕ) :
    Check Globals := do
  let dip := dinode parent_inode
  let type ← readU16 img dip
  let seen ← if type = T_DIR then do
      let file_size ← readU32 img (dip + 8)
      let n := n_blocks file_size
      let indirect ← indirectAddr img dip n
      (List.range n).foldlM (fun seen i => do
        let buf ← blockAddr img dip indirect i
        let b ← seen_child img child_inode 32 (rsect buf)
        pure (seen || b)) false
    else pure false
  if seen = false ∧ child_inode ≠ 1 then pure { s with parent_mismatch_seen := true } else pure s

/-- The globals together with the locals `seen_self_dir` and `seen_parent_dir`. -/
structure DirScan where
  globals : Globals
  seen_self_dir : Bool := false
  seen_parent_dir : Bool := false

/-- An entry that is neither the first `.` nor the first `..`: a directory it names gets
`inode_num` as its parent, once. -/
def check_child_dir (img : Image) (s : Globals) (inode_num inum : ℕ) : Check Globals := do
  let type ← readU16 img (dinode inum)
  if type = T_DIR then do
    index inum NINODES
    if s.my_dir_parent_inode inum = 0 then
      pure { s with my_dir_parent_inode :=
        Function.update s.my_dir_parent_inode inum (BitVec.ofNat 8 inode_num) }
    else fail "ERROR: directory appears more than once in file system.\n"
  else pure s

/-- The three cases of an entry: the first `.`, the first `..`, any other. -/
def check_entry_name (img : Image) (inode_num : ℕ) (t : DirScan) (e : Dirent) : Check DirScan :=
  let s := t.globals
  if t.seen_self_dir = false ∧ e.isDot then pure { t with seen_self_dir := true }
  else if t.seen_parent_dir = false ∧ e.isDotDot then do
    let root := s.seen_root = false ∧ e.inum = inode_num ∧ inode_num = 1
    let s ← check_parent_dir img (if root then { s with seen_root := true } else s) e.inum inode_num
    pure { t with globals := s, seen_parent_dir := true }
  else do
    let s ← check_child_dir img s inode_num e.inum
    pure { t with globals := s }

/-- The body of the loop over the entries of a directory block. -/
def check_dir_entry (img : Image) (inode_num : ℕ) (t : DirScan) (e : Dirent) : Check DirScan := do
  let t ← check_entry_name img inode_num t e
  let s ← check_inode_alloced img t.globals e.inum
  index e.inum NINODES
  pure { t with globals := { s with
    my_inode_alloced := Function.update s.my_inode_alloced e.inum false } }

/-- The loop over the entries of a directory block, up to the first free slot. -/
def check_dir_block (img : Image) (inode_num : ℕ) : ℕ → ℕ → DirScan → Check DirScan
  | 0, _, t => pure t
  | j + 1, off, t => do
    let e ← readDirent img off
    if e.inum = 0 then pure t
    else do
      let t ← check_dir_entry img inode_num t e
      check_dir_block img inode_num j (off + 16) t

def check_dir_inode (img : Image) (s : Globals) (inode_num : ℕ) : Check Globals := do
  let dip := dinode inode_num
  let file_size ← readU32 img (dip + 8)
  let n := n_blocks file_size
  let indirect ← indirectAddr img dip n
  let t ← (List.range n).foldlM (fun t i => do
    let buf ← blockAddr img dip indirect i
    check_dir_block img inode_num 32 (rsect buf) t) { globals := s }
  if (t.seen_self_dir && t.seen_parent_dir) = false then
    fail "ERROR: directory not properly formatted.\n"
  else pure t.globals

/-- The range check made on every address of an inode, and its mark in the bitmap. -/
def check_addr (img : Image) (s : Globals) (curr_addr : ℕ) : Check Globals :=
  if curr_addr < 29 ∨ 1024 < curr_addr then fail "ERROR: bad address in inode.\n"
  else check_balloced img s curr_addr

def check_inode_addrs (img : Image) (s : Globals) (inode_num : ℕ) : Check Globals := do
  let dip := dinode inode_num
  let file_size ← readU32 img (dip + 8)
  let n := n_blocks file_size
  let indirect ← indirectAddr img dip n
  let s ← if NDIRECT < n then check_addr img s indirect else pure s
  (List.range n).foldlM (fun s i => do
    let curr_addr ← blockAddr img dip indirect i
    check_addr img s curr_addr) s

/-! ## The program -/

/-- The copy of the bitmap block. -/
def copy_bitmap (img : Image) (ninodes : ℕ) : Check Globals :=
  let bitmap := rsect (BBLOCK 1 ninodes)
  if bitmap + 512 ≤ IMAGE_SIZE then
    .ok { my_bitmap := fun i => if i < 512 then img (bitmap + i) else 0 }
  else .error .outOfBounds

/-- The first pass over the inodes; `my_inode` is an array of `char`. -/
def note_inode (img : Image) (s : Globals) (i : ℕ) : Check Globals := do
  let type ← readU16 img (dinode i)
  if type = 0 then pure s
  else do
    index i NINODES
    let s := { s with my_inode_alloced := Function.update s.my_inode_alloced i true }
    if type = T_FILE then do
      let nlink ← readU16 img (dinode i + 6)
      pure { s with my_inode := Function.update s.my_inode i (BitVec.ofNat 8 nlink) }
    else pure s

/-- The second pass over the inodes. -/
def check_inode (img : Image) (s : Globals) (i : ℕ) : Check Globals := do
  let type ← readU16 img (dinode i)
  if type = 0 then pure s
  else if type = T_DEV ∨ type = T_FILE then check_inode_addrs img s i
  else if type = T_DIR then do
    let s ← check_inode_addrs img s i
    check_dir_inode img s i
  else fail "ERROR: bad inode.\n"

/-- The sweep over the copy of the bitmap and the two over the inode arrays. -/
def check_leftovers (s : Globals) : Check Unit :=
  if ¬ ∀ i < BSIZE, s.my_bitmap i = 0 then
    fail "ERROR: bitmap marks block in use but it is not in use.\n"
  else if ¬ ∀ i < NINODES, s.my_inode_alloced i = false then
    fail "ERROR: inode marked use but not found in a directory.\n"
  else if ¬ ∀ i < NINODES, s.my_inode i = 0 then fail "ERROR: bad reference count for file.\n"
  else .ok ()

def ninodes (img : Image) : ℕ := (u32 img (rsect 1 + 8)).toNat

/-- `main` on an image that could be opened and mapped; `.ok` is exit status 0. -/
def main (img : Image) : Check Unit := do
  let s ← copy_bitmap img (ninodes img)
  let s ← (List.range (ninodes img)).foldlM (note_inode img) s
  let s ← (List.range (ninodes img)).foldlM (check_inode img) s
  if s.seen_root = false then fail "ERROR: root directory does not exist.\n"
  else if s.parent_mismatch_seen = true then fail "ERROR: parent directory mismatch.\n"
  else do
    let s ← (List.range 29).foldlM (check_balloced img) s
    check_leftovers s

end IntroToOS.Fscheck

import IntroToOS.Lib.Fold
import IntroToOS.Lib.References
import IntroToOS.Threads.Kernel

/-! # References to files and inodes

The holders of references are the slots of the process table and the local variables of the call
that is going on. Each function of `file.c` and of the inode cache is given the references it uses
and those it leaves, and ends without a panic about a count.
-/

namespace IntroToOS.Threads
open Lib
set_option autoImplicit false

/-- What a slot of the process table has of files and inodes. -/
structure Holding where
  live : Bool
  is_thread : Bool
  ofile : Fin NOFILE → Option Fd
  cwd : Option Cwd

abbrev Table := ProcId → Holding

/-! ## Counting -/

def fdRefs (f : FileId) (o : Option Fd) : ℕ :=
  (o.any fun e => !e.borrowed && decide (e.file = f)).toNat

def rowRefs (f : FileId) (row : Fin NOFILE → Option Fd) : ℕ := tally (fdRefs f) row

def cwdRefs (i : InodeId) (c : Option Cwd) : ℕ :=
  (c.any fun c => !c.borrowed && decide (c.inode = i)).toNat

def openRefs (i : InodeId) (x : File) : ℕ := if x.type = .FD_INODE i then 1 else 0

/-- The number of open files on inode `i`. -/
def onInode (fs : Files) (i : InodeId) : ℕ := tally (openRefs i) fs.file

namespace Table

def setSlot (T : Table) (p : ProcId) (x : Holding) : Table := Function.update T p x

def setEntry (T : Table) (p : ProcId) (k : Fin NOFILE) (v : Option Fd) : Table :=
  T.setSlot p { T p with ofile := Function.update (T p).ofile k v }

def setCwd (T : Table) (p : ProcId) (c : Option Cwd) : Table := T.setSlot p { T p with cwd := c }

def fileRefs (T : Table) (f : FileId) : ℕ := tally (fun x => rowRefs f x.ofile) T

def dirRefs (T : Table) (i : InodeId) : ℕ := tally (fun x => cwdRefs i x.cwd) T

/-- A live slot uses `f` without a reference. -/
def lentFile (T : Table) (f : FileId) : Prop :=
  ∃ p, (T p).live = true ∧ ∃ k, ∃ e ∈ (T p).ofile k, e.borrowed = true ∧ e.file = f

def lentDir (T : Table) (i : InodeId) : Prop :=
  ∃ p, (T p).live = true ∧ ∃ c ∈ (T p).cwd, c.borrowed = true ∧ c.inode = i

end Table

section
variable {T : Table} {a : InodeId → ℕ} {b : FileId → ℕ} {p q : ProcId} {x : Holding} {f : FileId} {i : InodeId} {e : Fd} {c : Cwd}

theorem fdRefs_owned (hb : e.borrowed = false) (f : FileId) : fdRefs f (some e) = one e.file f := by
  by_cases hf : f = e.file <;> simp [fdRefs, one, hb, eq_comm, hf]

theorem fdRefs_borrowed (hb : e.borrowed = true) (f : FileId) : fdRefs f (some e) = 0 := by
  simp [fdRefs, hb]

@[simp] theorem fdRefs_none (f : FileId) : fdRefs f none = 0 := rfl

theorem cwdRefs_owned (hb : c.borrowed = false) (i : InodeId) :
    cwdRefs i (some c) = one c.inode i := by
  by_cases hi : i = c.inode <;> simp [cwdRefs, one, hb, eq_comm, hi]

@[simp] theorem cwdRefs_none (i : InodeId) : cwdRefs i none = 0 := rfl

theorem openRefs_inode {y : File} (hy : y.type = .FD_INODE i) (j : InodeId) :
    openRefs j y = one i j := by
  simp [openRefs, one, hy, eq_comm]

theorem openRefs_of_ne {y : File} (hy : ∀ j, y.type ≠ .FD_INODE j) (j : InodeId) :
    openRefs j y = 0 := if_neg (hy j)

theorem onInode_setFile (fs : Files) (f : FileId) (y : File) (i : InodeId) :
    onInode (fs.setFile f y) i + openRefs i (fs.file f) = onInode fs i + openRefs i y :=
  tally_update ..

theorem onInode_close {fs : Files} {y : File} (hy : y.type = .FD_NONE) (i : InodeId) :
    onInode (fs.setFile f y) i + openRefs i (fs.file f) = onInode fs i := by
  rw [onInode_setFile, openRefs_of_ne (by simp [hy]), Nat.add_zero]

theorem rowRefs_update (row : Fin NOFILE → Option Fd) (k : Fin NOFILE) (v : Option Fd) :
    rowRefs f (Function.update row k v) + fdRefs f (row k) = rowRefs f row + fdRefs f v :=
  tally_update ..

theorem fileRefs_setSlot (T : Table) (p : ProcId) (x : Holding) (f : FileId) :
    (T.setSlot p x).fileRefs f + rowRefs f (T p).ofile = T.fileRefs f + rowRefs f x.ofile :=
  tally_update (fun y : Holding => rowRefs f y.ofile) ..

theorem dirRefs_setSlot (T : Table) (p : ProcId) (x : Holding) (i : InodeId) :
    (T.setSlot p x).dirRefs i + cwdRefs i (T p).cwd = T.dirRefs i + cwdRefs i x.cwd :=
  tally_update (fun y : Holding => cwdRefs i y.cwd) ..

theorem fileRefs_setEntry (T : Table) (p : ProcId) (k : Fin NOFILE) (v : Option Fd)
    (f : FileId) : (T.setEntry p k v).fileRefs f + fdRefs f ((T p).ofile k) =
      T.fileRefs f + fdRefs f v := by
  have hslot : (T.setEntry p k v).fileRefs f + rowRefs f (T p).ofile =
      T.fileRefs f + rowRefs f (Function.update (T p).ofile k v) := fileRefs_setSlot ..
  have hrow := rowRefs_update (f := f) (T p).ofile k v
  omega

theorem dirRefs_setEntry (T : Table) (p : ProcId) (k : Fin NOFILE) (v : Option Fd)
    (i : InodeId) : (T.setEntry p k v).dirRefs i = T.dirRefs i := tally_update_of_eq rfl

theorem fileRefs_setCwd (T : Table) (p : ProcId) (c : Option Cwd) (f : FileId) :
    (T.setCwd p c).fileRefs f = T.fileRefs f := tally_update_of_eq rfl

theorem dirRefs_setCwd (T : Table) (p : ProcId) (c : Option Cwd) (i : InodeId) :
    (T.setCwd p c).dirRefs i + cwdRefs i (T p).cwd = T.dirRefs i + cwdRefs i c :=
  dirRefs_setSlot T p { T p with cwd := c } i

@[simp] theorem setSlot_self : (T.setSlot p x) p = x := Function.update_self ..

theorem setSlot_of_ne (hq : q ≠ p) : (T.setSlot p x) q = T q :=
  Function.update_of_ne hq ..

/-- An entry that counts. -/
theorem fileRefs_pos {k : Fin NOFILE} (he : (T p).ofile k = some e)
    (hb : e.borrowed = false) : 0 < T.fileRefs e.file := by
  refine tally_pos_of (x := p) (tally_pos_of (x := k) ?_)
  rw [he, fdRefs_owned hb, one_self]
  decide

theorem dirRefs_pos (hc : (T p).cwd = some c) (hb : c.borrowed = false) :
    0 < T.dirRefs c.inode := by
  refine tally_pos_of (x := p) ?_
  rw [hc, cwdRefs_owned hb, one_self]
  decide

end

/-! ## The invariant -/

/-- No inode is cached twice. -/
def Cached (fs : Files) : Prop :=
  ∀ i j, 0 < (fs.inode i).ref → 0 < (fs.inode j).ref → (fs.inode i).inum = (fs.inode j).inum → i = j

/-- `a` and `b` count the references in the local variables of the call that is going on. -/
structure FileInv (fs : Files) (T : Table) (a : InodeId → ℕ) (b : FileId → ℕ) : Prop where
  current : ∀ p k, ∀ e ∈ (T p).ofile k, e.borrowed = false ∨ (T p).live = true →
    (fs.file e.file).gen = e.gen
  closed : ∀ f, (fs.file f).ref = 0 → (fs.file f).type = .FD_NONE
  files : Balanced (fun f => (fs.file f).ref) b T.fileRefs T.lentFile
  inodes : Balanced (fun i => (fs.inode i).ref) (fun i => a i + onInode fs i) T.dirRefs T.lentDir
  cached : Cached fs

/-- The panics that no reference count causes. -/
def Unrelated : Panic → Prop
  | .igetNoInodes | .freevmNoPgdir | .initExiting => True
  | .filedup | .fileclose | .ilock | .iunlock | .nullCwd => False

section
variable {fs fs' : Files} {T : Table} {a : InodeId → ℕ} {b : FileId → ℕ} {p q : ProcId} {f : FileId} {i : InodeId} {e : Fd} {c : Cwd}
  {k : Fin NOFILE}

/-- Whatever a live slot names is open, and has not been handed out again. -/
theorem FileInv.entry (inv : FileInv fs T a b) (hp : (T p).live = true)
    (he : (T p).ofile k = some e) :
    b e.file + 1 ≤ (fs.file e.file).ref ∧ (fs.file e.file).gen = e.gen := by
  refine ⟨inv.files.covered ?_, inv.current p k e he (.inr hp)⟩
  cases hb : e.borrowed with
  | false => exact .inl (fileRefs_pos he hb)
  | true => exact .inr ⟨p, hp, k, e, he, hb, rfl⟩

theorem FileInv.dir (inv : FileInv fs T a b) (hp : (T p).live = true)
    (hc : (T p).cwd = some c) :
    a c.inode + onInode fs c.inode + 1 ≤ (fs.inode c.inode).ref := by
  refine inv.inodes.covered ?_
  cases hb : c.borrowed with
  | false => exact .inl (dirRefs_pos hc hb)
  | true => exact .inr ⟨p, hp, c, hc, hb, rfl⟩

theorem FileInv.inode_nonneg (inv : FileInv fs T a b) (i : InodeId) : 0 ≤ (fs.inode i).ref := by
  have := inv.inodes.covers i
  omega

/-! ## Inodes -/

theorem ends_ilock (hi : 1 ≤ (fs.inode i).ref) {E : Panic → Prop} :
    Ends (ilock fs i) (fun _ => True) E := by
  unfold ilock
  rw [if_neg (by omega)]
  trivial

theorem ends_iunlock (hi : 1 ≤ (fs.inode i).ref) {E : Panic → Prop} :
    Ends (iunlock fs i) (fun _ => True) E := by
  unfold iunlock
  rw [if_neg (by omega)]
  trivial

theorem ends_iunlockput (hi : 1 ≤ (fs.inode i).ref) {E : Panic → Prop} :
    Ends (iunlockput fs i) (fun t => t = iput fs i) E :=
  (ends_iunlock hi).bind fun _ _ => rfl

/-- On the way from `fs`, the inode `ip` with number `n` is held. -/
structure Walk (fs s : Files) (ip : InodeId) (n : ℕ) : Prop where
  file : s.file = fs.file
  refs : ∀ j, (s.inode j).ref = (fs.inode j).ref + one ip j
  nums : ∀ j, 0 < (fs.inode j).ref → (s.inode j).inum = (fs.inode j).inum
  inum : (s.inode ip).inum = n
  cached : Cached s

theorem cached_setInode (hc : Cached fs) {y : Inode} (hnum : y.inum = (fs.inode i).inum)
    (hpos : 0 < y.ref → 0 < (fs.inode i).ref) : Cached (fs.setInode i y) := by
  have hsame : ∀ j, ((fs.setInode i y).inode j).inum = (fs.inode j).inum :=
    apply_update_same (g := Inode.inum) hnum
  have hlow : ∀ j, 0 < ((fs.setInode i y).inode j).ref → 0 < (fs.inode j).ref := by
    intro j hj
    by_cases hji : j = i
    · subst hji
      rw [Files.setInode_self] at hj
      exact hpos hj
    · rwa [Files.setInode_of_ne hji] at hj
  intro a b ha hb hab
  rw [hsame, hsame] at hab
  exact hc a b (hlow a ha) (hlow b hb) hab

theorem idup_walk (hc : Cached fs) (hi : 1 ≤ (fs.inode i).ref) :
    Walk fs (idup fs i) i (fs.inode i).inum := by
  have hnums : ∀ j, ((idup fs i).inode j).inum = (fs.inode j).inum :=
    apply_update_same (g := Inode.inum) rfl
  exact ⟨rfl, apply_update_add (g := Inode.ref) rfl, fun j _ => hnums j, hnums i,
    cached_setInode hc rfl fun _ => by omega⟩

/-- A slot without references takes the inode that was not cached. -/
theorem fresh_walk {n : ℕ} (hc : Cached fs) (hi : (fs.inode i).ref = 0)
    (hno : ∀ j, 0 < (fs.inode j).ref → (fs.inode j).inum ≠ n) :
    Walk fs (fs.setInode i { inum := n, ref := 1 }) i n := by
  have hother : ∀ j, j ≠ i → (fs.setInode i { inum := n, ref := 1 }).inode j = fs.inode j :=
    fun j hj => Files.setInode_of_ne hj
  have hself : (fs.setInode i { inum := n, ref := 1 }).inode i = { inum := n, ref := 1 } :=
    Files.setInode_self
  refine ⟨rfl, apply_update_add (g := Inode.ref) (by rw [hi]; rfl), fun j hj => ?_, by rw [hself],
    fun a b ha hb hab => ?_⟩
  · have hji : j ≠ i := by
      rintro rfl
      omega
    rw [hother j hji]
  · by_cases hai : a = i <;> by_cases hbi : b = i
    · rw [hai, hbi]
    · rw [hai, hself, hother b hbi] at hab
      rw [hother b hbi] at hb
      exact absurd hab.symm (hno b hb)
    · rw [hbi, hself, hother a hai] at hab
      rw [hother a hai] at ha
      exact absurd hab (hno a ha)
    · rw [hother a hai, hother b hbi] at hab
      rw [hother a hai] at ha
      rw [hother b hbi] at hb
      exact hc a b ha hb hab

theorem iget_walk (hc : Cached fs) (n : ℕ) :
    Ends (iget fs n) (fun r => Walk fs r.1 r.2 n) Unrelated := by
  unfold iget
  split
  · next j hj =>
    have hfound := List.find?_some hj
    simp only [decide_eq_true_eq] at hfound
    obtain ⟨hpos, hnum⟩ := hfound
    exact hnum ▸ idup_walk hc hpos
  · next hnone =>
    have hno : ∀ j, 0 < (fs.inode j).ref → (fs.inode j).inum ≠ n := by
      intro j hj hn
      have := List.find?_eq_none.mp hnone j (List.mem_finRange j)
      simp [hj, hn] at this
    split
    · next j hj => exact fresh_walk hc (by simpa using List.find?_some hj) hno
    · trivial

/-- The next inode is held before the last one is put. -/
theorem Walk.next {s t : Files} {ip j : InodeId} {n m : ℕ} (hnonneg : ∀ j, 0 ≤ (fs.inode j).ref)
    (hw : Walk fs s ip n) (ht : Walk s t j m) : Walk fs (iput t ip) j m := by
  have hrefs : ∀ y, ((iput t ip).inode y).ref = (t.inode y).ref - one ip y :=
    apply_update_sub (g := Inode.ref) rfl
  have hnums : ∀ y, ((iput t ip).inode y).inum = (t.inode y).inum :=
    apply_update_same (g := Inode.inum) rfl
  have hpos : 1 ≤ (s.inode ip).ref := by
    have := hw.refs ip
    have := hnonneg ip
    rw [one_self] at *
    omega
  refine ⟨ht.file.trans hw.file, fun y => ?_, fun y hy => ?_, (hnums j).trans ht.inum,
    cached_setInode ht.cached rfl fun _ => ?_⟩
  · have := hrefs y
    have := ht.refs y
    have := hw.refs y
    omega
  · have := hw.refs y
    rw [hnums, ht.nums y (by omega), hw.nums y hy]
  · have := ht.refs ip
    omega

theorem namexLoop_walk {s : Files} {ip : InodeId} {n : ℕ} (hnonneg : ∀ j, 0 ≤ (fs.inode j).ref)
    (hw : Walk fs s ip n) (inums : List ℕ) :
    Ends (namexLoop s ip inums) (fun r => Walk fs r.1 r.2 (inums.getLast?.getD n)) Unrelated := by
  induction inums generalizing s ip n with
  | nil => exact hw
  | cons m inums ih =>
      have hpos : 1 ≤ (s.inode ip).ref := by
        have := hw.refs ip
        have := hnonneg ip
        rw [one_self] at *
        omega
      refine (ends_ilock hpos).bind fun _ _ => (iget_walk hw.cached m).bind ?_
      rintro ⟨t, j⟩ ht
      have hpos' : 1 ≤ (t.inode ip).ref := by
        have := ht.refs ip
        simp only at this
        omega
      refine (ends_iunlockput hpos').bind fun u hu => ?_
      subst hu
      have hlast : (m :: inums).getLast?.getD n = inums.getLast?.getD m := by
        cases inums <;> simp [List.getLast?_cons]
      rw [hlast]
      exact ih (hw.next hnonneg ht)

/-- The number of the inode that a path from `cwd` leads to. -/
def Path.target (path : Path) (cwd : ℕ) : ℕ :=
  path.inums.getLast?.getD (if path.absolute then ROOTINO else cwd)

theorem FileInv.walk {s : Files} {n : ℕ} (inv : FileInv fs T a b) (hw : Walk fs s i n) :
    FileInv s T (plus a i) b where
  current := by
    rw [hw.file]
    exact inv.current
  closed := by
    rw [hw.file]
    exact inv.closed
  files := by
    rw [hw.file]
    exact inv.files
  inodes := by
    have hon : ∀ j, onInode s j = onInode fs j := fun j => by rw [onInode, hw.file, onInode]
    refine inv.inodes.acquire hw.refs fun j => ?_
    rw [hon]
    exact Nat.add_right_comm ..
  cached := hw.cached

/-- A held inode is put. -/
theorem FileInv.iput (inv : FileInv fs T (plus a i) b) : FileInv (iput fs i) T a b where
  current := inv.current
  closed := inv.closed
  files := inv.files
  inodes := by
    refine inv.inodes.release (x := i) (apply_update_sub (g := Inode.ref) rfl) fun j => ?_
    simp only [plus]
    exact Nat.add_right_comm ..
  cached := cached_setInode inv.cached rfl fun hpos => by
    simp only at hpos
    omega

theorem FileInv.held_pos (inv : FileInv fs T (plus a i) b) : 1 ≤ (fs.inode i).ref := by
  refine inv.inodes.held (x := i) ?_
  simp only [plus, one_self]
  omega

theorem ends_iunlockput_held (inv : FileInv fs T (plus a i) b) :
    Ends (iunlockput fs i) (fun t => t.file = fs.file ∧ FileInv t T a b) Unrelated :=
  (ends_iunlockput inv.held_pos).mono fun _ ht => ht ▸ ⟨rfl, inv.iput⟩

theorem namexStart_walk (inv : FileInv fs T a b) (hp : (T p).live = true)
    (hc : (T p).cwd = some c) (absolute : Bool) :
    Ends (namexStart fs (some c.inode) absolute)
      (fun r => Walk fs r.1 r.2 (if absolute then ROOTINO else (fs.inode c.inode).inum))
      Unrelated := by
  cases absolute with
  | true => exact iget_walk inv.cached ROOTINO
  | false =>
      have := inv.dir hp hc
      exact idup_walk inv.cached (by omega)

/-- `namei` from the directory of a live slot: the inode that it finds is held. -/
theorem ends_namei (inv : FileInv fs T a b) (hp : (T p).live = true)
    (hc : (T p).cwd = some c) (path : Path) :
    Ends (namei fs (some c.inode) path) (fun r =>
      (∀ ip ∈ r.2, path.found = true ∧ FileInv r.1 T (plus a ip) b ∧
        Walk fs r.1 ip (path.target (fs.inode c.inode).inum)) ∧
      (r.2 = none → FileInv r.1 T a b)) Unrelated := by
  refine (namexStart_walk inv hp hc path.absolute).bind ?_
  rintro ⟨s, ip⟩ hs
  refine (namexLoop_walk inv.inode_nonneg hs path.inums).bind ?_
  rintro ⟨t, jp⟩ ht
  have hheld := inv.walk ht
  cases hfound : path.found with
  | true =>
      refine ⟨fun ip hip => ?_, by simp⟩
      obtain rfl : jp = ip := by simpa using hip
      exact ⟨rfl, hheld, ht⟩
  | false =>
      refine (ends_ilock hheld.held_pos).bind fun _ _ => ?_
      refine (ends_iunlockput_held hheld).bind fun u hu => ?_
      exact ⟨by simp, fun _ => hu.2⟩

/-! ## Files -/

/-- One open file is changed, but not what counts of it for the inodes, nor its generation. -/
theorem FileInv.setFile {b' : FileId → ℕ} {y : File} (inv : FileInv fs T a b)
    (hgen : y.gen = (fs.file f).gen) (htype : y.type = (fs.file f).type) (hclosed : y.ref ≠ 0)
    (hfiles : Balanced (fun g => ((fs.setFile f y).file g).ref) b' T.fileRefs T.lentFile) :
    FileInv (fs.setFile f y) T a b' where
  current := by
    intro p k e he hor
    have hgens := apply_update_same (g := File.gen) (T := fs.file) hgen e.file
    exact hgens.trans (inv.current p k e he hor)
  closed := by
    intro g hg
    by_cases hgf : g = f
    · subst hgf
      rw [Files.setFile_self] at hg
      exact absurd hg hclosed
    · rw [Files.setFile_of_ne hgf] at hg ⊢
      exact inv.closed g hg
  files := hfiles
  inodes := by
    have hon : ∀ j, onInode (fs.setFile f y) j = onInode fs j := fun j =>
      tally_update_of_eq (by simp only [openRefs, htype])
    exact inv.inodes.congr (fun _ => rfl) fun j => by rw [hon]
  cached := inv.cached

theorem ends_filedup (inv : FileInv fs T a b) (hf : 1 ≤ (fs.file f).ref) :
    Ends (filedup fs f) (fun t => FileInv t T a (plus b f) ∧
      ∀ g, (t.file g).gen = (fs.file g).gen) Unrelated := by
  unfold filedup
  rw [if_neg (by omega)]
  refine ⟨inv.setFile rfl rfl (by simp only; omega) ?_,
    apply_update_same (g := File.gen) rfl⟩
  exact inv.files.acquire (x := f) (apply_update_add (g := File.ref) rfl) fun _ => rfl

/-- What closing one reference of `f` does to the counts; of an inode, the references that no open
file has stay. -/
structure Closed (fs t : Files) (f : FileId) : Prop where
  refs : ∀ g, (t.file g).ref = (fs.file g).ref - one f g
  inodes : ∀ i, (t.inode i).ref - onInode t i = (fs.inode i).ref - onInode fs i

/-- The last reference of `f` goes, and with it the file's reference to `i`, if it has one. -/
theorem FileInv.lastClose {y : File} {t : Files} (inv : FileInv fs T a (plus b f))
    (hy : y = { fs.file f with ref := 0, type := .FD_NONE }) (hlast : (fs.file f).ref = 1)
    (hfile : t.file = (fs.setFile f y).file)
    (hrefs : ∀ j, (t.inode j).ref = (fs.inode j).ref - openRefs j (fs.file f))
    (hinodes : Balanced (fun i => (t.inode i).ref) (fun i => a i + onInode t i) T.dirRefs
      T.lentDir) (hcached : Cached t) : FileInv t T a b ∧ Closed fs t f := by
  have hon : ∀ j, onInode t j + openRefs j (fs.file f) = onInode fs j := by
    intro j
    rw [onInode, hfile]
    exact onInode_close (by rw [hy]) j
  have hcount : ∀ g, (t.file g).ref = (fs.file g).ref - one f g := by
    rw [hfile]
    refine apply_update_sub (g := File.ref) ?_
    rw [hy, hlast]
    rfl
  refine ⟨⟨fun p k e he hor => ?_, fun g hg => ?_, ?_, hinodes, hcached⟩, hcount, fun j => ?_⟩
  · rw [hfile]
    have hgens := apply_update_same (g := File.gen) (T := fs.file) (x := f) (v := y) (by rw [hy])
      e.file
    exact hgens.trans (inv.current p k e he hor)
  · rw [hfile] at hg ⊢
    by_cases hgf : g = f
    · rw [hgf, Files.setFile_self, hy]
    · rw [Files.setFile_of_ne hgf] at hg ⊢
      exact inv.closed g hg
  · exact inv.files.release (x := f) hcount fun _ => rfl
  · have := hrefs j
    have := hon j
    omega

theorem ends_fileclose (inv : FileInv fs T a (plus b f)) :
    Ends (fileclose fs f) (fun t => FileInv t T a b ∧ Closed fs t f) Unrelated := by
  have hpos : 1 ≤ (fs.file f).ref := by
    refine inv.files.held (x := f) ?_
    simp only [plus, one_self]
    omega
  unfold fileclose
  simp only
  rw [if_neg (by omega)]
  split
  · have hrefs : ∀ g, ((fs.setFile f { fs.file f with ref := (fs.file f).ref - 1 }).file g).ref =
        (fs.file g).ref - one f g := apply_update_sub (g := File.ref) rfl
    have hon : ∀ j, onInode (fs.setFile f { fs.file f with ref := (fs.file f).ref - 1 }) j =
        onInode fs j := fun j => tally_update_of_eq rfl
    refine ⟨inv.setFile rfl rfl (by simp only; omega) ?_, hrefs, fun j => by rw [hon]; rfl⟩
    exact inv.files.release (x := f) hrefs fun _ => rfl
  · have hlast : (fs.file f).ref = 1 := by omega
    have hon : ∀ j, onInode (fs.setFile f { fs.file f with ref := 0, type := .FD_NONE }) j +
        openRefs j (fs.file f) = onInode fs j := fun j => onInode_close rfl j
    split
    · next ip htype =>
      refine inv.lastClose rfl hlast rfl (fun j => ?_) ?_ (cached_setInode inv.cached rfl ?_)
      · rw [openRefs_inode htype]
        exact apply_update_sub (g := Inode.ref) rfl j
      · refine inv.inodes.release (x := ip) (apply_update_sub (g := Inode.ref) rfl) fun j => ?_
        have hj := hon j
        rw [openRefs_inode htype] at hj
        exact (Nat.add_assoc ..).trans (congrArg _ hj)
      · exact fun hput => by
          have : 0 < (fs.inode ip).ref - 1 := hput
          exact (show 0 < (fs.inode ip).ref by omega)
    all_goals
      next htype =>
      have hnone : ∀ j, openRefs j (fs.file f) = 0 := openRefs_of_ne (by simp [htype])
      refine inv.lastClose rfl hlast rfl (fun j => ?_) ?_ inv.cached
      · rw [hnone]
        exact (Int.sub_zero _).symm
      · refine inv.inodes.congr (fun _ => rfl) fun j => ?_
        have hj := hon j
        rw [hnone, Nat.add_zero] at hj
        exact congrArg _ hj

/-- `filealloc` hands out a file that nobody names. -/
theorem FileInv.filealloc (inv : FileInv fs T a b) (ha : filealloc fs = (fs', some f)) :
    FileInv fs' T a (plus b f) ∧ (fs'.file f).type = .FD_NONE ∧ (fs'.file f).ref = 1 ∧
      fs'.inode = fs.inode := by
  unfold Threads.filealloc at ha
  split at ha
  · next g hg =>
    obtain ⟨rfl, hf⟩ := Prod.mk.inj ha
    obtain rfl : g = f := Option.some.inj hf
    have hzero : (fs.file g).ref = 0 := by simpa using List.find?_some hg
    obtain ⟨-, hown, hlent⟩ := inv.files.unused hzero
    have hclosed := inv.closed g hzero
    refine ⟨⟨fun p k e he hor => ?_, fun g' hg' => ?_, ?_, ?_, inv.cached⟩, ?_, ?_, rfl⟩
    · have hne : e.file ≠ g := by
        intro heq
        cases hb : e.borrowed with
        | false =>
            have hpos : 0 < T.fileRefs e.file := fileRefs_pos he hb
            rw [heq, hown] at hpos
            exact Nat.lt_irrefl 0 hpos
        | true =>
            rw [hb] at hor
            exact hlent ⟨p, hor.resolve_left (by decide), k, e, he, hb, heq⟩
      rw [Files.setFile_of_ne hne]
      exact inv.current p k e he hor
    · by_cases hgg : g' = g
      · subst hgg
        rw [Files.setFile_self] at hg'
        cases hg'
      · rw [Files.setFile_of_ne hgg] at hg' ⊢
        exact inv.closed g' hg'
    · refine inv.files.acquire (x := g) (apply_update_add (g := File.ref) ?_) fun _ => rfl
      rw [hzero]
      rfl
    · have hon : ∀ j, onInode (fs.setFile g { fs.file g with
          ref := 1, gen := (fs.file g).gen + 1 }) j = onInode fs j :=
        fun j => tally_update_of_eq rfl
      exact inv.inodes.congr (fun _ => rfl) fun j => congrArg _ (hon j)
    · rw [Files.setFile_self]
      exact hclosed
    · rw [Files.setFile_self]
  · cases ha

/-- The new file takes over the reference to the inode. -/
theorem FileInv.openFile (inv : FileInv fs T (plus a i) (plus b f))
    (htype : (fs.file f).type = .FD_NONE) (href : (fs.file f).ref = 1) :
    FileInv (fs.setFile f { fs.file f with type := .FD_INODE i }) T a (plus b f) where
  current := by
    intro p k e he hor
    have hgens := apply_update_same (g := File.gen) (T := fs.file) (x := f)
      (v := { fs.file f with type := .FD_INODE i }) rfl e.file
    exact hgens.trans (inv.current p k e he hor)
  closed := by
    intro g hg
    by_cases hgf : g = f
    · subst hgf
      rw [Files.setFile_self] at hg
      exact absurd (href.symm.trans hg) (by decide)
    · rw [Files.setFile_of_ne hgf] at hg ⊢
      exact inv.closed g hg
  files := inv.files.congr (apply_update_same (g := File.ref) rfl) fun _ => rfl
  inodes := by
    refine inv.inodes.congr (fun _ => rfl) fun j => ?_
    have hset := onInode_setFile fs f { fs.file f with type := .FD_INODE i } j
    rw [openRefs_of_ne (by simp [htype]), openRefs_inode rfl, Nat.add_zero] at hset
    rw [hset]
    simp only [plus]
    omega
  cached := inv.cached

/-- The inode of an open file is in use. -/
theorem FileInv.inode_of_file (inv : FileInv fs T a b) (hf : (fs.file f).type = .FD_INODE i) :
    1 ≤ (fs.inode i).ref := by
  refine inv.inodes.held (x := i) ?_
  have hone : 0 < openRefs i (fs.file f) := by
    rw [openRefs_inode hf, one_self]
    decide
  exact Nat.lt_of_lt_of_le (tally_pos_of hone) (Nat.le_add_left ..)

theorem ends_filestat (inv : FileInv fs T a b) (f : FileId) :
    Ends (filestat fs f) (fun _ => True) Unrelated := by
  unfold filestat
  split
  · next ip htype =>
    have hpos := inv.inode_of_file htype
    exact (ends_ilock hpos).bind fun _ _ => (ends_iunlock hpos).bind fun _ _ => trivial
  · trivial
  · trivial

/-! ## Slots -/

/-- A slot is changed so that it counts no more than before, and uses nothing new. -/
theorem FileInv.setSlot {x : Holding} (inv : FileInv fs T a b)
    (hcurrent : ∀ k, ∀ e ∈ x.ofile k, e.borrowed = false ∨ x.live = true →
      (fs.file e.file).gen = e.gen)
    (hfiles : ∀ g, rowRefs g x.ofile ≤ rowRefs g (T p).ofile)
    (hdirs : ∀ j, cwdRefs j x.cwd ≤ cwdRefs j (T p).cwd)
    (hlent : x.live = true → (∀ k, ∀ e ∈ x.ofile k, e.borrowed = true →
        0 < T.fileRefs e.file ∨ T.lentFile e.file) ∧
      ∀ c ∈ x.cwd, c.borrowed = true → 0 < T.dirRefs c.inode ∨ T.lentDir c.inode) :
    FileInv fs (T.setSlot p x) a b where
  current := by
    intro q k e he hor
    by_cases hq : q = p
    · subst hq
      rw [setSlot_self] at he hor
      exact hcurrent k e he hor
    · rw [setSlot_of_ne hq] at he hor
      exact inv.current q k e he hor
  closed := inv.closed
  files := by
    refine inv.files.lend (fun g => ?_) fun g => ?_
    · have := fileRefs_setSlot T p x g
      have := hfiles g
      omega
    · rintro ⟨q, hlive, k, e, he, hb, rfl⟩
      by_cases hq : q = p
      · subst hq
        rw [setSlot_self] at hlive he
        exact (hlent hlive).1 k e he hb
      · rw [setSlot_of_ne hq] at hlive he
        exact .inr ⟨q, hlive, k, e, he, hb, rfl⟩
  inodes := by
    refine inv.inodes.lend (fun j => ?_) fun j => ?_
    · have := dirRefs_setSlot T p x j
      have := hdirs j
      omega
    · rintro ⟨q, hlive, c, hc, hb, rfl⟩
      by_cases hq : q = p
      · subst hq
        rw [setSlot_self] at hlive hc
        exact (hlent hlive).2 c hc hb
      · rw [setSlot_of_ne hq] at hlive hc
        exact .inr ⟨q, hlive, c, hc, hb, rfl⟩
  cached := inv.cached

/-- What an entry that counts makes lent was lent before. -/
theorem lentFile_setEntry {v : Option Fd} (hv : ∀ e ∈ v, e.borrowed = false)
    (hl : (T.setEntry p k v).lentFile f) : T.lentFile f := by
  obtain ⟨q, hlive, l, e, he, hb, rfl⟩ := hl
  by_cases hq : q = p
  · subst hq
    rw [Table.setEntry, setSlot_self] at hlive he
    by_cases hl : l = k
    · subst hl
      simp only [Function.update_self] at he
      rw [hv e he] at hb
      cases hb
    · simp only [Function.update_of_ne hl] at he
      exact ⟨q, hlive, l, e, he, hb, rfl⟩
  · rw [Table.setEntry, setSlot_of_ne hq] at hlive he
    exact ⟨q, hlive, l, e, he, hb, rfl⟩

theorem setEntry_live (T : Table) (p : ProcId) (k : Fin NOFILE) (v : Option Fd) :
    ∀ q, (T.setEntry p k v q).live = (T q).live := apply_update_same (g := Holding.live) rfl

theorem setEntry_cwd (T : Table) (p : ProcId) (k : Fin NOFILE) (v : Option Fd) :
    ∀ q, (T.setEntry p k v q).cwd = (T q).cwd := apply_update_same (g := Holding.cwd) rfl

theorem setCwd_live (T : Table) (p : ProcId) (c : Option Cwd) :
    ∀ q, (T.setCwd p c q).live = (T q).live := apply_update_same (g := Holding.live) rfl

theorem setCwd_ofile (T : Table) (p : ProcId) (c : Option Cwd) :
    ∀ q, (T.setCwd p c q).ofile = (T q).ofile := apply_update_same (g := Holding.ofile) rfl

theorem setEntry_current {v : Option Fd} (inv : FileInv fs T a b)
    (hv : ∀ e ∈ v, (fs.file e.file).gen = e.gen) : ∀ q l, ∀ e ∈ ((T.setEntry p k v) q).ofile l,
      e.borrowed = false ∨ ((T.setEntry p k v) q).live = true →
        (fs.file e.file).gen = e.gen := by
  intro q l e he hor
  rw [setEntry_live] at hor
  by_cases hq : q = p
  · subst hq
    rw [Table.setEntry, setSlot_self] at he
    by_cases hl : l = k
    · subst hl
      simp only [Function.update_self] at he
      exact hv e he
    · simp only [Function.update_of_ne hl] at he
      exact inv.current q l e he hor
  · rw [Table.setEntry, setSlot_of_ne hq] at he
    exact inv.current q l e he hor

theorem setEntry_inodes {v : Option Fd} (inv : FileInv fs T a b) :
    Balanced (fun i => (fs.inode i).ref) (fun i => a i + onInode fs i)
      (T.setEntry p k v).dirRefs (T.setEntry p k v).lentDir := by
  refine inv.inodes.lend (fun j => Nat.le_of_eq (dirRefs_setEntry ..)) fun j hl => .inr ?_
  simpa only [Table.lentDir, setEntry_live, setEntry_cwd] using hl

/-- A held reference goes into the table. -/
theorem FileInv.storeEntry (inv : FileInv fs T a (plus b f)) (hb : e.borrowed = false)
    (hf : e.file = f) (hgen : (fs.file f).gen = e.gen) :
    FileInv fs (T.setEntry p k (some e)) a b := by
  subst hf
  have hstore : Balanced (fun g => (fs.file g).ref) b (T.setEntry p k (some e)).fileRefs
      T.lentFile := by
    refine inv.files.store (x := e.file) (fun _ => rfl) fun g => ?_
    have hset := fileRefs_setEntry T p k (some e) g
    rw [fdRefs_owned hb] at hset
    exact Nat.le_trans (Nat.le_add_right ..) (Nat.le_of_eq hset)
  refine ⟨setEntry_current inv fun a ha => ?_, inv.closed, ?_, setEntry_inodes inv, inv.cached⟩
  · obtain rfl : e = a := Option.some.inj ha
    exact hgen
  · refine hstore.lend (fun _ => Nat.le_refl _) fun g hl => .inr (lentFile_setEntry ?_ hl)
    rintro a ha
    obtain rfl : e = a := Option.some.inj ha
    exact hb

/-- An entry that counts leaves the table; its reference is held. -/
theorem FileInv.takeEntry (inv : FileInv fs T a b) (he : (T p).ofile k = some e)
    (hb : e.borrowed = false)
    (hlent : T.lentFile e.file → b e.file + 2 ≤ (fs.file e.file).ref) :
    FileInv fs (T.setEntry p k none) a (plus b e.file) := by
  have htake : Balanced (fun g => (fs.file g).ref) (plus b e.file)
      (T.setEntry p k none).fileRefs T.lentFile := by
    refine inv.files.take (x := e.file) (fun _ => rfl) (fun g => ?_) hlent
    have hset := fileRefs_setEntry T p k none g
    rw [he, fdRefs_owned hb, fdRefs_none, Nat.add_zero] at hset
    exact hset
  refine ⟨setEntry_current inv (by simp), inv.closed, ?_, setEntry_inodes inv, inv.cached⟩
  exact htake.lend (fun _ => Nat.le_refl _) fun g hl =>
    .inr (lentFile_setEntry (v := none) (by simp) hl)

theorem setCwd_files {c : Option Cwd} (inv : FileInv fs T a b) :
    Balanced (fun f => (fs.file f).ref) b (T.setCwd p c).fileRefs
      (T.setCwd p c).lentFile := by
  refine inv.files.lend (fun g => Nat.le_of_eq (fileRefs_setCwd ..)) fun g hl => .inr ?_
  simpa only [Table.lentFile, setCwd_live, setCwd_ofile] using hl

theorem setCwd_current {c : Option Cwd} (inv : FileInv fs T a b) :
    ∀ q l, ∀ e ∈ ((T.setCwd p c) q).ofile l,
      e.borrowed = false ∨ ((T.setCwd p c) q).live = true →
        (fs.file e.file).gen = e.gen := by
  intro q l e he hor
  rw [setCwd_live] at hor
  rw [setCwd_ofile] at he
  exact inv.current q l e he hor

theorem lentDir_setCwd {c : Option Cwd} (hc : ∀ a ∈ c, a.borrowed = false)
    (hl : (T.setCwd p c).lentDir i) : T.lentDir i := by
  obtain ⟨q, hlive, a, ha, hb, rfl⟩ := hl
  by_cases hq : q = p
  · subst hq
    rw [Table.setCwd, setSlot_self] at ha
    rw [hc a ha] at hb
    cases hb
  · rw [Table.setCwd, setSlot_of_ne hq] at hlive ha
    exact ⟨q, hlive, a, ha, hb, rfl⟩

/-- A held inode becomes the directory of a slot. -/
theorem FileInv.storeCwd (inv : FileInv fs T (plus a i) b) :
    FileInv fs (T.setCwd p (some ⟨i, false⟩)) a b := by
  have hstore : Balanced (fun i => (fs.inode i).ref) (fun i => a i + onInode fs i)
      (T.setCwd p (some ⟨i, false⟩)).dirRefs T.lentDir := by
    refine inv.inodes.store (x := i) (fun _ => Nat.add_right_comm ..) fun j => ?_
    have hset := dirRefs_setCwd T p (some ⟨i, false⟩) j
    rw [cwdRefs_owned rfl] at hset
    exact Nat.le_trans (Nat.le_add_right ..) (Nat.le_of_eq hset)
  refine ⟨setCwd_current inv, inv.closed, setCwd_files inv, ?_, inv.cached⟩
  exact hstore.lend (fun _ => Nat.le_refl _) fun j hl => .inr (lentDir_setCwd (by simp) hl)

/-- A slot parts with its directory. -/
theorem FileInv.takeCwd (inv : FileInv fs T a b) (hc : (T p).cwd = some c)
    (hb : c.borrowed = false) (hlent : T.lentDir c.inode →
      a c.inode + onInode fs c.inode + 2 ≤ (fs.inode c.inode).ref) :
    FileInv fs (T.setCwd p none) (plus a c.inode) b := by
  have htake : Balanced (fun i => (fs.inode i).ref)
      (fun i => plus a c.inode i + onInode fs i) (T.setCwd p none).dirRefs T.lentDir := by
    refine inv.inodes.take (x := c.inode) (fun _ => Nat.add_right_comm ..) (fun j => ?_) ?_
    · have hset := dirRefs_setCwd T p none j
      rw [hc, cwdRefs_owned hb, cwdRefs_none, Nat.add_zero] at hset
      exact hset
    · intro hl
      have := hlent hl
      omega
  refine ⟨setCwd_current inv, inv.closed, setCwd_files inv, ?_, inv.cached⟩
  exact htake.lend (fun _ => Nat.le_refl _) fun j hl =>
    .inr (lentDir_setCwd (c := none) (by simp) hl)

end

end IntroToOS.Threads

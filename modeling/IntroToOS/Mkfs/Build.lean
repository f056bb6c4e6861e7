import IntroToOS.Mkfs.Append

/-! # The tree that mkfs builds

`Tree` is a file system under construction as files and directories, and `Tree.add` is what the
entries of a host directory make of it. `addEntries_spec`: the disk that `addEntries` leaves holds
that tree. `add_grown`: every inode made on the way is named by exactly one of the new links.
-/

namespace IntroToOS.Mkfs
open Lib
open Fscheck (Image T_DIR T_FILE MAXFILE BSIZE n_blocks)
set_option autoImplicit false

/-! ## Trees -/

/-- An inode number and a name. -/
abbrev Link := ℕ × Name

/-- A directory is closed once its size is rounded up. -/
inductive Node
  | free
  | file (content : List Byte)
  | dir (up : ℕ) (links : List Link) (closed : Bool)

def Node.kind : Node → ℕ
  | .free => 0
  | .file _ => T_FILE
  | .dir .. => T_DIR

def linkBytes (links : List Link) : List Byte := links.flatMap fun l => dirent l.1 l.2.chars

/-- The bytes of inode `i`. -/
def Node.bytes (i : ℕ) : Node → List Byte
  | .free => []
  | .file content => content
  | .dir up links _ => dirent i [46] ++ dirent up [46, 46] ++ linkBytes links

def Node.size (i : ℕ) : Node → ℕ
  | .free => 0
  | .file content => content.length
  | .dir up links closed =>
    let n := ((Node.dir up links closed).bytes i).length
    if closed then (n / 512 + 1) * 512 else n

/-- The inodes that the links of a directory name. -/
def Node.targets : Node → List ℕ
  | .dir _ links _ => links.map Prod.fst
  | _ => []

/-- How many links a directory has. -/
def Node.width : Node → Option ℕ
  | .dir _ links _ => some links.length
  | _ => none

/-- A file or a closed directory. -/
def Node.Done : Node → Prop
  | .free => False
  | .file _ => True
  | .dir _ _ closed => closed = true

structure Tree where
  node : ℕ → Node
  next : ℕ

def Tree.files (t : Tree) : Files where
  kind i := (t.node i).kind
  size i := (t.node i).size i
  bytes i := (t.node i).bytes i
  next := t.next

def Tree.put (t : Tree) (i : ℕ) (n : Node) : Tree := { t with node := Function.update t.node i n }

/-- The next inode becomes `n`. -/
def Tree.born (t : Tree) (n : Node) : Tree := { t.put t.next n with next := t.next + 1 }

def Tree.link (t : Tree) (cur : ℕ) (l : Link) : Tree :=
  match t.node cur with
  | .dir up links closed => t.put cur (.dir up (links ++ [l]) closed)
  | _ => t

def Tree.close (t : Tree) (cur : ℕ) : Tree :=
  match t.node cur with
  | .dir up links _ => t.put cur (.dir up links true)
  | _ => t

def Tree.add (t : Tree) (cur : ℕ) : Listing → Tree
  | .nil => t
  | .dots _ rest => t.add cur rest
  | .file name content rest =>
    ((t.born (.file content)).link cur (t.next, name)).add cur rest
  | .dir name sub rest =>
    ((((t.born (.dir cur [] false)).add t.next sub).close t.next).link cur
      (t.next, name)).add cur rest

namespace Listing

/-- How many entries a listing has besides `.` and `..`. -/
def entries : Listing → ℕ
  | .nil => 0
  | .dots _ rest => rest.entries
  | .file _ _ rest => rest.entries + 1
  | .dir _ _ rest => rest.entries + 1

/-- How many files and directories are below. -/
def nodes : Listing → ℕ
  | .nil => 0
  | .dots _ rest => rest.nodes
  | .file _ _ rest => 1 + rest.nodes
  | .dir _ sub rest => 1 + sub.nodes + rest.nodes

/-- The numbers of entries of the directories below. -/
def subdirs : Listing → List ℕ
  | .nil => []
  | .dots _ rest => rest.subdirs
  | .file _ _ rest => rest.subdirs
  | .dir _ sub rest => sub.entries :: sub.subdirs ++ rest.subdirs

/-- The same with the directory itself. -/
def dirs (l : Listing) : List ℕ := l.entries :: l.subdirs

end Listing

/-- The blocks of a directory with `n` links. -/
def dirBlocks (n : ℕ) : ℕ := blocksFor (16 * (n + 2))

namespace Listing

/-- The blocks of the files and directories below. -/
def blocks : Listing → ℕ
  | .nil => 0
  | .dots _ rest => rest.blocks
  | .file _ content rest => blocksFor content.length + rest.blocks
  | .dir _ sub rest => dirBlocks sub.entries + sub.blocks + rest.blocks

/-- Every file has at most `MAXFILE` blocks. -/
def FilesFit : Listing → Prop
  | .nil => True
  | .dots _ rest => rest.FilesFit
  | .file _ content rest => content.length ≤ MAXFILE * BSIZE ∧ rest.FilesFit
  | .dir _ sub rest => sub.FilesFit ∧ rest.FilesFit

theorem entries_le_nodes (l : Listing) : l.entries ≤ l.nodes := by
  induction l with
  | nil => exact Nat.le_refl 0
  | dots _ rest ih => exact ih
  | file name content rest ih => rw [entries, nodes]; omega
  | dir name sub rest _ ih => rw [entries, nodes]; omega

end Listing

section
variable {s : Disk} {t t' : Tree} {cur up i : ℕ} {links : List Link} {l : Link} {n : Node}

theorem put_node_self : (t.put i n).node i = n := Function.update_self i _ _

theorem put_node_of_ne {j : ℕ} (h : j ≠ i) : (t.put i n).node j = t.node j :=
  Function.update_of_ne h _ _

theorem born_node_self : (t.born n).node t.next = n := put_node_self

theorem born_node_of_lt {j : ℕ} (h : j < t.next) : (t.born n).node j = t.node j :=
  put_node_of_ne (Nat.ne_of_lt h)

@[simp] theorem born_next : (t.born n).next = t.next + 1 := rfl

@[simp] theorem link_next : (t.link cur l).next = t.next := by
  unfold Tree.link
  split <;> rfl

@[simp] theorem close_next : (t.close cur).next = t.next := by
  unfold Tree.close
  split <;> rfl

theorem link_eq {closed : Bool} (h : t.node cur = .dir up links closed) :
    t.link cur l = t.put cur (.dir up (links ++ [l]) closed) := by
  rw [Tree.link, h]

theorem close_eq {closed : Bool} (h : t.node cur = .dir up links closed) :
    t.close cur = t.put cur (.dir up links true) := by
  rw [Tree.close, h]

theorem length_dirent (k : ℕ) (name : List Byte) : (dirent k name).length = 16 := by
  rw [dirent, List.length_append, List.length_take, List.length_append, List.length_replicate]
  show 2 + min 14 (name.length + 14) = 16
  omega

theorem length_linkBytes (links : List Link) : (linkBytes links).length = 16 * links.length := by
  induction links with
  | nil => rfl
  | cons l links ih =>
      have hcons : linkBytes (l :: links) = dirent l.1 l.2.chars ++ linkBytes links := rfl
      rw [hcons, List.length_append, length_dirent, ih, List.length_cons]
      omega

theorem length_dir_bytes (i up : ℕ) (links : List Link) (closed : Bool) :
    ((Node.dir up links closed).bytes i).length = 16 * (links.length + 2) := by
  rw [Node.bytes, List.length_append, List.length_append, length_dirent, length_dirent,
    length_linkBytes]
  omega

/-! ## Trees as files -/

theorem files_put (t : Tree) (i : ℕ) (n : Node) : (t.put i n).files =
    { kind := Function.update t.files.kind i n.kind
      size := Function.update t.files.size i (n.size i)
      bytes := Function.update t.files.bytes i (n.bytes i)
      next := t.next } := by
  have hkind : (t.put i n).files.kind = Function.update t.files.kind i n.kind :=
    funext fun j => Function.apply_update (fun _ => Node.kind) t.node i n j
  have hsize : (t.put i n).files.size = Function.update t.files.size i (n.size i) :=
    funext fun j => Function.apply_update Node.size t.node i n j
  have hbytes : (t.put i n).files.bytes = Function.update t.files.bytes i (n.bytes i) :=
    funext fun j => Function.apply_update Node.bytes t.node i n j
  rw [← hkind, ← hsize, ← hbytes]
  rfl

theorem append_files {p : List Byte} {m : ℕ} (hkind : n.kind = (t.node i).kind)
    (hbytes : n.bytes i = (t.node i).bytes i ++ p) (hsize : n.size i = m) :
    (t.files.append i p).setSize i m = (t.put i n).files := by
  have hsame : Function.update t.files.kind i (t.node i).kind = t.files.kind :=
    Function.update_eq_self i t.files.kind
  rw [files_put, hkind, hbytes, hsize, hsame]
  rfl

theorem create_files {p : List Byte} {m : ℕ} (hfree : t.node t.next = .free)
    (hbytes : n.bytes t.next = p) (hsize : n.size t.next = m) :
    ((t.files.create n.kind).append t.next p).setSize t.next m = (t.born n).files := by
  have hput : (t.born n).files = { (t.put t.next n).files with next := t.next + 1 } := rfl
  have hold : t.files.bytes t.next = [] := congrArg (Node.bytes t.next) hfree
  rw [hput, files_put, hbytes, hsize]
  simp only [Files.append, Files.setSize, Files.create, hold, List.nil_append]
  rfl

/-! ## The calls on trees -/

theorem Rep.free_of_le (h : Rep s t.files) (hi : t.next ≤ i) : t.node i = .free := by
  obtain ⟨place, h⟩ := h
  have hkind : (t.node i).kind = 0 := (h.unborn i hi).1
  cases hn : t.node i with
  | free => rfl
  | file content => rw [hn] at hkind; exact nomatch hkind
  | dir up links closed => rw [hn] at hkind; exact nomatch hkind

theorem link_spec (h : Rep s t.files) (hcur : cur < t.next) (hnext : t.next ≤ 200)
    (hnode : t.node cur = .dir up links false) (hlinks : links.length ≤ 200)
    (hroom : s.freeblock + dirBlocks (links.length + 1) ≤ 1024 + dirBlocks links.length) :
    ∃ s', iappend s cur (dirent l.1 l.2.chars) = some s' ∧ Rep s' (t.link cur l).files ∧
      s'.freeblock + dirBlocks links.length = s.freeblock + dirBlocks (links.length + 1) := by
  have hbytes : t.files.bytes cur = (Node.dir up links false).bytes cur :=
    congrArg (Node.bytes cur) hnode
  have hlen : (t.files.bytes cur).length = 16 * (links.length + 2) := by
    rw [hbytes, length_dir_bytes]
  have hsize : t.files.size cur = (t.files.bytes cur).length := by
    rw [hbytes]
    exact congrArg (Node.size cur) hnode
  have hsum : 16 * (links.length + 2) + 16 = 16 * (links.length + 1 + 2) := by omega
  obtain ⟨s', happ, hrep, hfb⟩ := iappend_spec h (by omega) hcur hsize (p := dirent l.1 l.2.chars)
    (by rw [hlen, length_dirent]; omega)
    (by rw [hlen, length_dirent, hsum]; exact hroom)
  rw [hlen, length_dirent, hsum] at hrep hfb
  refine ⟨s', happ, ?_, hfb⟩
  rw [link_eq hnode, ← append_files]
  · exact hrep
  · rw [hnode]
    rfl
  · rw [hnode]
    simp only [Node.bytes, linkBytes, List.flatMap_append, List.flatMap_cons, List.flatMap_nil,
      List.append_nil, List.append_assoc]
  · show ((Node.dir up (links ++ [l]) false).bytes cur).length = _
    rw [length_dir_bytes, List.length_append]
    rfl

theorem newFile_spec (h : Rep s t.files) (hnext : t.next < 200) {content : List Byte}
    (hfit : content.length ≤ 140 * 512) (hroom : s.freeblock + blocksFor content.length ≤ 1024) :
    ∃ s₁ s', ialloc s T_FILE = some (s₁, t.next) ∧
      copyFile content.length s₁ t.next content = some s' ∧
      Rep s' (t.born (.file content)).files ∧
      s'.freeblock = s.freeblock + blocksFor content.length := by
  have hfree := h.free_of_le (Nat.le_refl _)
  have hbytes : t.files.bytes t.next = [] := congrArg (Node.bytes t.next) hfree
  have hsize : t.files.size t.next = 0 := congrArg (Node.size t.next) hfree
  have hlen : ((t.files.create T_FILE).bytes t.next).length = 0 := congrArg List.length hbytes
  obtain ⟨s₁, halloc, hrep₁, hfb₁⟩ := ialloc_spec h hnext (show T_FILE < 2 ^ 16 by decide)
  obtain ⟨s', hcopy, hrep, hfb⟩ := copyFile_spec (Nat.le_refl content.length) hrep₁ hnext
    (Nat.lt_succ_self _) (hsize.trans hlen.symm) (by rw [hlen]; omega)
    (by rw [hlen, hfb₁, Nat.zero_add]; exact Nat.le_trans hroom (Nat.le_add_right _ _))
  rw [hlen, Nat.zero_add] at hrep hfb
  refine ⟨s₁, s', halloc, hcopy, ?_, ?_⟩
  · rw [← create_files hfree rfl rfl]
    exact hrep
  · rw [← hfb₁]
    exact hfb

theorem newDir_spec (up : ℕ) (h : Rep s t.files) (hnext : t.next < 200)
    (hroom : s.freeblock + dirBlocks 0 ≤ 1024) :
    ∃ s₁ s₂ s', ialloc s T_DIR = some (s₁, t.next) ∧
      iappend s₁ t.next (dirent t.next [46]) = some s₂ ∧
      iappend s₂ t.next (dirent up [46, 46]) = some s' ∧
      Rep s' (t.born (.dir up [] false)).files ∧ s'.freeblock = s.freeblock + dirBlocks 0 := by
  have hfree := h.free_of_le (Nat.le_refl _)
  have hroom : s.freeblock + 1 ≤ 1024 := hroom
  have hbytes : t.files.bytes t.next = [] := congrArg (Node.bytes t.next) hfree
  have hsize : t.files.size t.next = 0 := congrArg (Node.size t.next) hfree
  have hlen : ((t.files.create T_DIR).bytes t.next).length = 0 := congrArg List.length hbytes
  have h0 : blocksFor 0 = 0 := rfl
  have h16 : blocksFor 16 = 1 := rfl
  have h32 : blocksFor (16 + 16) = 1 := rfl
  obtain ⟨s₁, halloc, hrep₁, hfb₁⟩ := ialloc_spec h hnext (show T_DIR < 2 ^ 16 by decide)
  obtain ⟨s₂, hdot, hrep₂, hfb₂⟩ := iappend_spec hrep₁ hnext (Nat.lt_succ_self _)
    (hsize.trans hlen.symm) (p := dirent t.next [46]) (by rw [hlen, length_dirent]; omega)
    (by rw [hlen, length_dirent, hfb₁, Nat.zero_add, h16]; omega)
  rw [hlen, length_dirent, Nat.zero_add] at hrep₂ hfb₂
  rw [h0, h16] at hfb₂
  have hlen₂ : ((((t.files.create T_DIR).append t.next (dirent t.next [46])).setSize t.next
      16).bytes t.next).length = 16 := by
    refine (length_append_bytes (t.files.create T_DIR) t.next _).trans ?_
    rw [hlen, length_dirent]
  obtain ⟨s', hdots, hrep, hfb⟩ := iappend_spec hrep₂ hnext (Nat.lt_succ_self _)
    ((setSize_size_self _ _ _).trans hlen₂.symm) (p := dirent up [46, 46])
    (by rw [hlen₂, length_dirent]; omega)
    (by rw [hlen₂, length_dirent, h16, h32]; omega)
  rw [hlen₂, length_dirent, append_setSize] at hrep
  rw [hlen₂, length_dirent, h16, h32] at hfb
  refine ⟨s₁, s₂, s', halloc, hdot, hdots, ?_, ?_⟩
  · rw [← create_files (m := 32) hfree rfl]
    · have hbytes' : (Node.dir up [] false).bytes t.next =
          dirent t.next [46] ++ dirent up [46, 46] := List.append_nil _
      rw [hbytes']
      exact hrep
    · exact length_dir_bytes t.next up [] false
  · show s'.freeblock = s.freeblock + 1
    omega

theorem close_spec (h : Rep s t.files) (hcur : cur < t.next) (hnext : t.next ≤ 200)
    (hnode : t.node cur = .dir up links false) (hlinks : links.length ≤ 200) :
    ∃ s', fixSize s cur = some s' ∧ Rep s' (t.close cur).files ∧ s'.freeblock = s.freeblock := by
  have hlen := length_dir_bytes cur up links false
  have hsize : t.files.size cur = ((Node.dir up links false).bytes cur).length :=
    congrArg (Node.size cur) hnode
  obtain ⟨s', hfix, hrep, hfb⟩ := fixSize_spec h (by omega) hcur (by rw [hsize, hlen]; omega)
  refine ⟨s', hfix, ?_, hfb⟩
  rw [close_eq hnode, ← append_files (p := []) (m := (t.files.size cur / 512 + 1) * 512)]
  · rw [append_nil]
    exact hrep
  · rw [hnode]
    rfl
  · rw [hnode, List.append_nil]
    rfl
  · rw [hsize]
    rfl

/-! ## What adding entries does to the tree -/

/-- The inodes made between `t` and `t'`. -/
def newNodes (t t' : Tree) : List ℕ := List.range' t.next (t'.next - t.next)

theorem mem_newNodes {d : ℕ} (hle : t.next ≤ t'.next) :
    d ∈ newNodes t t' ↔ t.next ≤ d ∧ d < t'.next := by
  rw [newNodes, List.mem_range'_1]
  omega

/-- `t'` is `t` with links `added` in directory `cur` and a tree below each of them; `widths` are
the numbers of links of the new directories. -/
structure Grown (t : Tree) (cur : ℕ) (t' : Tree) (added : List Link) (widths : List ℕ) : Prop where
  le : t.next ≤ t'.next
  old : ∀ d < t.next, d ≠ cur → t'.node d = t.node d
  grew : ∀ up links closed, t.node cur = .dir up links closed →
    t'.node cur = .dir up (links ++ added) closed
  done : ∀ d ∈ newNodes t t', (t'.node d).Done
  once : (added.map Prod.fst ++ (newNodes t t').flatMap fun d => (t'.node d).targets).Perm
    (newNodes t t')
  parent : ∀ d ∈ newNodes t t', ∀ up links closed, t'.node d = .dir up links closed →
    up = cur ∧ d ∈ added.map Prod.fst ∨ up ∈ newNodes t t' ∧ d ∈ (t'.node up).targets
  widths : (newNodes t t').filterMap (fun d => (t'.node d).width) = widths

theorem Grown.refl (t : Tree) (cur : ℕ) : Grown t cur t [] [] := by
  have hnone : newNodes t t = [] := by
    rw [newNodes, Nat.sub_self]
    rfl
  refine ⟨Nat.le_refl _, fun _ _ _ => rfl, ?_, ?_, ?_, ?_, by rw [hnone]; rfl⟩
  · intro up links closed h
    rw [h, List.append_nil]
  · intro d hd
    rw [hnone] at hd
    exact absurd hd List.not_mem_nil
  · rw [hnone]
    exact List.Perm.refl _
  · intro d hd
    rw [hnone] at hd
    exact absurd hd List.not_mem_nil

theorem newNodes_append {t'' : Tree} (h : t.next ≤ t'.next) (h' : t'.next ≤ t''.next) :
    newNodes t t'' = newNodes t t' ++ newNodes t' t'' := by
  have happ := List.range'_append_1 (s := t.next) (m := t'.next - t.next) (n := t''.next - t'.next)
  rw [show t.next + (t'.next - t.next) = t'.next by omega,
    show t'.next - t.next + (t''.next - t'.next) = t''.next - t.next by omega] at happ
  exact happ.symm

theorem Grown.trans {t'' : Tree} {added added' : List Link} {ws ws' : List ℕ}
    (hcur : cur < t.next) (h : Grown t cur t' added ws) (h' : Grown t' cur t'' added' ws') :
    Grown t cur t'' (added ++ added') (ws ++ ws') := by
  have hle := h.le
  have hle' := h'.le
  have hnew := newNodes_append hle hle'
  have hkept : ∀ d ∈ newNodes t t', t''.node d = t'.node d := by
    intro d hd
    obtain ⟨h1, h2⟩ := (mem_newNodes hle).mp hd
    exact h'.old d h2 (by omega)
  refine ⟨Nat.le_trans hle hle', ?_, ?_, ?_, ?_, ?_, ?_⟩
  · intro d hd hne
    rw [h'.old d (by omega) hne, h.old d hd hne]
  · intro up links closed hnode
    rw [h'.grew up _ closed (h.grew up links closed hnode), List.append_assoc]
  · intro d hd
    rw [hnew] at hd
    rcases List.mem_append.mp hd with hd | hd
    · rw [hkept d hd]
      exact h.done d hd
    · exact h'.done d hd
  · have hsame : ((newNodes t t').flatMap fun d => (t''.node d).targets) =
        (newNodes t t').flatMap fun d => (t'.node d).targets :=
      List.flatMap_congr fun d hd => by rw [hkept d hd]
    rw [hnew, List.flatMap_append, hsame, List.map_append]
    refine List.Perm.trans ?_ (h.once.append h'.once)
    rw [List.append_assoc, List.append_assoc]
    refine List.Perm.append_left _ ?_
    rw [← List.append_assoc, ← List.append_assoc]
    exact List.Perm.append_right _ List.perm_append_comm
  · intro d hd up links closed hnode
    rw [hnew] at hd ⊢
    rw [List.map_append, List.mem_append, List.mem_append]
    rcases List.mem_append.mp hd with hd | hd
    · rw [hkept d hd] at hnode
      rcases h.parent d hd up links closed hnode with ⟨hup, hin⟩ | ⟨hup, hin⟩
      · exact .inl ⟨hup, .inl hin⟩
      · exact .inr ⟨.inl hup, by rwa [hkept up hup]⟩
    · rcases h'.parent d hd up links closed hnode with ⟨hup, hin⟩ | ⟨hup, hin⟩
      · exact .inl ⟨hup, .inr hin⟩
      · exact .inr ⟨.inr hup, hin⟩
  · rw [hnew, List.filterMap_append, h'.widths, ← h.widths]
    congr 1
    exact List.filterMap_congr fun d hd => by rw [hkept d hd]

/-- A file with the link to it. -/
theorem grown_file (hcur : cur < t.next) (hnode : t.node cur = .dir up links false)
    (content : List Byte) (name : Name) :
    Grown t cur ((t.born (.file content)).link cur (t.next, name)) [(t.next, name)]
      [] := by
  have hnode' : (t.born (.file content)).node cur = .dir up links false :=
    (born_node_of_lt hcur).trans hnode
  rw [link_eq hnode']
  have hnew : newNodes t ((t.born (.file content)).put cur (.dir up (links ++ [(t.next, name)])
      false)) = [t.next] := by
    show List.range' t.next (t.next + 1 - t.next) = [t.next]
    rw [Nat.add_sub_cancel_left]
    rfl
  have hborn : ((t.born (.file content)).put cur (.dir up (links ++ [(t.next, name)])
      false)).node t.next = .file content := by
    rw [put_node_of_ne (Nat.ne_of_gt hcur)]
    exact born_node_self
  refine ⟨Nat.le_succ _, ?_, ?_, ?_, ?_, ?_, ?_⟩
  · intro d hd hne
    rw [put_node_of_ne hne]
    exact born_node_of_lt hd
  · intro up' links' closed h
    rw [hnode] at h
    cases h
    exact put_node_self
  · intro d hd
    rw [hnew, List.mem_singleton] at hd
    rw [hd, hborn]
    exact trivial
  · rw [hnew, List.flatMap_singleton, hborn]
    exact List.Perm.refl _
  · intro d hd up' links' closed h
    rw [hnew, List.mem_singleton] at hd
    rw [hd, hborn] at h
    cases h
  · rw [hnew, List.filterMap_cons, hborn]
    rfl

/-- A directory that has got its entries, closed, with the link to it. -/
theorem grown_dir {added : List Link} {ws : List ℕ} (hcur : cur < t.next)
    (hnode : t.node cur = .dir up links false) (name : Name)
    (h : Grown (t.born (.dir cur [] false)) t.next t' added ws) :
    Grown t cur ((t'.close t.next).link cur (t.next, name)) [(t.next, name)]
      (added.length :: ws) := by
  obtain ⟨c, hc⟩ : ∃ c, c = t.next := ⟨_, rfl⟩
  have hle : t.next + 1 ≤ t'.next := h.le
  have hself : (t.born (.dir cur [] false)).node c = .dir cur [] false := hc ▸ put_node_self
  have hchild : t'.node c = .dir cur added false := hc ▸ h.grew cur [] false (hc ▸ hself)
  have hkept : ∀ d < t.next, t'.node d = t.node d := by
    intro d hd
    rw [h.old d (Nat.lt_succ_of_lt hd) (Nat.ne_of_lt hd)]
    exact born_node_of_lt hd
  have hnode' : (t'.close c).node cur = .dir up links false := by
    rw [close_eq hchild, put_node_of_ne (by omega), hkept cur hcur, hnode]
  rw [← hc, link_eq hnode']
  generalize hfin : (t'.close c).put cur (.dir up (links ++ [(c, name)]) false) = t₂
  have hcur₂ : t₂.node cur = .dir up (links ++ [(c, name)]) false := hfin ▸ put_node_self
  have hchild₂ : t₂.node c = .dir cur added true := by
    rw [← hfin, put_node_of_ne (by omega), close_eq hchild, put_node_self]
  have hrest : ∀ d, d ≠ cur → d ≠ c → t₂.node d = t'.node d := by
    intro d h1 h2
    rw [← hfin, put_node_of_ne h1, close_eq hchild, put_node_of_ne h2]
  have hnext₂ : t₂.next = t'.next := by
    rw [← hfin, close_eq hchild]
    rfl
  have hnew : newNodes t t₂ = c :: newNodes (t.born (.dir cur [] false)) t' := by
    show List.range' t.next (t₂.next - t.next) =
      c :: List.range' (t.next + 1) (t'.next - (t.next + 1))
    rw [hc, hnext₂, show t'.next - t.next = t'.next - (t.next + 1) + 1 by omega]
    rfl
  have hold : ∀ d ∈ newNodes (t.born (.dir cur [] false)) t', t₂.node d = t'.node d := by
    intro d hd
    have hd : t.next + 1 ≤ d ∧ d < t'.next := (mem_newNodes h.le).mp hd
    exact hrest d (by omega) (by omega)
  refine ⟨by omega, ?_, ?_, ?_, ?_, ?_, ?_⟩
  · intro d hd hne
    rw [hrest d hne (by omega), hkept d hd]
  · intro up' links' closed hn
    rw [hnode] at hn
    cases hn
    exact hcur₂
  · intro d hd
    rw [hnew] at hd
    rcases List.mem_cons.mp hd with rfl | hd
    · rw [hchild₂]
      exact rfl
    · rw [hold d hd]
      exact h.done d hd
  · have hsame : ((newNodes (t.born (.dir cur [] false)) t').flatMap fun d => (t₂.node d).targets) =
        (newNodes (t.born (.dir cur [] false)) t').flatMap fun d => (t'.node d).targets :=
      List.flatMap_congr fun d hd => by rw [hold d hd]
    rw [hnew, List.flatMap_cons, hsame, hchild₂]
    exact List.Perm.cons c h.once
  · intro d hd up' links' closed hn
    rw [hnew] at hd ⊢
    rcases List.mem_cons.mp hd with rfl | hd
    · rw [hchild₂] at hn
      cases hn
      exact .inl ⟨rfl, List.mem_singleton.mpr rfl⟩
    · rw [hold d hd] at hn
      rcases h.parent d hd up' links' closed hn with ⟨rfl, hin⟩ | ⟨hup, hin⟩
      · refine .inr ⟨hc ▸ List.mem_cons_self, ?_⟩
        rw [← hc, hchild₂]
        exact hin
      · exact .inr ⟨List.mem_cons_of_mem c hup, by rwa [hold up' hup]⟩
  · have hsame : ((newNodes (t.born (.dir cur [] false)) t').filterMap fun d => (t₂.node d).width) =
        (newNodes (t.born (.dir cur [] false)) t').filterMap fun d => (t'.node d).width :=
      List.filterMap_congr fun d hd => by rw [hold d hd]
    rw [hnew, List.filterMap_cons, hchild₂, hsame, h.widths]
    rfl

theorem add_grown (l : Listing) (hcur : cur < t.next) (hnode : t.node cur = .dir up links false) :
    ∃ added, Grown t cur (t.add cur l) added l.subdirs ∧ added.length = l.entries ∧
      (t.add cur l).next = t.next + l.nodes := by
  induction l generalizing t cur up links with
  | nil => exact ⟨[], Grown.refl t cur, rfl, rfl⟩
  | dots parent rest ih => exact ih hcur hnode
  | file name content rest ih =>
      have hone := grown_file hcur hnode content name
      have hnode' := hone.grew up links false hnode
      obtain ⟨added, hgrown, hlen, hadd⟩ := ih (by rw [link_next]; exact Nat.lt_succ_of_lt hcur) hnode'
      refine ⟨[(t.next, name)] ++ added, hone.trans hcur hgrown, ?_, ?_⟩
      · rw [List.length_append, hlen, Listing.entries, Nat.add_comm]
        rfl
      · rw [Tree.add, hadd, link_next, born_next, Listing.nodes, Nat.add_assoc]
  | dir name sub rest ihsub ihrest =>
      obtain ⟨below, hsub, hbelow, hnext⟩ := ihsub (t := t.born (.dir cur [] false)) (Nat.lt_succ_self _)
        born_node_self
      rw [born_next] at hnext
      have hone := grown_dir hcur hnode name hsub
      rw [hbelow] at hone
      have hnode' := hone.grew up links false hnode
      obtain ⟨added, hgrown, hlen, hadd⟩ := ihrest (by rw [link_next, close_next]; omega) hnode'
      refine ⟨[(t.next, name)] ++ added, hone.trans hcur hgrown, ?_, ?_⟩
      · rw [List.length_append, hlen, Listing.entries, Nat.add_comm]
        rfl
      · rw [Tree.add, hadd, link_next, close_next, hnext, Listing.nodes]
        omega

/-! ## The disk that the entries of a directory leave -/

theorem blocksFor_dirs {a b : ℕ} (h : a ≤ b) : dirBlocks a ≤ dirBlocks b :=
  blocksFor_mono (by omega)

/-- `addEntries` succeeds where the blocks suffice, and the disk holds the tree with the entries. -/
theorem addEntries_spec (l : Listing) (h : Rep s t.files) (hcur : cur < t.next)
    (hnode : t.node cur = .dir up links false) (hnext : t.next + l.nodes ≤ 200)
    (hlinks : links.length + l.nodes ≤ 200) (hfit : l.FilesFit)
    (hroom : s.freeblock + l.blocks + dirBlocks (links.length + l.entries) ≤
      1024 + dirBlocks links.length) :
    ∃ s', addEntries s cur l = some s' ∧ Rep s' (t.add cur l).files ∧
      s'.freeblock + dirBlocks links.length =
        s.freeblock + l.blocks + dirBlocks (links.length + l.entries) := by
  induction l generalizing s t cur up links with
  | nil => exact ⟨s, rfl, h, rfl⟩
  | dots parent rest ih => exact ih h hcur hnode hnext hlinks hfit hroom
  | file name content rest ih =>
      rw [Listing.nodes] at hnext hlinks
      have hroom : s.freeblock + (blocksFor content.length + rest.blocks) +
        dirBlocks (links.length + rest.entries + 1) ≤ 1024 + dirBlocks links.length := hroom
      have hmono := blocksFor_dirs (show links.length + 1 ≤ links.length + rest.entries + 1 by omega)
      have hmono' := blocksFor_dirs (show links.length ≤ links.length + 1 by omega)
      have hnode₁ : (t.born (.file content)).node cur = .dir up links false :=
        (born_node_of_lt hcur).trans hnode
      obtain ⟨s₁, s₂, halloc, hcopy, hrep₂, hfb₂⟩ := newFile_spec h (by omega) hfit.1 (by omega)
      obtain ⟨s₃, happ, hrep₃, hfb₃⟩ := link_spec (l := (t.next, name)) hrep₂
        (Nat.lt_succ_of_lt hcur) (show t.next + 1 ≤ 200 by omega) hnode₁ (by omega) (by omega)
      have hnode₃ : ((t.born (.file content)).link cur (t.next, name)).node cur =
          .dir up (links ++ [(t.next, name)]) false := by
        rw [link_eq hnode₁]
        exact put_node_self
      have hlen : (links ++ [(t.next, name)]).length = links.length + 1 :=
        List.length_append
      have hsum : links.length + 1 + rest.entries = links.length + rest.entries + 1 := by omega
      obtain ⟨s', hrest, hrep', hfb'⟩ := ih hrep₃
        (by rw [link_next, born_next]; omega) hnode₃ (by rw [link_next, born_next]; omega)
        (by omega) hfit.2 (by rw [hlen, hsum]; omega)
      rw [hlen, hsum] at hfb'
      refine ⟨s', ?_, hrep', ?_⟩
      · simp only [addEntries, halloc, hcopy, happ, Option.bind_eq_bind, Option.bind_some]
        exact hrest
      · show _ = s.freeblock + (blocksFor content.length + rest.blocks) +
          dirBlocks (links.length + rest.entries + 1)
        omega
  | dir name sub rest ihsub ihrest =>
      rw [Listing.nodes] at hnext hlinks
      have hroom : s.freeblock + (dirBlocks sub.entries + sub.blocks + rest.blocks) +
        dirBlocks (links.length + rest.entries + 1) ≤ 1024 + dirBlocks links.length := hroom
      have hmono := blocksFor_dirs (show links.length + 1 ≤ links.length + rest.entries + 1 by omega)
      have hmono' := blocksFor_dirs (show links.length ≤ links.length + 1 by omega)
      have hmono₀ := blocksFor_dirs (Nat.zero_le sub.entries)
      have hsum₀ : ([] : List Link).length + sub.entries = sub.entries := Nat.zero_add _
      obtain ⟨s₁, s₂, s₃, halloc, hdot, hdots, hrep₃, hfb₃⟩ := newDir_spec cur h (by omega)
        (by omega)
      obtain ⟨s₄, hsub, hrep₄, hfb₄⟩ := ihsub hrep₃ (Nat.lt_succ_self _) born_node_self
        (by rw [born_next]; omega) (by rw [List.length_nil]; omega) hfit.1
        (by rw [hsum₀, List.length_nil]; omega)
      rw [hsum₀, List.length_nil] at hfb₄
      obtain ⟨below, hgrown, hbelow, hnext₄⟩ := add_grown sub (t := t.born (.dir cur [] false))
        (Nat.lt_succ_self _) born_node_self
      rw [born_next] at hnext₄
      have hchild := hgrown.grew cur [] false born_node_self
      have hentries := sub.entries_le_nodes
      have hlen₄ : ([] ++ below).length = sub.entries := hbelow
      obtain ⟨s₅, hfix, hrep₅, hfb₅⟩ := close_spec hrep₄ (by omega) (by omega) hchild (by omega)
      have hnode₅ : (((t.born (.dir cur [] false)).add t.next sub).close t.next).node cur =
          .dir up links false := by
        rw [close_eq hchild, put_node_of_ne (Nat.ne_of_lt hcur),
          hgrown.old cur (Nat.lt_succ_of_lt hcur) (Nat.ne_of_lt hcur), born_node_of_lt hcur, hnode]
      obtain ⟨s₆, happ, hrep₆, hfb₆⟩ := link_spec (l := (t.next, name)) hrep₅
        (by rw [close_next]; omega) (by rw [close_next]; omega) hnode₅ (by omega) (by omega)
      have hnode₆ := (grown_dir hcur hnode name hgrown).grew up links false hnode
      have hlen : (links ++ [(t.next, name)]).length = links.length + 1 := List.length_append
      have hsum : links.length + 1 + rest.entries = links.length + rest.entries + 1 := by omega
      obtain ⟨s', hrest, hrep', hfb'⟩ := ihrest hrep₆
        (by rw [link_next, close_next]; omega) hnode₆ (by rw [link_next, close_next]; omega)
        (by omega) hfit.2 (by rw [hlen, hsum]; omega)
      rw [hlen, hsum] at hfb'
      refine ⟨s', ?_, hrep', ?_⟩
      · simp only [addEntries, halloc, hdot, hdots, hsub, hfix, happ, Option.bind_eq_bind,
          Option.bind_some]
        exact hrest
      · show _ = s.freeblock + (dirBlocks sub.entries + sub.blocks + rest.blocks) +
          dirBlocks (links.length + rest.entries + 1)
        omega

end

end IntroToOS.Mkfs

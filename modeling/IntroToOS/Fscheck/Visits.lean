import IntroToOS.Fscheck.Scans

/-! # The second pass as one loop

What `check_inode` does for an inode is a sequence of visits: an address of the inode is read and
checked, a block of a directory is read, an entry is checked, the end of a directory is reached.
Which visits there are depends on the image only (`inodeVisits`), and the pass is the loop that
makes them (`check_inode_eq`).
-/

namespace IntroToOS.Fscheck
open Lib
set_option autoImplicit false

inductive Visit
  /-- The address at a position of an inode. -/
  | addr (i : ℕ) (p : Position)
  /-- Block `k` of directory `d`. -/
  | block (d k : ℕ)
  | entry (v : Event)
  /-- The end of directory `d`. -/
  | dots (d : ℕ)
  /-- An inode whose type is none of the four. -/
  | badType (i : ℕ)

def addrAt (img : Image) (i : ℕ) : Position → Check ℕ
  | .indirect => readU32 img (dinode i + 12 + 4 * NDIRECT)
  | .data k =>
    blockAddr img (dinode i) (if NDIRECT < numBlocks img i then indirectBlock img i else 0) k

instance (img : Image) (i : ℕ) : Decidable (Dotted img i) := inferInstanceAs (Decidable (_ → _))

def visit (img : Image) (s : Globals) : Visit → Check Globals
  | .addr i p => do
    let a ← addrAt img i p
    check_addr img s a
  | .block d k => do
    let a ← addrAt img d (.data k)
    let _ ← readDirent img (rsect a)
    pure s
  | .entry v => check_event img s v
  | .dots d => if Dotted img d then pure s else fail "ERROR: directory not properly formatted.\n"
  | .badType _ => fail "ERROR: bad inode.\n"

def addrVisits (img : Image) (i : ℕ) : List Visit :=
  (positions (numBlocks img i)).map fun p => .addr i p

/-- The visits of a scan of the blocks `ks` of `d`, given which of the first two roles are taken. -/
def blockVisits (img : Image) (d : ℕ) : Bool → Bool → List ℕ → List Visit
  | _, _, [] => []
  | self, parent, k :: ks =>
    let es := visible img (blockOf img d (.data k))
    .block d k :: ((events d self parent es).map .entry ++
      blockVisits img d (self || es.any Dirent.isDot) (parent || es.any Dirent.isDotDot) ks)

def dirVisits (img : Image) (d : ℕ) : List Visit :=
  blockVisits img d false false (List.range (numBlocks img d)) ++ [.dots d]

def inodeVisits (img : Image) (i : ℕ) : List Visit :=
  if inodeType img i = 0 then []
  else if inodeType img i = T_DEV ∨ inodeType img i = T_FILE then addrVisits img i
  else if inodeType img i = T_DIR then addrVisits img i ++ dirVisits img i
  else [.badType i]

section
variable {img : Image}

theorem check_inode_addrs_eq {i : ℕ} (hi : i < NINODES) (s : Globals) :
    check_inode_addrs img s i = (addrVisits img i).foldlM (visit img) s := by
  have hn : n_blocks (inodeSize img i) = numBlocks img i := rfl
  have hind : readU32 img (dinode i + 12 + 4 * NDIRECT) = .ok (indirectBlock img i) := by
    have hle := dinode_le hi
    exact readU32_eq_ok.mpr ⟨by omega, rfl⟩
  rw [addrVisits, List.foldlM_map, positions]
  simp only [check_inode_addrs, readSize hi, indirectAddr_eq hi, ok_bind, hn]
  by_cases hlt : NDIRECT < numBlocks img i
  · simp only [hlt, if_true, List.singleton_append, List.foldlM_cons, List.foldlM_map, visit,
      addrAt, hind, ok_bind]
  · simp only [hlt, if_false, List.nil_append, List.foldlM_map, visit, addrAt, pure_bind]

/-- The word that holds the address at a position is inside the image. -/
def WordInImage (img : Image) (i : ℕ) : Position → Prop
  | .indirect => True
  | .data k => NDIRECT ≤ k → rsect (indirectBlock img i) + 4 * (k - NDIRECT) + 4 ≤ IMAGE_SIZE

theorem addrAt_eq_ok {i : ℕ} (hi : i < NINODES) {p : Position}
    (hp : p ∈ positions (numBlocks img i)) {a : ℕ} :
    addrAt img i p = .ok a ↔ WordInImage img i p ∧ a = blockOf img i p := by
  cases p with
  | indirect =>
      have hle := dinode_le hi
      rw [addrAt, readU32_eq_ok, WordInImage, true_and]
      exact and_iff_right (by omega)
  | data k =>
      have hk : k < numBlocks img i := mem_positions.mp hp
      exact blockAddr_eq_ok hi fun hle => if_pos (Nat.lt_of_le_of_lt hle hk)

/-- A scan of a block reads its first entry or goes on to the visible ones. -/
theorem check_dir_block_visit {d : ℕ} (b : ℕ) (t : DirScan) :
    check_dir_block img d 32 (rsect b) t = (do
      let _ ← readDirent img (rsect b)
      (visible img b).foldlM (check_dir_entry img d) t) := by
  by_cases h : rsect b + 16 ≤ IMAGE_SIZE
  · rw [readDirent_eq img h, check_dir_block_eq img d 32 _ t (block_of_first h)]
    rfl
  · have hread : readDirent img (rsect b) = .error .outOfBounds := if_neg h
    rw [hread, check_dir_block, hread]
    rfl

theorem foldlM_check_dir_block_eq {d : ℕ} (hd : d < NINODES) {ks : List ℕ}
    (hks : ∀ k ∈ ks, k < numBlocks img d) (t : DirScan) :
    ks.foldlM (fun t k => do
      let buf ← addrAt img d (.data k)
      check_dir_block img d 32 (rsect buf) t) t = (do
      let s ← (blockVisits img d t.seen_self_dir t.seen_parent_dir ks).foldlM (visit img) t.globals
      let es := ks.flatMap fun k => visible img (blockOf img d (.data k))
      pure ⟨s, t.seen_self_dir || es.any Dirent.isDot,
        t.seen_parent_dir || es.any Dirent.isDotDot⟩) := by
  induction ks generalizing t with
  | nil => simp [blockVisits, pure, Except.pure, ok_bind]
  | cons k ks ih =>
      have ih := ih fun j hj => hks j (List.mem_cons_of_mem k hj)
      have hk : Position.data k ∈ positions (numBlocks img d) :=
        mem_positions.mpr (hks k List.mem_cons_self)
      rw [List.foldlM_cons, blockVisits, List.foldlM_cons, visit]
      cases haddr : addrAt img d (.data k) with
      | error e => rfl
      | ok a =>
          obtain ⟨-, rfl⟩ := (addrAt_eq_ok hd hk).mp haddr
          rw [ok_bind, ok_bind, check_dir_block_visit]
          cases readDirent img (rsect (blockOf img d (.data k))) with
          | error e => rfl
          | ok e =>
              rw [ok_bind, ok_bind, foldlM_check_dir_entry_eq]
              simp only [pure_bind, bind_assoc, ih, List.foldlM_append, List.foldlM_map, visit,
                List.flatMap_cons, List.any_append, Bool.or_assoc]

theorem check_dir_inode_eq_visits {d : ℕ} (hd : d < NINODES) (hdir : inodeType img d = T_DIR)
    (s : Globals) : check_dir_inode img s d = (dirVisits img d).foldlM (visit img) s := by
  have hn : n_blocks (inodeSize img d) = numBlocks img d := rfl
  have hks : ∀ k ∈ List.range (numBlocks img d), k < numBlocks img d :=
    fun k hk => List.mem_range.mp hk
  have hloop := foldlM_check_dir_block_eq hd hks { globals := s }
  simp only [addrAt, Bool.false_or] at hloop
  simp only [check_dir_inode, readSize hd, indirectAddr_eq hd, ok_bind, hn, hloop, dirVisits,
    List.foldlM_append, bind_assoc, pure_bind]
  congr 1
  funext u
  have hes : (List.range (numBlocks img d)).flatMap
      (fun k => visible img (blockOf img d (.data k))) = scanned img d := by
    rw [scanned, dirBlocks, List.flatMap_map]
  simp only [hes, List.foldlM_cons, List.foldlM_nil, visit, Dotted, hdir, forall_const,
    bind_pure]
  cases (scanned img d).any Dirent.isDot <;> cases (scanned img d).any Dirent.isDotDot <;> rfl

theorem check_inode_eq {i : ℕ} (hin : dinode i + 64 ≤ IMAGE_SIZE)
    (hi : inodeType img i ≠ 0 → i < NINODES) (s : Globals) :
    check_inode img s i = (inodeVisits img i).foldlM (visit img) s := by
  have htype : readU16 img (dinode i) = .ok (inodeType img i) := readU16_eq_ok.mpr ⟨by omega, rfl⟩
  rw [check_inode, htype, ok_bind, inodeVisits]
  split
  · rfl
  · next h0 =>
    have hlt := hi h0
    split
    · exact check_inode_addrs_eq hlt s
    · split
      · next hdir =>
        rw [List.foldlM_append, check_inode_addrs_eq hlt]
        congr 1
        funext u
        exact check_dir_inode_eq_visits hlt hdir u
      · exact (bind_pure _).symm

end

end IntroToOS.Fscheck

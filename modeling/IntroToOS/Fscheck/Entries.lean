import IntroToOS.Fscheck.Blocks

/-! # What the directory scans see

A scan of a directory reads all 32 slots of every block of its size and leaves a block at its
first free slot: it sees `scanned img d`. One pass over these entries is a loop over events, each
an entry with the role the scan gives it (`self` for the first `.`, `parent` for the first `..`,
`child` for any other). `After` says what a list of events does to the globals.
-/

namespace IntroToOS.Fscheck
open Lib
set_option autoImplicit false

/-! ## Entries -/

/-- `j` entries from offset `off` on. -/
def slots (img : Image) : ℕ → ℕ → List Dirent
  | 0, _ => []
  | j + 1, off => direntAt img off :: slots img j (off + 16)

/-- The entries of block `b` before its first free slot. -/
def visible (img : Image) (b : ℕ) : List Dirent :=
  (slots img 32 (rsect b)).takeWhile fun e => e.inum ≠ 0

def dirBlocks (img : Image) (d : ℕ) : List ℕ :=
  (List.range (numBlocks img d)).map fun k => blockOf img d (.data k)

/-- The entries a scan of directory `d` sees. -/
def scanned (img : Image) (d : ℕ) : List Dirent := (dirBlocks img d).flatMap (visible img)

/-- An entry that `check_parent_dir` takes into account. -/
def Dirent.isPlain (e : Dirent) : Bool := !e.isDotDot && !e.isDot

/-- A scan of `p` finds the child `c`. -/
def names (img : Image) (p c : ℕ) : Bool :=
  inodeType img p = T_DIR && (scanned img p).any fun e => e.isPlain && e.inum = c

/-- The blocks of directory `d` can be read. -/
structure DirReadable (img : Image) (d : ℕ) : Prop where
  blocks : ∀ b ∈ dirBlocks img d, b ≤ 1023
  indirect : IndirectReadable img d

/-- The reads of a scan of directory `d` stay inside the image. -/
structure ScanReadable (img : Image) (d : ℕ) : Prop where
  blocks : ∀ b ∈ dirBlocks img d, rsect b + 16 * 32 ≤ IMAGE_SIZE
  indirect : IndirectReadable img d

theorem readDirent_eq (img : Image) {off : ℕ} (h : off + 16 ≤ IMAGE_SIZE) :
    readDirent img off = .ok (direntAt img off) := if_pos h

theorem check_dir_block_eq (img : Image) (d j off : ℕ) (t : DirScan)
    (h : off + 16 * j ≤ IMAGE_SIZE) :
    check_dir_block img d j off t =
      ((slots img j off).takeWhile fun e => e.inum ≠ 0).foldlM (check_dir_entry img d) t := by
  induction j generalizing off t with
  | zero => rfl
  | succ j ih =>
      have hread := readDirent_eq img (show off + 16 ≤ IMAGE_SIZE by omega)
      unfold check_dir_block slots
      rw [hread]
      by_cases h0 : (direntAt img off).inum = 0
      · simp [h0, bind, Except.bind]
      · rw [List.takeWhile_cons_of_pos (by simpa using h0), List.foldlM_cons]
        simp only [bind, Except.bind, h0, if_false]
        cases check_dir_entry img d t (direntAt img off) with
        | error e => rfl
        | ok u => exact ih (off + 16) u (by omega)

theorem seen_child_eq (img : Image) (c j off : ℕ) (h : off + 16 * j ≤ IMAGE_SIZE) :
    seen_child img c j off =
      .ok (((slots img j off).takeWhile fun e => e.inum ≠ 0).any fun e => e.isPlain && e.inum = c) := by
  induction j generalizing off with
  | zero => rfl
  | succ j ih =>
      have hread := readDirent_eq img (show off + 16 ≤ IMAGE_SIZE by omega)
      have hrest := ih (off + 16) (by omega)
      unfold seen_child slots
      rw [hread]
      by_cases h0 : (direntAt img off).inum = 0
      · simp [h0, bind, Except.bind, pure, Except.pure]
      · rw [List.takeWhile_cons_of_pos (by simpa using h0), List.any_cons, hrest]
        simp only [bind, Except.bind, h0, if_false, Dirent.isPlain]
        cases (direntAt img off).isDotDot with
        | true => simp
        | false =>
            cases (direntAt img off).isDot with
            | true => simp
            | false =>
                by_cases hc : (direntAt img off).inum = c <;> simp [hc, pure, Except.pure]

theorem block_in_image {b : ℕ} (h : b ≤ 1023) : rsect b + 16 * 32 ≤ IMAGE_SIZE := by
  show b * 512 % 2 ^ 32 + 512 ≤ 524288
  omega

theorem DirReadable.scanReadable {img : Image} {d : ℕ} (h : DirReadable img d) :
    ScanReadable img d :=
  ⟨fun b hb => block_in_image (h.blocks b hb), h.indirect⟩

theorem blockAddr_dir {img : Image} {d k : ℕ} (hd : d < NINODES) (hr : ScanReadable img d)
    (hk : k ∈ List.range (numBlocks img d)) :
    blockAddr img (dinode d) (if NDIRECT < numBlocks img d then indirectBlock img d else 0) k
      = .ok (blockOf img d (.data k)) := by
  have hlt := List.mem_range.mp hk
  exact (blockAddr_eq_ok hd fun hle => if_pos (Nat.lt_of_le_of_lt hle hlt)).mpr
    ⟨fun hle => hr.indirect k hlt hle, rfl⟩

theorem readSize {img : Image} {i : ℕ} (hi : i < NINODES) :
    readU32 img (dinode i + 8) = .ok (inodeSize img i) :=
  readU32_eq_ok.mpr ⟨by have := dinode_le hi; omega, rfl⟩

theorem check_dir_inode_eq {img : Image} {d : ℕ} (hd : d < NINODES) (hr : ScanReadable img d)
    (s : Globals) :
    check_dir_inode img s d = (do
      let t ← (scanned img d).foldlM (check_dir_entry img d) { globals := s }
      if (t.seen_self_dir && t.seen_parent_dir) = false then
        fail "ERROR: directory not properly formatted.\n"
      else pure t.globals) := by
  have hn : n_blocks (inodeSize img d) = numBlocks img d := rfl
  have hloop : ∀ t, (List.range (numBlocks img d)).foldlM (fun t k => do
      let buf ← blockAddr img (dinode d)
        (if NDIRECT < numBlocks img d then indirectBlock img d else 0) k
      check_dir_block img d 32 (rsect buf) t) t =
        (scanned img d).foldlM (check_dir_entry img d) t := by
    intro t
    rw [scanned, foldlM_flatMap, dirBlocks, List.foldlM_map]
    refine foldlM_congr (fun k hk u => ?_) t
    rw [blockAddr_dir hd hr hk]
    exact check_dir_block_eq img d 32 _ u (hr.blocks _ (List.mem_map.mpr ⟨k, hk, rfl⟩))
  simp only [check_dir_inode, readSize hd, indirectAddr_eq hd, ok_bind, hn, hloop]

theorem check_parent_dir_eq {img : Image} {p : ℕ} (hp : p < NINODES)
    (hr : inodeType img p = T_DIR → ScanReadable img p) (s : Globals) (c : ℕ) :
    check_parent_dir img s p c = .ok
      (if names img p c = false ∧ c ≠ 1 then { s with parent_mismatch_seen := true } else s) := by
  by_cases hd : inodeType img p = T_DIR
  · have hr := hr hd
    have hloop := foldlM_or (f := fun (seen : Bool) k => do
        let buf ← blockAddr img (dinode p)
          (if NDIRECT < numBlocks img p then indirectBlock img p else 0) k
        let b ← seen_child img c 32 (rsect buf)
        (pure (seen || b) : Check Bool))
      (p := fun k => (visible img (blockOf img p (.data k))).any fun e => e.isPlain && e.inum = c)
      (l := List.range (numBlocks img p)) (fun k hk b => by
        rw [blockAddr_dir hp hr hk]
        have hb := hr.blocks _ (List.mem_map.mpr ⟨k, hk, rfl⟩)
        simp only [ok_bind, seen_child_eq img c 32 _ hb]
        rfl) false
    have hn : n_blocks (inodeSize img p) = numBlocks img p := rfl
    have hany : ((List.range (numBlocks img p)).any fun k =>
        (visible img (blockOf img p (.data k))).any fun e => e.isPlain && e.inum = c) =
          names img p c := by
      simp [names, hd, scanned, dirBlocks, List.any_flatMap, List.any_map, Function.comp_def]
    rw [hany, Bool.false_or] at hloop
    simp only [check_parent_dir, readType hp, ok_bind, hd, if_true, readSize hp,
      indirectAddr_eq hp, hn, hloop]
    split <;> rfl
  · have hnames : names img p c = false := by simp [names, hd]
    simp only [check_parent_dir, readType hp, ok_bind, hd, if_false, pure, Except.pure, hnames]
    split <;> rfl

/-! ## Events -/

/-- What a scan takes an entry for. -/
inductive Role
  | self | parent | child
  deriving DecidableEq

structure Event where
  dir : ℕ
  entry : Dirent
  role : Role

/-- The events of the rest of a scan, given which of the first two roles are taken. -/
def events (d : ℕ) : Bool → Bool → List Dirent → List Event
  | _, _, [] => []
  | self, parent, e :: es =>
    if self = false ∧ e.isDot then ⟨d, e, .self⟩ :: events d true parent es
    else if parent = false ∧ e.isDotDot then ⟨d, e, .parent⟩ :: events d self true es
    else ⟨d, e, .child⟩ :: events d self parent es

/-- A `..` entry with which the root directory shows itself. -/
def Event.isRoot (v : Event) : Bool := v.role = .parent && v.entry.inum = v.dir && v.dir = 1

/-- A `..` entry whose directory does not name the child. -/
def Event.isMismatch (img : Image) (v : Event) : Bool :=
  v.role = .parent && !names img v.entry.inum v.dir && v.dir ≠ 1

/-- An event that sets the parent of a directory. -/
def Event.isChildDir (img : Image) (v : Event) : Bool :=
  v.role = .child && inodeType img v.entry.inum = T_DIR

def eventRole (img : Image) (s : Globals) (v : Event) : Check Globals :=
  match v.role with
  | .self => pure s
  | .parent =>
    let root := s.seen_root = false ∧ v.entry.inum = v.dir ∧ v.dir = 1
    check_parent_dir img (if root then { s with seen_root := true } else s) v.entry.inum v.dir
  | .child => check_child_dir img s v.dir v.entry.inum

def check_event (img : Image) (s : Globals) (v : Event) : Check Globals := do
  let s ← eventRole img s v
  let s ← check_inode_alloced img s v.entry.inum
  index v.entry.inum NINODES
  pure { s with my_inode_alloced := Function.update s.my_inode_alloced v.entry.inum false }

theorem isDotDot_of_isDot {e : Dirent} (h : e.isDot = true) : e.isDotDot = false := by
  simp only [Dirent.isDot, Dirent.isDotDot, strEq, Bool.and_eq_true, decide_eq_true_eq] at h ⊢
  simp [h.1, h.2]

theorem check_dir_entry_eq (img : Image) (d : ℕ) (t : DirScan) (e : Dirent) :
    check_dir_entry img d t e =
      (if t.seen_self_dir = false ∧ e.isDot then do
        let s ← check_event img t.globals ⟨d, e, .self⟩
        pure ⟨s, true, t.seen_parent_dir⟩
      else if t.seen_parent_dir = false ∧ e.isDotDot then do
        let s ← check_event img t.globals ⟨d, e, .parent⟩
        pure ⟨s, t.seen_self_dir, true⟩
      else do
        let s ← check_event img t.globals ⟨d, e, .child⟩
        pure ⟨s, t.seen_self_dir, t.seen_parent_dir⟩) := by
  unfold check_dir_entry check_entry_name check_event eventRole
  split
  · simp only [pure, Except.pure, ok_bind, bind_assoc]
  · split
    · simp only [pure, Except.pure, ok_bind, bind_assoc]
    · simp only [pure, Except.pure, ok_bind, bind_assoc]

/-- A loop over the entries of one directory is a loop over its events. -/
theorem foldlM_check_dir_entry_eq (img : Image) (d : ℕ) (es : List Dirent) (t : DirScan) :
    es.foldlM (check_dir_entry img d) t = (do
      let s ← (events d t.seen_self_dir t.seen_parent_dir es).foldlM (check_event img) t.globals
      pure ⟨s, t.seen_self_dir || es.any Dirent.isDot,
        t.seen_parent_dir || es.any Dirent.isDotDot⟩) := by
  induction es generalizing t with
  | nil => simp [events, pure, Except.pure, ok_bind]
  | cons e es ih =>
      rw [List.foldlM_cons, check_dir_entry_eq, events, List.any_cons, List.any_cons]
      split
      · next h =>
        simp only [List.foldlM_cons, bind_assoc, pure, Except.pure, ok_bind, ih, h.1, h.2,
          isDotDot_of_isDot h.2, Bool.false_or, Bool.true_or]
      · next h =>
        split
        · next h' =>
          have hdot : (t.seen_self_dir || (e.isDot || es.any Dirent.isDot)) =
              (t.seen_self_dir || es.any Dirent.isDot) := by
            cases hs : t.seen_self_dir <;> simp_all
          simp only [List.foldlM_cons, bind_assoc, pure, Except.pure, ok_bind, ih, h'.1, h'.2,
            Bool.false_or, Bool.true_or, hdot]
        · next h' =>
          have hdot : (t.seen_self_dir || (e.isDot || es.any Dirent.isDot)) =
              (t.seen_self_dir || es.any Dirent.isDot) := by
            cases hs : t.seen_self_dir <;> simp_all
          have hdotdot : (t.seen_parent_dir || (e.isDotDot || es.any Dirent.isDotDot)) =
              (t.seen_parent_dir || es.any Dirent.isDotDot) := by
            cases hs : t.seen_parent_dir <;> simp_all
          simp only [List.foldlM_cons, bind_assoc, pure, Except.pure, ok_bind, ih, hdot, hdotdot]

/-! ## What a list of events does -/

/-- All directories can be read. -/
def DirsReadable (img : Image) : Prop :=
  ∀ d, InUse img d → inodeType img d = T_DIR → DirReadable img d

def applyEvent (img : Image) (s : Globals) (v : Event) : Globals :=
  { s with
    my_inode := if inodeType img v.entry.inum = T_FILE then
        Function.update s.my_inode v.entry.inum (s.my_inode v.entry.inum - 1) else s.my_inode
    my_inode_alloced := Function.update s.my_inode_alloced v.entry.inum false
    my_dir_parent_inode := if v.isChildDir img then
        Function.update s.my_dir_parent_inode v.entry.inum (BitVec.ofNat 8 v.dir)
      else s.my_dir_parent_inode
    seen_root := s.seen_root || v.isRoot
    parent_mismatch_seen := s.parent_mismatch_seen || v.isMismatch img }

theorem check_inode_alloced_eq_ok {img : Image} {s t : Globals} {i : ℕ} :
    check_inode_alloced img s i = .ok t ∧ index i NINODES = .ok () ↔ InUse img i ∧
      t = { s with my_inode := if inodeType img i = T_FILE then
        Function.update s.my_inode i (s.my_inode i - 1) else s.my_inode } := by
  by_cases hi : i < NINODES
  · have hidx : index i NINODES = .ok () := if_pos hi
    simp only [check_inode_alloced, readType hi, ok_bind, hidx, and_true, InUse, hi, true_and,
      fail, throwIf_eq_ok]
    refine and_congr_right fun _ => ?_
    split
    · rw [pure_eq_ok]
    · rw [pure_eq_ok]
  · have hidx : index i NINODES ≠ .ok () := by simp [index, hi]
    simp [hidx, InUse, hi]

theorem check_child_dir_eq_ok {img : Image} {s t : Globals} {d c : ℕ} (hc : c < NINODES) :
    check_child_dir img s d c = .ok t ↔
      (inodeType img c = T_DIR → s.my_dir_parent_inode c = 0) ∧
      t = { s with my_dir_parent_inode := if inodeType img c = T_DIR then
        Function.update s.my_dir_parent_inode c (BitVec.ofNat 8 d) else s.my_dir_parent_inode } := by
  have hidx : index c NINODES = .ok () := if_pos hc
  simp only [check_child_dir, readType hc, ok_bind, hidx]
  by_cases hd : inodeType img c = T_DIR
  · simp only [hd, if_true, forall_const, fail, throwUnless_eq_ok, pure_eq_ok]
  · simp only [hd, if_false, false_imp_iff, true_and, pure_eq_ok]

/-- The globals after the first part of an event. -/
def applyRole (img : Image) (s : Globals) (v : Event) : Globals :=
  { s with
    my_dir_parent_inode := if v.isChildDir img then
        Function.update s.my_dir_parent_inode v.entry.inum (BitVec.ofNat 8 v.dir)
      else s.my_dir_parent_inode
    seen_root := s.seen_root || v.isRoot
    parent_mismatch_seen := s.parent_mismatch_seen || v.isMismatch img }

theorem eventRole_eq_ok {img : Image} {s t : Globals} {v : Event} (hin : InUse img v.entry.inum)
    (hr : v.role = .parent → inodeType img v.entry.inum = T_DIR →
      ScanReadable img v.entry.inum) :
    eventRole img s v = .ok t ↔
      (v.isChildDir img = true → s.my_dir_parent_inode v.entry.inum = 0) ∧
        t = applyRole img s v := by
  unfold eventRole applyRole Event.isChildDir Event.isRoot Event.isMismatch
  cases hrole : v.role with
  | self => simp [pure_eq_ok]
  | parent =>
      rw [check_parent_dir_eq hin.1 (hr hrole)]
      have heq : (if names img v.entry.inum v.dir = false ∧ v.dir ≠ 1 then
          { (if s.seen_root = false ∧ v.entry.inum = v.dir ∧ v.dir = 1 then
              { s with seen_root := true } else s) with parent_mismatch_seen := true }
          else (if s.seen_root = false ∧ v.entry.inum = v.dir ∧ v.dir = 1 then
              { s with seen_root := true } else s)) =
          { s with
            seen_root := s.seen_root || (v.entry.inum = v.dir && v.dir = 1)
            parent_mismatch_seen := s.parent_mismatch_seen ||
              (!names img v.entry.inum v.dir && v.dir ≠ 1) } := by
        obtain ⟨_, _, _, _, root, mismatch⟩ := s
        by_cases h1 : v.dir = 1
        · rw [h1]
          by_cases h2 : v.entry.inum = 1 <;> cases root <;> simp [h2]
        · cases names img v.entry.inum v.dir <;> simp [h1]
      simp only [heq, Except.ok.injEq]
      simp [eq_comm]
  | child =>
      rw [check_child_dir_eq_ok hin.1]
      simp

theorem check_event_eq_ok {img : Image} {s t : Globals} {v : Event}
    (hr : InUse img v.entry.inum → v.role = .parent → inodeType img v.entry.inum = T_DIR →
      ScanReadable img v.entry.inum) :
    check_event img s v = .ok t ↔ InUse img v.entry.inum ∧
      (v.isChildDir img = true → s.my_dir_parent_inode v.entry.inum = 0) ∧
      t = applyEvent img s v := by
  simp only [check_event, bind_eq_ok, pure_eq_ok]
  constructor
  · rintro ⟨u, hu, w, hw, _, hidx, rfl⟩
    obtain ⟨hin, rfl⟩ := check_inode_alloced_eq_ok.mp ⟨hw, hidx⟩
    obtain ⟨h0, rfl⟩ := (eventRole_eq_ok hin (hr hin)).mp hu
    exact ⟨hin, h0, rfl⟩
  · rintro ⟨hin, h0, rfl⟩
    obtain ⟨hw, hidx⟩ := check_inode_alloced_eq_ok.mpr ⟨hin, rfl⟩
    exact ⟨_, (eventRole_eq_ok hin (hr hin)).mpr ⟨h0, rfl⟩, _, hw, (), hidx, rfl⟩

def Globals.setBitmap (s : Globals) (f : ℕ → Byte) : Globals := { s with my_bitmap := f }

@[simp] theorem setBitmap_my_bitmap (s : Globals) (f : ℕ → Byte) :
    (s.setBitmap f).my_bitmap = f := rfl

@[simp] theorem setBitmap_setBitmap (s : Globals) (f g : ℕ → Byte) :
    (s.setBitmap f).setBitmap g = s.setBitmap g := rfl

/-- The directories the events give a parent. -/
def children (img : Image) (vs : List Event) : List ℕ :=
  (vs.filter fun v => v.isChildDir img).map fun v => v.entry.inum

/-- No event of the list stops the program. -/
structure Accepted (img : Image) (s : Globals) (vs : List Event) : Prop where
  inUse : ∀ v ∈ vs, InUse img v.entry.inum
  once : (children img vs).Nodup
  fresh : ∀ c ∈ children img vs, s.my_dir_parent_inode c = 0

/-- The directory scanned is not inode 0, whose number is no mark in `my_dir_parent_inode`. -/
def Event.Marks (v : Event) : Prop := BitVec.ofNat 8 v.dir ≠ 0

section Fields
variable {img : Image}

@[simp] theorem children_nil : children img [] = [] := rfl

theorem children_append (vs ws : List Event) :
    children img (vs ++ ws) = children img vs ++ children img ws := by
  simp [children]

theorem children_singleton (v : Event) :
    children img [v] = if v.isChildDir img then [v.entry.inum] else [] := by
  unfold children
  by_cases h : v.isChildDir img <;> simp [h]

@[simp] theorem foldl_applyEvent_my_bitmap (vs : List Event) (s : Globals) :
    (vs.foldl (applyEvent img) s).my_bitmap = s.my_bitmap := by
  induction vs generalizing s with
  | nil => rfl
  | cons v vs ih => exact ih _

theorem foldl_applyEvent_setBitmap (vs : List Event) (s : Globals) (f : ℕ → Byte) :
    vs.foldl (applyEvent img) (s.setBitmap f) = (vs.foldl (applyEvent img) s).setBitmap f := by
  induction vs generalizing s with
  | nil => rfl
  | cons v vs ih => exact ih (applyEvent img s v)

theorem foldl_applyEvent_my_inode (vs : List Event) (s : Globals) (x : ℕ) :
    (vs.foldl (applyEvent img) s).my_inode x = s.my_inode x -
      BitVec.ofNat 8 (if inodeType img x = T_FILE then
        vs.countP fun v => v.entry.inum = x else 0) := by
  induction vs generalizing s with
  | nil => simp
  | cons v vs ih =>
      rw [List.foldl_cons, ih, List.countP_cons]
      by_cases hx : v.entry.inum = x
      · subst hx
        by_cases hf : inodeType img v.entry.inum = T_FILE
        · simp only [applyEvent, hf, if_true, Function.update_self, decide_true,
            BitVec.ofNat_add]
          rw [BitVec.sub_sub, BitVec.add_comm]
          rfl
        · simp [applyEvent, hf]
      · have hne : x ≠ v.entry.inum := Ne.symm hx
        simp only [applyEvent, hx, decide_false, if_false, Bool.false_eq_true, Nat.add_zero]
        congr 1
        split
        · rw [Function.update_of_ne hne]
        · rfl

theorem foldl_applyEvent_alloced (vs : List Event) (s : Globals) (x : ℕ) :
    (vs.foldl (applyEvent img) s).my_inode_alloced x =
      (s.my_inode_alloced x && !vs.any fun v => v.entry.inum = x) := by
  induction vs generalizing s with
  | nil => simp
  | cons v vs ih =>
      rw [List.foldl_cons, ih, List.any_cons]
      by_cases hx : v.entry.inum = x
      · simp [applyEvent, hx]
      · simp [applyEvent, hx, Function.update_of_ne (Ne.symm hx)]

variable (img) in
theorem foldl_applyEvent_seen_root (vs : List Event) (s : Globals) :
    (vs.foldl (applyEvent img) s).seen_root = (s.seen_root || vs.any Event.isRoot) := by
  induction vs generalizing s with
  | nil => simp
  | cons v vs ih => rw [List.foldl_cons, ih, List.any_cons, applyEvent, Bool.or_assoc]

variable (img) in
theorem foldl_applyEvent_mismatch (vs : List Event) (s : Globals) :
    (vs.foldl (applyEvent img) s).parent_mismatch_seen =
      (s.parent_mismatch_seen || vs.any fun v => v.isMismatch img) := by
  induction vs generalizing s with
  | nil => simp
  | cons v vs ih => rw [List.foldl_cons, ih, List.any_cons, applyEvent, Bool.or_assoc]

theorem applyEvent_parent_eq_zero {v : Event} (hv : v.Marks) (s : Globals) (c : ℕ) :
    (applyEvent img s v).my_dir_parent_inode c = 0 ↔
      s.my_dir_parent_inode c = 0 ∧ c ∉ children img [v] := by
  rw [children_singleton]
  unfold applyEvent
  by_cases hc : v.isChildDir img
  · by_cases hx : c = v.entry.inum
    · subst hx
      simpa [hc] using show BitVec.ofNat 8 v.dir ≠ 0 from hv
    · simp [hc, hx]
  · simp [hc]

theorem foldl_applyEvent_parent_eq_zero {vs : List Event} (hvs : ∀ v ∈ vs, v.Marks) (s : Globals)
    (c : ℕ) : (vs.foldl (applyEvent img) s).my_dir_parent_inode c = 0 ↔
      s.my_dir_parent_inode c = 0 ∧ c ∉ children img vs := by
  induction vs generalizing s with
  | nil => simp
  | cons v vs ih =>
      rw [List.foldl_cons, ih fun w hw => hvs w (List.mem_cons_of_mem v hw),
        applyEvent_parent_eq_zero (hvs v List.mem_cons_self), and_assoc, ← not_or,
        ← List.mem_append, ← children_append, List.singleton_append]

theorem accepted_append {vs ws : List Event} (hvs : ∀ v ∈ vs, v.Marks) {s : Globals} :
    Accepted img s (vs ++ ws) ↔
      Accepted img s vs ∧ Accepted img (vs.foldl (applyEvent img) s) ws := by
  constructor
  · rintro ⟨hin, honce, hfresh⟩
    rw [children_append] at honce hfresh
    obtain ⟨hv, hw, hdisj⟩ := List.nodup_append.mp honce
    refine ⟨⟨fun v h => hin v (List.mem_append_left _ h), hv,
      fun c h => hfresh c (List.mem_append_left _ h)⟩,
      ⟨fun v h => hin v (List.mem_append_right _ h), hw, fun c h => ?_⟩⟩
    refine (foldl_applyEvent_parent_eq_zero hvs s c).mpr ⟨hfresh c (List.mem_append_right _ h), ?_⟩
    exact fun h' => hdisj c h' c h rfl
  · rintro ⟨⟨hin, hv, hfresh⟩, ⟨hin', hw, hfresh'⟩⟩
    have hrest := fun c h => (foldl_applyEvent_parent_eq_zero hvs s c).mp (hfresh' c h)
    refine ⟨?_, ?_, ?_⟩
    · intro v h
      exact (List.mem_append.mp h).elim (hin v) (hin' v)
    · rw [children_append]
      refine List.nodup_append.mpr ⟨hv, hw, ?_⟩
      rintro a ha b hb rfl
      exact (hrest a hb).2 ha
    · rw [children_append]
      intro c h
      exact (List.mem_append.mp h).elim (hfresh c) fun h' => (hrest c h').1

theorem accepted_singleton {s : Globals} {v : Event} :
    Accepted img s [v] ↔ InUse img v.entry.inum ∧
      (v.isChildDir img = true → s.my_dir_parent_inode v.entry.inum = 0) := by
  constructor
  · rintro ⟨hin, -, hfresh⟩
    refine ⟨hin v (by simp), fun hc => hfresh _ ?_⟩
    simp [children_singleton, hc]
  · rintro ⟨hin, hfresh⟩
    refine ⟨by simpa using hin, ?_, ?_⟩
    · rw [children_singleton]
      split <;> simp
    · rw [children_singleton]
      split
      · next hc => simpa using hfresh hc
      · simp

/-- A loop over events runs to its end exactly when they are accepted. -/
theorem foldlM_check_event_eq_ok (hr : DirsReadable img) {vs : List Event}
    (hvs : ∀ v ∈ vs, v.Marks) {s t : Globals} :
    vs.foldlM (check_event img) s = .ok t ↔
      Accepted img s vs ∧ t = vs.foldl (applyEvent img) s := by
  induction vs generalizing s with
  | nil =>
      rw [foldlM_nil_eq_ok, List.foldl_nil, eq_comm]
      exact ⟨fun h => ⟨⟨by simp, by simp, by simp⟩, h⟩, fun h => h.2⟩
  | cons v vs ih =>
      have ih := fun u => ih (s := u) fun w hw => hvs w (List.mem_cons_of_mem v hw)
      rw [foldlM_cons_eq_ok, ← List.singleton_append,
        accepted_append (by simpa using hvs v List.mem_cons_self), accepted_singleton]
      have hv : ∀ u, check_event img s v = .ok u ↔ _ := fun u =>
        check_event_eq_ok fun hin _ hd => (hr _ hin hd).scanReadable
      simp only [hv, ih]
      constructor
      · rintro ⟨u, ⟨h1, h2, rfl⟩, h3, rfl⟩
        exact ⟨⟨⟨h1, h2⟩, h3⟩, rfl⟩
      · rintro ⟨⟨⟨h1, h2⟩, h3⟩, rfl⟩
        exact ⟨_, ⟨h1, h2, rfl⟩, h3, rfl⟩

end Fields

/-! ## The events of a whole directory -/

section Events
variable (d : ℕ) (self parent : Bool) (es : List Dirent)

variable {d self parent es} in
theorem events_dir {v : Event} (h : v ∈ events d self parent es) : v.dir = d := by
  induction es generalizing self parent with
  | nil => simp [events] at h
  | cons e es ih =>
      unfold events at h
      split at h
      · rcases List.mem_cons.mp h with rfl | h
        · rfl
        · exact ih h
      · split at h
        · rcases List.mem_cons.mp h with rfl | h
          · rfl
          · exact ih h
        · rcases List.mem_cons.mp h with rfl | h
          · rfl
          · exact ih h

theorem events_map_entry : (events d self parent es).map Event.entry = es := by
  induction es generalizing self parent with
  | nil => rfl
  | cons e es ih =>
      unfold events
      split
      · rw [List.map_cons, ih]
      · split
        · rw [List.map_cons, ih]
        · rw [List.map_cons, ih]

/-- At most one event has the role `parent`: the first `..`, if none was seen before. -/
theorem events_filter_parent :
    (events d self parent es).filter (fun v => v.role = .parent) =
      if parent then [] else ((es.find? Dirent.isDotDot).map fun e => ⟨d, e, .parent⟩).toList := by
  induction es generalizing self parent with
  | nil => cases parent <;> rfl
  | cons e es ih =>
      unfold events
      split
      · next h =>
        rw [List.filter_cons_of_neg (by simp), ih, List.find?_cons_of_neg (by
          simp [isDotDot_of_isDot h.2])]
      · split
        · next h =>
          rw [List.filter_cons_of_pos (by simp), ih, List.find?_cons_of_pos h.2]
          simp [h.1]
        · next h =>
          rw [List.filter_cons_of_neg (by simp), ih]
          cases parent with
          | true => rfl
          | false => rw [List.find?_cons_of_neg (by simpa using h)]

/-- The entries that are neither the first `.` nor the first `..`. -/
def others (es : List Dirent) : List Dirent :=
  (es.eraseP Dirent.isDot).eraseP Dirent.isDotDot

theorem events_filter_child :
    ((events d self parent es).filter fun v => v.role = .child).map Event.entry =
      (fun l => if parent then l else l.eraseP Dirent.isDotDot)
        (if self then es else es.eraseP Dirent.isDot) := by
  induction es generalizing self parent with
  | nil => cases self <;> cases parent <;> rfl
  | cons e es ih =>
      unfold events
      split
      · next h =>
        rw [List.filter_cons_of_neg (by simp), ih, h.1]
        simp [List.eraseP_cons_of_pos h.2]
      · next hself =>
        have hkeep : (if self then e :: es else (e :: es).eraseP Dirent.isDot) =
            e :: if self then es else es.eraseP Dirent.isDot := by
          cases self with
          | true => rfl
          | false => exact List.eraseP_cons_of_neg (by simpa using hself)
        rw [hkeep]
        split
        · next h =>
          rw [List.filter_cons_of_neg (by simp), ih, h.1]
          simp [List.eraseP_cons_of_pos h.2]
        · next hparent =>
          rw [List.filter_cons_of_pos (by simp), List.map_cons, ih]
          cases parent with
          | true => rfl
          | false => exact (List.eraseP_cons_of_neg (by simpa using hparent)).symm

end Events

end IntroToOS.Fscheck

import IntroToOS.Fscheck.Entries

/-! # When the checker accepts

For an image whose blocks are sound and whose inodes have types and sizes of the on-disk format,
`main` ends with status 0 exactly when the entries that the directory scans see satisfy
`ScanConsistent` (`main_eq_ok_iff`). The passes are followed in the order of `main`: the notes
made of every inode, the second pass over the inodes, the reserved blocks and the final sweeps.
-/

namespace IntroToOS.Fscheck
open Lib
set_option autoImplicit false

def IsDir (img : Image) (d : ℕ) : Prop := InUse img d ∧ inodeType img d = T_DIR

def inodeNlink (img : Image) (i : ℕ) : ℕ := (u16 img (dinode i + 6)).toNat

/-- The directories in the order of their inode numbers. -/
def dirs (img : Image) : List ℕ := (List.range NINODES).filter fun d => inodeType img d = T_DIR

/-- The image has the block structure of the on-disk format: types, sizes and blocks in order, and
inode 0 free. -/
structure WellBlocked (img : Image) : Prop where
  ninodes : ninodes img = NINODES
  type : ∀ i < NINODES, inodeType img i ≤ T_DEV
  zero : inodeType img 0 = 0
  size : ∀ i, InUse img i → inodeSize img i ≤ MAXFILE * BSIZE
  blocks : BlocksSound img

/-- What the directory scans have to see for the image to be accepted. -/
structure ScanConsistent (img : Image) : Prop where
  entry : ∀ d, IsDir img d → ∀ e ∈ scanned img d, InUse img e.inum
  dots : ∀ d, IsDir img d →
    (∃ e ∈ scanned img d, e.isDot = true) ∧ ∃ e ∈ scanned img d, e.isDotDot = true
  root : ∃ e, IsDir img 1 ∧ (scanned img 1).find? Dirent.isDotDot = some e ∧ e.inum = 1
  parent : ∀ d, IsDir img d → d ≠ 1 → ∀ e, (scanned img d).find? Dirent.isDotDot = some e →
    names img e.inum d = true
  once : ((((dirs img).flatMap fun d => others (scanned img d)).filter
    fun e => inodeType img e.inum = T_DIR).map Dirent.inum).Nodup
  named : ∀ i, InUse img i → ∃ d, IsDir img d ∧ ∃ e ∈ scanned img d, e.inum = i
  nlink : ∀ i, InUse img i → inodeType img i = T_FILE →
    inodeNlink img i % 256 = ((dirs img).flatMap (scanned img)).countP (fun e => e.inum = i) % 256

/-! ## Reading a well-blocked image -/

section
variable {img : Image}

theorem WellBlocked.numBlocks_le (h : WellBlocked img) {i : ℕ} (hi : InUse img i) :
    numBlocks img i ≤ MAXFILE := numBlocks_le_maxfile.mpr (h.size i hi)

theorem WellBlocked.used (h : WellBlocked img) {i : ℕ} {p : Position} (hi : InUse img i)
    (hp : p ∈ positions (numBlocks img i)) : Used img i p := by
  refine ⟨hi, ?_⟩
  have hp' := mem_positions.mp hp
  cases p with
  | indirect => exact hp'
  | data k => exact ⟨hp', Nat.lt_of_lt_of_le hp' (h.numBlocks_le hi)⟩

theorem WellBlocked.range (h : WellBlocked img) {i : ℕ} (hi : InUse img i) :
    ∀ a ∈ refs img i, 29 ≤ a ∧ a ≤ 1023 := by
  intro a ha
  obtain ⟨p, hp, rfl⟩ := List.mem_map.mp ha
  exact h.blocks.inRegion i p (h.used hi hp)

theorem WellBlocked.indirectReadable (h : WellBlocked img) {i : ℕ} (hi : InUse img i) :
    IndirectReadable img i := by
  intro k hk hle
  have hlt : k < 140 := Nat.lt_of_lt_of_le hk (h.numBlocks_le hi)
  have hind := (h.blocks.inRegion i .indirect ⟨hi, Nat.lt_of_le_of_lt hle hk⟩).2
  have hind' : indirectBlock img i ≤ 1023 := hind
  show indirectBlock img i * 512 % 2 ^ 32 + 4 * (k - 12) + 4 ≤ 524288
  omega

theorem WellBlocked.dirsReadable (h : WellBlocked img) : DirsReadable img := by
  intro d hd _
  refine ⟨fun b hb => ?_, h.indirectReadable hd⟩
  obtain ⟨k, hk, rfl⟩ := List.mem_map.mp hb
  exact (h.blocks.inRegion d _ (h.used hd (mem_positions.mpr (List.mem_range.mp hk)))).2

theorem WellBlocked.allRefs_nodup (h : WellBlocked img) : (allRefs img).Nodup := by
  rw [allRefs_eq]
  refine List.Nodup.map_on ?_ ?_
  · rintro ⟨i, p⟩ hx ⟨j, q⟩ hy he
    obtain ⟨hi, hp⟩ := mem_followed.mp hx
    obtain ⟨hj, hq⟩ := mem_followed.mp hy
    obtain ⟨rfl, rfl⟩ := h.blocks.injective i p j q (h.used hi hp) (h.used hj hq) he
    rfl
  · exact followed_nodup img

/-! ## One inode -/

/-- The events of the second pass for inode `i`. -/
def dirEvents (img : Image) (i : ℕ) : List Event :=
  if inodeType img i = T_DIR then events i false false (scanned img i) else []

/-- A directory shows a `.` and a `..`. -/
def Dotted (img : Image) (i : ℕ) : Prop :=
  inodeType img i = T_DIR →
    (scanned img i).any Dirent.isDot = true ∧ (scanned img i).any Dirent.isDotDot = true

theorem dirEvents_marks (h : WellBlocked img) {i : ℕ} (hi : i < NINODES) :
    ∀ v ∈ dirEvents img i, v.Marks := by
  intro v hv
  unfold dirEvents at hv
  split at hv
  · next hd =>
    have hne : i ≠ 0 := by
      rintro rfl
      rw [h.zero] at hd
      exact absurd hd (by decide)
    intro h0
    rw [events_dir hv] at h0
    have hi' : i < 200 := hi
    have := congrArg BitVec.toNat h0
    simp only [BitVec.toNat_ofNat] at this
    rw [Nat.mod_eq_of_lt (by omega)] at this
    exact hne (by simpa using this)
  · simp at hv

theorem check_dir_inode_eq_ok (h : WellBlocked img) {d : ℕ} (hd : IsDir img d) {s t : Globals} :
    check_dir_inode img s d = .ok t ↔ Dotted img d ∧ Accepted img s (dirEvents img d) ∧
      t = (dirEvents img d).foldl (applyEvent img) s := by
  have hev : dirEvents img d = events d false false (scanned img d) := if_pos hd.2
  have hm := dirEvents_marks h hd.1.1
  rw [hev] at hm ⊢
  rw [check_dir_inode_eq hd.1.1 (h.dirsReadable d hd.1 hd.2).scanReadable, foldlM_check_dir_entry_eq]
  simp only [bind_eq_ok, pure_eq_ok, foldlM_check_event_eq_ok h.dirsReadable hm, fail,
    throwIf_eq_ok, Bool.false_or, Dotted, hd.2, forall_const]
  constructor
  · rintro ⟨u, ⟨w, ⟨hacc, rfl⟩, rfl⟩, hdots, rfl⟩
    rw [Bool.not_eq_false, Bool.and_eq_true] at hdots
    exact ⟨hdots, hacc, rfl⟩
  · rintro ⟨hdots, hacc, rfl⟩
    rw [← Bool.and_eq_true, ← Bool.not_eq_false] at hdots
    exact ⟨_, ⟨_, ⟨hacc, rfl⟩, rfl⟩, hdots, rfl⟩

theorem accepted_setBitmap {s : Globals} {vs : List Event} (f : ℕ → Byte) :
    Accepted img (s.setBitmap f) vs ↔ Accepted img s vs :=
  ⟨fun ⟨h1, h2, h3⟩ => ⟨h1, h2, h3⟩, fun ⟨h1, h2, h3⟩ => ⟨h1, h2, h3⟩⟩

theorem check_inode_eq_ok (h : WellBlocked img) {i : ℕ} (hi : i < NINODES) {s t : Globals} :
    check_inode img s i = .ok t ↔ Claims img s.my_bitmap (inodeRefs img i) ∧ Dotted img i ∧
      Accepted img s (dirEvents img i) ∧
      t = ((dirEvents img i).foldl (applyEvent img) s).setBitmap
        ((inodeRefs img i).foldl clearBit s.my_bitmap) := by
  have hnone : Accepted img s [] := ⟨by simp, by simp, by simp⟩
  have haddrs : inodeType img i ≠ 0 → ∀ u, check_inode_addrs img s i = .ok u ↔
      Claims img s.my_bitmap (refs img i) ∧
        u = s.setBitmap ((refs img i).foldl clearBit s.my_bitmap) := by
    intro h0 u
    rw [check_inode_addrs_eq_ok hi]
    have hr := h.range ⟨hi, h0⟩
    exact ⟨fun hu => hu.2.2, fun hu => ⟨h.indirectReadable ⟨hi, h0⟩,
      fun a ha => ⟨(hr a ha).1, by have := (hr a ha).2; omega⟩, hu⟩⟩
  rw [check_inode, readType hi, ok_bind]
  by_cases h0 : inodeType img i = 0
  · have hd : ¬ inodeType img i = T_DIR := by simp [h0]
    have hdots : Dotted img i := fun hd' => absurd hd' hd
    have hclaims : Claims img s.my_bitmap [] := ⟨List.nodup_nil, by simp⟩
    rw [if_pos h0, pure_eq_ok, inodeRefs, if_pos h0, dirEvents, if_neg hd]
    simp only [hclaims, hdots, hnone, true_and]
    exact Iff.rfl
  · simp only [h0, if_false, inodeRefs]
    by_cases hd : inodeType img i = T_DIR
    · have hfile : ¬ (inodeType img i = T_DEV ∨ inodeType img i = T_FILE) := by
        rw [hd]
        decide
      rw [if_neg hfile, if_pos hd, bind_eq_ok]
      simp only [haddrs h0, check_dir_inode_eq_ok h ⟨⟨hi, h0⟩, hd⟩]
      constructor
      · rintro ⟨u, ⟨hc, rfl⟩, hdots, hacc, rfl⟩
        exact ⟨hc, hdots, (accepted_setBitmap _).mp hacc, foldl_applyEvent_setBitmap _ _ _⟩
      · rintro ⟨hc, hdots, hacc, rfl⟩
        exact ⟨_, ⟨hc, rfl⟩, hdots, (accepted_setBitmap _).mpr hacc, (foldl_applyEvent_setBitmap _ _ _).symm⟩
    · have hfile : inodeType img i = T_DEV ∨ inodeType img i = T_FILE := by
        have h3 : inodeType img i ≤ 3 := h.type i hi
        have h1 : inodeType img i ≠ 1 := hd
        show inodeType img i = 3 ∨ inodeType img i = 2
        omega
      have hdots : Dotted img i := fun hd' => absurd hd' hd
      rw [if_pos hfile, haddrs h0, dirEvents, if_neg hd]
      simp only [hdots, hnone, List.foldl_nil, true_and]

/-! ## The passes of `main` -/

def allEvents (img : Image) (l : List ℕ) : List Event := l.flatMap (dirEvents img)

theorem foldlM_check_inode_eq_ok (h : WellBlocked img) {l : List ℕ} (hl : ∀ i ∈ l, i < NINODES)
    {s t : Globals} :
    l.foldlM (check_inode img) s = .ok t ↔ Claims img s.my_bitmap (l.flatMap (inodeRefs img)) ∧
      (∀ i ∈ l, Dotted img i) ∧ Accepted img s (allEvents img l) ∧
      t = ((allEvents img l).foldl (applyEvent img) s).setBitmap
        ((l.flatMap (inodeRefs img)).foldl clearBit s.my_bitmap) := by
  induction l generalizing s with
  | nil =>
      rw [foldlM_nil_eq_ok, eq_comm]
      exact ⟨fun ht => ⟨⟨by simp, by simp⟩, by simp, ⟨by simp [allEvents], by simp [allEvents],
        by simp [allEvents]⟩, ht⟩, fun ht => ht.2.2.2⟩
  | cons i l ih =>
      have hi := hl i List.mem_cons_self
      have ih := fun u => ih (s := u) fun j hj => hl j (List.mem_cons_of_mem i hj)
      have hcons : allEvents img (i :: l) = dirEvents img i ++ allEvents img l := rfl
      rw [foldlM_cons_eq_ok, List.flatMap_cons, claims_append, List.forall_mem_cons, hcons,
        accepted_append (dirEvents_marks h hi)]
      simp only [check_inode_eq_ok h hi, ih, List.foldl_append]
      constructor
      · rintro ⟨u, ⟨h1, h2, h3, rfl⟩, h4, h5, h6, rfl⟩
        rw [foldl_applyEvent_setBitmap]
        exact ⟨⟨h1, h4⟩, ⟨h2, h5⟩, ⟨h3, (accepted_setBitmap _).mp h6⟩, rfl⟩
      · rintro ⟨⟨h1, h4⟩, ⟨h2, h5⟩, ⟨h3, h6⟩, rfl⟩
        refine ⟨_, ⟨h1, h2, h3, rfl⟩, h4, h5, (accepted_setBitmap _).mpr h6, ?_⟩
        rw [foldl_applyEvent_setBitmap]
        rfl

/-- What the first pass notes of inode `i`. -/
def noteInode (img : Image) (s : Globals) (i : ℕ) : Globals :=
  if inodeType img i = 0 then s
  else { s with
    my_inode_alloced := Function.update s.my_inode_alloced i true
    my_inode := if inodeType img i = T_FILE then
        Function.update s.my_inode i (BitVec.ofNat 8 (inodeNlink img i)) else s.my_inode }

theorem note_inode_eq {i : ℕ} (hi : i < NINODES) (s : Globals) :
    note_inode img s i = .ok (noteInode img s i) := by
  have hlink : readU16 img (dinode i + 6) = .ok (inodeNlink img i) :=
    readU16_eq_ok.mpr ⟨by have := dinode_le hi; omega, rfl⟩
  have hidx : index i NINODES = .ok () := if_pos hi
  unfold noteInode
  simp only [note_inode, readType hi, ok_bind, hidx, hlink]
  split
  · rfl
  · split <;> rfl

theorem foldlM_note_inode_eq {l : List ℕ} (hl : ∀ i ∈ l, i < NINODES) (s : Globals) :
    l.foldlM (note_inode img) s = .ok (l.foldl (noteInode img) s) := by
  rw [foldlM_congr (g := fun s i => pure (noteInode img s i))
    (fun i hi s => note_inode_eq (hl i hi) s), List.foldlM_pure]
  rfl

theorem foldl_noteInode (img : Image) (l : List ℕ) (s : Globals) :
    (l.foldl (noteInode img) s).my_bitmap = s.my_bitmap ∧
    (l.foldl (noteInode img) s).my_dir_parent_inode = s.my_dir_parent_inode ∧
    (l.foldl (noteInode img) s).seen_root = s.seen_root ∧
    (l.foldl (noteInode img) s).parent_mismatch_seen = s.parent_mismatch_seen ∧
    (∀ x, (l.foldl (noteInode img) s).my_inode_alloced x =
      (s.my_inode_alloced x || decide (x ∈ l ∧ inodeType img x ≠ 0))) ∧
    ∀ x, (l.foldl (noteInode img) s).my_inode x = if x ∈ l ∧ inodeType img x = T_FILE then
      BitVec.ofNat 8 (inodeNlink img x) else s.my_inode x := by
  induction l generalizing s with
  | nil => simp
  | cons i l ih =>
      obtain ⟨h1, h2, h3, h4, h5, h6⟩ := ih (noteInode img s i)
      rw [List.foldl_cons, h1, h2, h3, h4]
      simp only [h5, h6]
      unfold noteInode
      by_cases h0 : inodeType img i = 0
      · simp only [h0, if_true, true_and]
        constructor
        · intro x
          by_cases hx : x = i
          · subst hx; simp [h0]
          · simp [hx]
        · intro x
          by_cases hx : x = i
          · subst hx; simp [h0]
          · simp [hx]
      · simp only [h0, if_false, true_and]
        constructor
        · intro x
          by_cases hx : x = i
          · subst hx; simp [h0]
          · simp [hx]
        · intro x
          by_cases hx : x = i
          · subst hx
            by_cases hf : inodeType img x = T_FILE <;> simp [hf]
          · by_cases hf : inodeType img i = T_FILE <;> simp [hf, hx]

theorem check_leftovers_eq_ok {s : Globals} :
    check_leftovers s = .ok () ↔ (∀ i < 512, s.my_bitmap i = 0) ∧
      (∀ i < NINODES, s.my_inode_alloced i = false) ∧ ∀ i < NINODES, s.my_inode i = 0 := by
  unfold check_leftovers fail
  rw [throwIf_eq_ok, throwIf_eq_ok, throwIf_eq_ok, not_not, not_not, not_not]
  simp only [and_true]

/-- The working copy `main` starts from. -/
def bitmapCopy (img : Image) : ℕ → Byte := fun i => if i < 512 then bitmap img i else 0

theorem copy_bitmap_eq (img : Image) :
    copy_bitmap img NINODES = .ok { my_bitmap := bitmapCopy img } := rfl

theorem bit_bitmapCopy {b : ℕ} (hb : b < 4096) : bit (bitmapCopy img) b = bit (bitmap img) b := by
  have : b / 8 < 512 := by omega
  simp only [bit, bitmapCopy, this, if_true]

/-- In a well-blocked image all bitmap passes succeed and leave nothing over. -/
theorem WellBlocked.bitmap_passes (h : WellBlocked img) :
    Claims img (bitmapCopy img) (allRefs img) ∧
      Claims img ((allRefs img).foldl clearBit (bitmapCopy img)) (List.range 29) ∧
      ∀ i < 512, (List.range 29).foldl clearBit ((allRefs img).foldl clearBit (bitmapCopy img)) i
        = 0 := by
  have hmem : ∀ a, a ∈ allRefs img ↔ ∃ i p, Used img i p ∧ blockOf img i p = a := by
    intro a
    rw [allRefs_eq, List.mem_map]
    constructor
    · rintro ⟨⟨i, p⟩, hx, rfl⟩
      obtain ⟨hi, hp⟩ := mem_followed.mp hx
      exact ⟨i, p, h.used hi hp, rfl⟩
    · rintro ⟨i, p, hp, rfl⟩
      exact ⟨(i, p), hp.mem_followed, rfl⟩
  have hregion : ∀ a ∈ allRefs img, 29 ≤ a ∧ a ≤ 1023 := by
    intro a ha
    obtain ⟨i, p, hp, rfl⟩ := (hmem a).mp ha
    exact h.blocks.inRegion i p hp
  have hmark : ∀ b < 4096, bit (bitmap img) b = true ↔ b < 29 ∨ b ∈ allRefs img := by
    intro b hb
    rw [h.blocks.marked b hb, hmem]
  refine ⟨⟨h.allRefs_nodup, ?_⟩, ⟨List.nodup_range, ?_⟩, ?_⟩
  · intro b hb
    have hlt : b < 4096 := by have := (hregion b hb).2; omega
    have hbit := (hmark b hlt).mpr (.inr hb)
    exact ⟨hbit, by rw [bit_bitmapCopy hlt, hbit]⟩
  · intro b hb
    have h29 : b < 29 := List.mem_range.mp hb
    have hlt : b < 4096 := by omega
    have hbit := (hmark b hlt).mpr (.inl h29)
    have hout : b ∉ allRefs img := fun ha => by
      have := (hregion b ha).1
      omega
    exact ⟨hbit, by rw [bit_clearBits, bit_bitmapCopy hlt, hbit]; simpa using hout⟩
  · intro i hi
    refine (byte_eq_zero_iff _ i).mpr fun b hb => ?_
    have hlt : b < 4096 := by omega
    rw [bit_clearBits, bit_clearBits, bit_bitmapCopy hlt]
    cases hbit : bit (bitmap img) b with
    | false => simp
    | true =>
        rcases (hmark b hlt).mp hbit with h29 | ha
        · simp [h29]
        · simp [ha]

/-! ## The events of a pass -/

theorem mem_dirs {d : ℕ} : d ∈ dirs img ↔ IsDir img d := by
  unfold dirs IsDir InUse
  rw [List.mem_filter, List.mem_range, decide_eq_true_eq]
  constructor
  · rintro ⟨hlt, hd⟩
    exact ⟨⟨hlt, by rw [hd]; decide⟩, hd⟩
  · rintro ⟨⟨hlt, -⟩, hd⟩
    exact ⟨hlt, hd⟩

/-- The directories among the inodes of `l`. -/
def dirsIn (img : Image) (l : List ℕ) : List ℕ := l.filter fun d => inodeType img d = T_DIR

theorem mem_dirsIn {l : List ℕ} {d : ℕ} : d ∈ dirsIn img l ↔ d ∈ l ∧ inodeType img d = T_DIR := by
  rw [dirsIn, List.mem_filter, decide_eq_true_eq]

theorem allEvents_eq (l : List ℕ) : allEvents img l =
    (dirsIn img l).flatMap fun d => events d false false (scanned img d) := by
  unfold allEvents dirsIn dirEvents
  induction l with
  | nil => rfl
  | cons i l ih =>
      rw [List.flatMap_cons, ih]
      by_cases hd : inodeType img i = T_DIR
      · rw [if_pos hd, List.filter_cons_of_pos (by simpa using hd), List.flatMap_cons]
      · rw [if_neg hd, List.filter_cons_of_neg (by simpa using hd), List.nil_append]

theorem allEvents_map_entry (l : List ℕ) :
    (allEvents img l).map Event.entry = (dirsIn img l).flatMap (scanned img) := by
  rw [allEvents_eq, List.map_flatMap]
  congr 1
  funext d
  exact events_map_entry d false false _

theorem children_allEvents (l : List ℕ) : children img (allEvents img l) =
    ((((dirsIn img l).flatMap fun d => others (scanned img d)).filter
      fun e => inodeType img e.inum = T_DIR).map Dirent.inum) := by
  have hone : ∀ d, children img (events d false false (scanned img d)) =
      ((others (scanned img d)).filter fun e => inodeType img e.inum = T_DIR).map Dirent.inum := by
    intro d
    have hchild := events_filter_child d false false (scanned img d)
    simp only [Bool.false_eq_true, if_false] at hchild
    rw [others, ← hchild, List.filter_map, List.map_map, List.filter_filter]
    unfold children Event.isChildDir
    simp only [Function.comp_def]
    congr 2
    funext v
    exact Bool.and_comm _ _
  rw [allEvents_eq, List.filter_flatMap, List.map_flatMap]
  induction dirsIn img l with
  | nil => rfl
  | cons d l ih => rw [List.flatMap_cons, List.flatMap_cons, children_append, ih, hone]

theorem mem_allEvents_parent {l : List ℕ} {v : Event} : v ∈ allEvents img l ∧ v.role = .parent ↔
    ∃ d e, (d ∈ l ∧ inodeType img d = T_DIR) ∧
      (scanned img d).find? Dirent.isDotDot = some e ∧ v = ⟨d, e, .parent⟩ := by
  have hone : ∀ d, (v ∈ events d false false (scanned img d) ∧ v.role = .parent) ↔
      ∃ e, (scanned img d).find? Dirent.isDotDot = some e ∧ v = ⟨d, e, .parent⟩ := by
    intro d
    have hf := events_filter_parent d false false (scanned img d)
    have := congrArg (v ∈ ·) hf
    simp only [List.mem_filter, decide_eq_true_eq, Bool.false_eq_true, if_false, Option.mem_toList,
      Option.map_eq_some_iff] at this
    rw [this]
    exact ⟨fun ⟨e, he, h⟩ => ⟨e, he, h.symm⟩, fun ⟨e, he, h⟩ => ⟨e, he, h.symm⟩⟩
  rw [allEvents_eq]
  simp only [List.mem_flatMap, mem_dirsIn]
  constructor
  · rintro ⟨⟨d, hd, hv⟩, hr⟩
    obtain ⟨e, he, rfl⟩ := (hone d).mp ⟨hv, hr⟩
    exact ⟨d, e, hd, he, rfl⟩
  · rintro ⟨d, e, hd, he, rfl⟩
    obtain ⟨hv, hr⟩ := (hone d).mpr ⟨e, he, rfl⟩
    exact ⟨⟨d, hd, hv⟩, hr⟩

/-- A pass over the inodes of `l` clears the mark of `i` when it sees an entry naming it. -/
theorem alloced_left (l : List ℕ) (s : Globals) (i : ℕ) :
    ((allEvents img l).foldl (applyEvent img) s).my_inode_alloced i = false ↔
      (s.my_inode_alloced i = true →
        ∃ d, (d ∈ l ∧ inodeType img d = T_DIR) ∧ ∃ e ∈ scanned img d, e.inum = i) := by
  have hany : ((allEvents img l).any fun v => v.entry.inum = i) = true ↔
      ∃ d, (d ∈ l ∧ inodeType img d = T_DIR) ∧ ∃ e ∈ scanned img d, e.inum = i := by
    have hmap : ((allEvents img l).any fun v => v.entry.inum = i) =
        (((allEvents img l).map Event.entry).any fun e => e.inum = i) := by
      rw [List.any_map]
      rfl
    rw [hmap, allEvents_map_entry, List.any_flatMap, List.any_eq_true]
    simp only [mem_dirsIn, List.any_eq_true, decide_eq_true_eq]
  rw [foldl_applyEvent_alloced, ← hany]
  cases s.my_inode_alloced i <;> simp

/-- A pass over the inodes of `l` counts the entries naming a file, modulo 256. -/
theorem nlink_left (l : List ℕ) (s : Globals) {i n : ℕ} (hf : inodeType img i = T_FILE)
    (h1 : s.my_inode i = BitVec.ofNat 8 n) :
    ((allEvents img l).foldl (applyEvent img) s).my_inode i = 0 ↔
      n % 256 = ((dirsIn img l).flatMap (scanned img)).countP (fun e => e.inum = i) % 256 := by
  have hcount : ((allEvents img l).countP fun v => v.entry.inum = i) =
      ((dirsIn img l).flatMap (scanned img)).countP fun e => e.inum = i := by
    rw [← allEvents_map_entry, List.countP_map]
    rfl
  rw [foldl_applyEvent_my_inode, h1, hcount, if_pos hf, BitVec.sub_eq_iff_eq_add,
    show (0 : Byte) = 0#8 from rfl, BitVec.zero_add]
  constructor
  · intro he
    simpa using congrArg BitVec.toNat he
  · intro he
    exact BitVec.eq_of_toNat_eq (by simpa using he)

/-- The events of the whole pass. -/
def passEvents (img : Image) : List Event := allEvents img (List.range NINODES)

theorem mem_passEvents_parent {v : Event} : v ∈ passEvents img ∧ v.role = .parent ↔
    ∃ d e, IsDir img d ∧ (scanned img d).find? Dirent.isDotDot = some e ∧ v = ⟨d, e, .parent⟩ := by
  simp only [passEvents, mem_allEvents_parent, ← mem_dirs]
  exact Iff.of_eq (by simp only [dirs, List.mem_filter, decide_eq_true_eq])

theorem inUse_not_left (s : Globals) {i : ℕ} (hi : i < NINODES)
    (h1 : s.my_inode_alloced i = decide (inodeType img i ≠ 0)) :
    ((passEvents img).foldl (applyEvent img) s).my_inode_alloced i = false ↔
      (InUse img i → ∃ d, IsDir img d ∧ ∃ e ∈ scanned img d, e.inum = i) := by
  rw [passEvents, alloced_left, h1, decide_eq_true_eq]
  simp only [← mem_dirsIn]
  exact ⟨fun h hin => (h hin.2).imp fun d hd => ⟨mem_dirs.mp hd.1, hd.2⟩,
    fun h h0 => (h ⟨hi, h0⟩).imp fun d hd => ⟨mem_dirs.mpr hd.1, hd.2⟩⟩

/-- A well-blocked image is accepted exactly when its directories are consistent as scanned. -/
theorem WellBlocked.main_eq_ok_iff (h : WellBlocked img) :
    main img = .ok () ↔ ScanConsistent img := by
  have hl : ∀ i ∈ List.range NINODES, i < NINODES := fun i hi => List.mem_range.mp hi
  obtain ⟨hc, hc₂, hz⟩ := h.bitmap_passes
  obtain ⟨hb, hp, hroot, hmis, halloc, hlink⟩ :=
    foldl_noteInode img (List.range NINODES) { my_bitmap := bitmapCopy img }
  have hnote : (List.range NINODES).foldlM (note_inode img) { my_bitmap := bitmapCopy img } =
      .ok ((List.range NINODES).foldl (noteInode img) { my_bitmap := bitmapCopy img }) :=
    foldlM_note_inode_eq hl _
  generalize (List.range NINODES).foldl (noteInode img) { my_bitmap := bitmapCopy img } = s₁ at *
  have hrefs : (List.range NINODES).flatMap (inodeRefs img) = allRefs img := rfl
  have hevs : allEvents img (List.range NINODES) = passEvents img := rfl
  have h29 : ∀ b ∈ List.range 29, b < 4096 := fun b hb => by
    have := List.mem_range.mp hb
    omega
  have hsr : ((passEvents img).foldl (applyEvent img) s₁).seen_root =
      (passEvents img).any Event.isRoot := by
    rw [foldl_applyEvent_seen_root, hroot, Bool.false_or]
  have hsm : ((passEvents img).foldl (applyEvent img) s₁).parent_mismatch_seen =
      (passEvents img).any fun v => v.isMismatch img := by
    rw [foldl_applyEvent_mismatch, hmis, Bool.false_or]
  have hmain : main img = .ok () ↔ (∀ i < NINODES, Dotted img i) ∧
      Accepted img s₁ (passEvents img) ∧ (passEvents img).any Event.isRoot = true ∧
      ((passEvents img).any fun v => v.isMismatch img) = false ∧
      (∀ i < NINODES, ((passEvents img).foldl (applyEvent img) s₁).my_inode_alloced i = false) ∧
      ∀ i < NINODES, ((passEvents img).foldl (applyEvent img) s₁).my_inode i = 0 := by
    simp only [main, h.ninodes, copy_bitmap_eq, ok_bind, hnote, bind_eq_ok,
      foldlM_check_inode_eq_ok h hl, hrefs, hevs, fail, throwIf_eq_ok,
      foldlM_check_balloced_eq_ok h29, check_leftovers_eq_ok]
    constructor
    · rintro ⟨u, ⟨-, h2, h3, rfl⟩, h4, h5, w, ⟨-, rfl⟩, -, h6, h7⟩
      exact ⟨fun i hi => h2 i (List.mem_range.mpr hi), h3,
        hsr.symm.trans ((Bool.not_eq_false _).mp h4),
        hsm.symm.trans ((Bool.not_eq_true _).mp h5), h6, h7⟩
    · rintro ⟨h2, h3, h4, h5, h6, h7⟩
      refine ⟨_, ⟨hb ▸ hc, fun i hi => h2 i (List.mem_range.mp hi), h3, rfl⟩, ?_, ?_, _,
        ⟨hb ▸ hc₂, rfl⟩, hb ▸ hz, h6, h7⟩
      · exact (Bool.not_eq_false _).mpr (hsr.trans h4)
      · exact (Bool.not_eq_true _).mpr (hsm.trans h5)
  have hmem : ∀ e, e ∈ (dirs img).flatMap (scanned img) ↔ ∃ v ∈ passEvents img, v.entry = e := by
    intro e
    rw [show dirs img = dirsIn img (List.range NINODES) from rfl, ← allEvents_map_entry,
      List.mem_map]
    rfl
  have halloc' : ∀ i < NINODES, s₁.my_inode_alloced i = decide (inodeType img i ≠ 0) := by
    intro i hi
    rw [halloc]
    simp [show i < 200 from hi]
  have hlink' : ∀ i < NINODES, s₁.my_inode i =
      if inodeType img i = T_FILE then BitVec.ofNat 8 (inodeNlink img i) else 0 := by
    intro i hi
    rw [hlink]
    simp [show i < 200 from hi]
  rw [hmain]
  constructor
  · rintro ⟨hdots, hacc, hrt, hpar, hall, hlnk⟩
    refine ⟨?_, ?_, ?_, ?_, ?_, ?_, ?_⟩
    · intro d hd e he
      obtain ⟨v, hv, rfl⟩ := (hmem e).mp (List.mem_flatMap.mpr ⟨d, mem_dirs.mpr hd, he⟩)
      exact hacc.inUse v hv
    · intro d hd
      simpa [List.any_eq_true] using hdots d hd.1.1 hd.2
    · obtain ⟨v, hv, hr⟩ := List.any_eq_true.mp hrt
      simp only [Event.isRoot, Bool.and_eq_true, decide_eq_true_eq] at hr
      obtain ⟨d, e, hd, he, rfl⟩ := mem_passEvents_parent.mp ⟨hv, hr.1.1⟩
      obtain rfl : d = 1 := hr.2
      exact ⟨e, hd, he, hr.1.2⟩
    · intro d hd hd1 e he
      obtain ⟨hv, -⟩ := mem_passEvents_parent.mpr ⟨d, e, hd, he, rfl⟩
      have := List.any_eq_false.mp hpar _ hv
      simpa [Event.isMismatch, hd1] using this
    · rw [dirs, ← dirsIn, ← children_allEvents]
      exact hacc.once
    · intro i hi
      exact (inUse_not_left s₁ hi.1 (halloc' i hi.1)).mp (hall i hi.1) hi
    · intro i hi hf
      exact (nlink_left (List.range NINODES) s₁ hf ((hlink' i hi.1).trans (if_pos hf))).mp
        (hlnk i hi.1)
  · intro hs
    refine ⟨?_, ⟨?_, ?_, ?_⟩, ?_, ?_, ?_, ?_⟩
    · intro i hi hd
      simpa [List.any_eq_true] using hs.dots i ⟨⟨hi, by rw [hd]; decide⟩, hd⟩
    · intro v hv
      obtain ⟨d, hd, he⟩ := List.mem_flatMap.mp ((hmem v.entry).mpr ⟨v, hv, rfl⟩)
      exact hs.entry d (mem_dirs.mp hd) _ he
    · exact (children_allEvents (List.range NINODES)).symm ▸ hs.once
    · intro c _
      rw [hp]
    · obtain ⟨e, hd, he, h1⟩ := hs.root
      obtain ⟨hv, -⟩ := mem_passEvents_parent.mpr ⟨1, e, hd, he, rfl⟩
      exact List.any_eq_true.mpr ⟨_, hv, by simp [Event.isRoot, h1]⟩
    · refine List.any_eq_false.mpr fun v hv hm => ?_
      simp only [Event.isMismatch, Bool.and_eq_true, decide_eq_true_eq, Bool.not_eq_true'] at hm
      obtain ⟨d, e, hd, he, rfl⟩ := mem_passEvents_parent.mp ⟨hv, hm.1.1⟩
      have := hs.parent d hd hm.2 e he
      rw [hm.1.2] at this
      cases this
    · intro i hi
      exact (inUse_not_left s₁ hi (halloc' i hi)).mpr (hs.named i)
    · intro i hi
      by_cases hf : inodeType img i = T_FILE
      · exact (nlink_left (List.range NINODES) s₁ hf ((hlink' i hi).trans (if_pos hf))).mpr
          (hs.nlink i ⟨hi, by rw [hf]; decide⟩ hf)
      · rw [foldl_applyEvent_my_inode, hlink' i hi, if_neg hf, if_neg hf]
        rfl

end

end IntroToOS.Fscheck

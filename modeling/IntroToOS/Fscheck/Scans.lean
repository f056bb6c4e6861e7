import IntroToOS.Fscheck.Accept
import Mathlib.Data.List.TakeWhile

/-! # What the scans have seen when the checker accepts

For any image that `main` accepts, whatever its superblock says about the number of inodes. The
inodes of the file system are those below `sb.ninodes`; `Passed` lists what acceptance says about
them in terms of the entries that the directory scans see.
-/

namespace IntroToOS.Fscheck
open Lib
set_option autoImplicit false

/-- An in-use inode of the inode table. -/
def Live (img : Image) (i : ℕ) : Prop := i < ninodes img ∧ inodeType img i ≠ 0

def LiveDir (img : Image) (d : ℕ) : Prop := d < ninodes img ∧ inodeType img d = T_DIR

instance (img : Image) (i : ℕ) : Decidable (Live img i) := inferInstanceAs (Decidable (_ ∧ _))

def liveDirs (img : Image) : List ℕ := dirsIn img (List.range (ninodes img))

/-- How many entries seen by the scans name `i`. -/
def seenLinks (img : Image) (i : ℕ) : ℕ :=
  ((liveDirs img).flatMap (scanned img)).countP fun e => e.inum = i

structure Passed (img : Image) : Prop where
  live : ∀ i, Live img i → i < NINODES
  zero : ¬ Live img 0
  entry : ∀ d, LiveDir img d → ∀ e ∈ scanned img d, InUse img e.inum
  dots : ∀ d, LiveDir img d →
    (∃ e ∈ scanned img d, e.isDot = true) ∧ ∃ e ∈ scanned img d, e.isDotDot = true
  root : ∃ e, LiveDir img 1 ∧ (scanned img 1).find? Dirent.isDotDot = some e ∧ e.inum = 1
  parent : ∀ d, LiveDir img d → d ≠ 1 → ∀ e, (scanned img d).find? Dirent.isDotDot = some e →
    names img e.inum d = true
  once : ((((liveDirs img).flatMap fun d => others (scanned img d)).filter
    fun e => inodeType img e.inum = T_DIR).map Dirent.inum).Nodup
  named : ∀ i, Live img i → ∃ d, LiveDir img d ∧ ∃ e ∈ scanned img d, e.inum = i
  nlink : ∀ i, Live img i → inodeType img i = T_FILE →
    inodeNlink img i % 256 = seenLinks img i % 256

section
variable {img : Image}

theorem mem_liveDirs {d : ℕ} : d ∈ liveDirs img ↔ LiveDir img d := by
  rw [liveDirs, mem_dirsIn, List.mem_range]
  rfl

theorem LiveDir.live {d : ℕ} (h : LiveDir img d) : Live img d := ⟨h.1, by rw [h.2]; decide⟩

/-! ## Reads that succeed -/

theorem readDirent_eq_ok {off : ℕ} {e : Dirent} (h : readDirent img off = .ok e) :
    off + 16 ≤ IMAGE_SIZE := by
  unfold readDirent at h
  split at h
  · assumption
  · cases h

/-- A block whose first entry is inside the image is inside as a whole. -/
theorem block_of_first {b : ℕ} (h : rsect b + 16 ≤ IMAGE_SIZE) : rsect b + 16 * 32 ≤ IMAGE_SIZE := by
  have h' : b * 512 % 2 ^ 32 + 16 ≤ 524288 := h
  show b * 512 % 2 ^ 32 + 512 ≤ 524288
  omega

theorem check_dir_block_first {d off : ℕ} {t u : DirScan} {j : ℕ}
    (h : check_dir_block img d (j + 1) off t = .ok u) : off + 16 ≤ IMAGE_SIZE := by
  obtain ⟨e, he, -⟩ := bind_eq_ok.mp h
  exact readDirent_eq_ok he

theorem seen_child_first {c off j : ℕ} {b : Bool} (h : seen_child img c (j + 1) off = .ok b) :
    off + 16 ≤ IMAGE_SIZE := by
  obtain ⟨e, he, -⟩ := bind_eq_ok.mp h
  exact readDirent_eq_ok he

/-- A loop over the blocks of a directory that ends normally has read them all. -/
theorem scanReadable_of_loop {σ : Type} {d : ℕ} (hd : d < NINODES) {f : σ → ℕ → Check σ} {s t : σ}
    (hf : ∀ u b v, f u b = .ok v → rsect b + 16 ≤ IMAGE_SIZE)
    (h : (List.range (numBlocks img d)).foldlM (fun u k => do
      let buf ← blockAddr img (dinode d)
        (if NDIRECT < numBlocks img d then indirectBlock img d else 0) k
      f u buf) s = .ok t) : ScanReadable img d := by
  have heach : ∀ k < numBlocks img d, (NDIRECT ≤ k →
      rsect (indirectBlock img d) + 4 * (k - NDIRECT) + 4 ≤ IMAGE_SIZE) ∧
        rsect (blockOf img d (.data k)) + 16 ≤ IMAGE_SIZE := by
    intro k hk
    obtain ⟨u, v, huv⟩ := foldlM_each h k (List.mem_range.mpr hk)
    obtain ⟨b, hb, hv⟩ := bind_eq_ok.mp huv
    obtain ⟨hread, rfl⟩ := (blockAddr_eq_ok hd fun hle =>
      if_pos (Nat.lt_of_le_of_lt hle hk)).mp hb
    exact ⟨hread, hf u _ v hv⟩
  refine ⟨fun b hb => ?_, fun k hk => (heach k hk).1⟩
  obtain ⟨k, hk, rfl⟩ := List.mem_map.mp hb
  exact block_of_first (heach k (List.mem_range.mp hk)).2

theorem scanReadable_of_check_dir_inode {d : ℕ} (hd : d < NINODES) {s t : Globals}
    (h : check_dir_inode img s d = .ok t) : ScanReadable img d := by
  simp only [check_dir_inode, readSize hd, indirectAddr_eq hd, ok_bind] at h
  obtain ⟨u, hu, -⟩ := bind_eq_ok.mp h
  exact scanReadable_of_loop hd (fun _ _ _ => check_dir_block_first) hu

theorem scanReadable_of_check_parent_dir {p c : ℕ} (hp : p < NINODES) {s t : Globals}
    (h : check_parent_dir img s p c = .ok t) (hd : inodeType img p = T_DIR) :
    ScanReadable img p := by
  simp only [check_parent_dir, readType hp, ok_bind, hd, if_true, readSize hp,
    indirectAddr_eq hp] at h
  obtain ⟨u, hu, -⟩ := bind_eq_ok.mp h
  refine scanReadable_of_loop hp (f := fun seen b => do
    let x ← seen_child img c 32 (rsect b)
    pure (seen || x)) (fun _ b v hv => ?_) hu
  obtain ⟨x, hx, -⟩ := bind_eq_ok.mp hv
  exact seen_child_first hx

/-! ## What one step leaves behind -/

theorem check_event_ok {s t : Globals} {v : Event} (h : check_event img s v = .ok t) :
    InUse img v.entry.inum ∧
      (v.isChildDir img = true → s.my_dir_parent_inode v.entry.inum = 0) ∧
      t = applyEvent img s v := by
  obtain ⟨u, hu, h⟩ := bind_eq_ok.mp h
  obtain ⟨w, hw, h⟩ := bind_eq_ok.mp h
  obtain ⟨_, hidx, h⟩ := bind_eq_ok.mp h
  obtain rfl := pure_eq_ok.mp h
  obtain ⟨hin, rfl⟩ := check_inode_alloced_eq_ok.mp ⟨hw, hidx⟩
  have hread : v.role = .parent → inodeType img v.entry.inum = T_DIR →
      ScanReadable img v.entry.inum := by
    intro hrole hd
    rw [eventRole, hrole] at hu
    exact scanReadable_of_check_parent_dir hin.1 hu hd
  obtain ⟨h0, rfl⟩ := (eventRole_eq_ok hin hread).mp hu
  exact ⟨hin, h0, rfl⟩

theorem foldlM_check_event_ok {vs : List Event} {s t : Globals}
    (h : vs.foldlM (check_event img) s = .ok t) :
    t = vs.foldl (applyEvent img) s ∧ ((∀ v ∈ vs, v.Marks) → Accepted img s vs) := by
  induction vs generalizing s with
  | nil =>
      refine ⟨(foldlM_nil_eq_ok.mp h).symm, fun _ => ⟨by simp, by simp, by simp⟩⟩
  | cons v vs ih =>
      obtain ⟨u, hu, ht⟩ := foldlM_cons_eq_ok.mp h
      obtain ⟨hin, h0, rfl⟩ := check_event_ok hu
      obtain ⟨rfl, hacc⟩ := ih ht
      refine ⟨rfl, fun hm => ?_⟩
      have hv : ∀ w ∈ [v], w.Marks := by simpa using hm v List.mem_cons_self
      rw [← List.singleton_append, accepted_append hv]
      exact ⟨accepted_singleton.mpr ⟨hin, h0⟩, hacc fun w hw => hm w (List.mem_cons_of_mem v hw)⟩

theorem check_dir_inode_ok {d : ℕ} (hd : d < NINODES) {s t : Globals}
    (h : check_dir_inode img s d = .ok t) :
    ((scanned img d).any Dirent.isDot = true ∧ (scanned img d).any Dirent.isDotDot = true) ∧
      (events d false false (scanned img d)).foldlM (check_event img) s = .ok t := by
  rw [check_dir_inode_eq hd (scanReadable_of_check_dir_inode hd h),
    foldlM_check_dir_entry_eq] at h
  obtain ⟨u, hu, h⟩ := bind_eq_ok.mp h
  obtain ⟨w, hw, hu⟩ := bind_eq_ok.mp hu
  obtain rfl := pure_eq_ok.mp hu
  rw [fail, throwIf_eq_ok, pure_eq_ok, Bool.not_eq_false, Bool.and_eq_true] at h
  obtain ⟨hdots, rfl⟩ := h
  exact ⟨by simpa using hdots, hw⟩

/-- One inode of the second pass: its blocks change the bitmap, its entries are events. -/
theorem check_inode_ok {i : ℕ} (hi : inodeType img i ≠ 0 → i < NINODES) {s t : Globals}
    (h : check_inode img s i = .ok t) : Dotted img i ∧
      ∃ f, (dirEvents img i).foldlM (check_event img) (s.setBitmap f) = .ok t := by
  obtain ⟨type, htype, h⟩ := bind_eq_ok.mp h
  obtain ⟨-, rfl⟩ := readU16_eq_ok.mp htype
  have hsame : ∀ u : Globals, u = u.setBitmap u.my_bitmap := fun _ => rfl
  have hnone : inodeType img i ≠ T_DIR → ∀ f, t = s.setBitmap f → Dotted img i ∧
      ∃ f, (dirEvents img i).foldlM (check_event img) (s.setBitmap f) = .ok t := by
    rintro hd f rfl
    exact ⟨fun hd' => absurd hd' hd, f, by rw [dirEvents, if_neg hd]; rfl⟩
  split at h
  · next h0 =>
    have h0' : inodeType img i = 0 := h0
    obtain rfl := pure_eq_ok.mp h
    exact hnone (by rw [h0']; decide) _ (hsame t)
  · next h0 =>
    have hlt := hi h0
    split at h
    · next hf =>
      have hf' : inodeType img i = T_DEV ∨ inodeType img i = T_FILE := hf
      obtain ⟨-, -, -, rfl⟩ := (check_inode_addrs_eq_ok hlt).mp h
      exact hnone (by rcases hf' with hf' | hf' <;> rw [hf'] <;> decide) _ rfl
    · split at h
      · next hd =>
        have hd' : inodeType img i = T_DIR := hd
        obtain ⟨u, hu, h⟩ := bind_eq_ok.mp h
        obtain ⟨-, -, -, rfl⟩ := (check_inode_addrs_eq_ok hlt).mp hu
        obtain ⟨hdots, hrun⟩ := check_dir_inode_ok hlt h
        exact ⟨fun _ => hdots, _, by rw [dirEvents, if_pos hd']; exact hrun⟩
      · cases h

theorem foldlM_check_inode_ok {l : List ℕ} (hl : ∀ i ∈ l, inodeType img i ≠ 0 → i < NINODES)
    {s t : Globals} (h : l.foldlM (check_inode img) s = .ok t) :
    (∀ i ∈ l, Dotted img i) ∧
      (∃ f, t = ((allEvents img l).foldl (applyEvent img) s).setBitmap f) ∧
      ((∀ v ∈ allEvents img l, v.Marks) → Accepted img s (allEvents img l)) := by
  induction l generalizing s with
  | nil =>
      obtain rfl := foldlM_nil_eq_ok.mp h
      exact ⟨by simp, ⟨s.my_bitmap, rfl⟩,
        fun _ => ⟨by simp [allEvents], by simp [allEvents], by simp [allEvents]⟩⟩
  | cons i l ih =>
      obtain ⟨u, hu, ht⟩ := foldlM_cons_eq_ok.mp h
      obtain ⟨hdot, f, hrun⟩ := check_inode_ok (hl i List.mem_cons_self) hu
      obtain ⟨rfl, hacc⟩ := foldlM_check_event_ok hrun
      obtain ⟨hdots, ⟨g, rfl⟩, hacc'⟩ := ih (fun j hj => hl j (List.mem_cons_of_mem i hj)) ht
      have hcons : allEvents img (i :: l) = dirEvents img i ++ allEvents img l := rfl
      refine ⟨List.forall_mem_cons.mpr ⟨hdot, hdots⟩, ⟨g, ?_⟩, fun hm => ?_⟩
      · rw [hcons, List.foldl_append, foldl_applyEvent_setBitmap, foldl_applyEvent_setBitmap]
        rfl
      · have hi : ∀ v ∈ dirEvents img i, v.Marks := fun v hv => hm v (List.mem_append_left _ hv)
        rw [hcons, accepted_append hi]
        refine ⟨(accepted_setBitmap f).mp (hacc hi), ?_⟩
        rw [foldl_applyEvent_setBitmap] at hacc'
        exact (accepted_setBitmap f).mp (hacc' fun v hv => hm v (List.mem_append_right _ hv))

theorem note_inode_ok {s t : Globals} {i : ℕ} (h : note_inode img s i = .ok t) :
    (inodeType img i ≠ 0 → i < NINODES) ∧ t = noteInode img s i := by
  have hlt : inodeType img i ≠ 0 → i < NINODES := by
    intro h0
    obtain ⟨type, htype, h⟩ := bind_eq_ok.mp h
    obtain ⟨-, rfl⟩ := readU16_eq_ok.mp htype
    rw [if_neg (show ¬ (u16 img (dinode i)).toNat = 0 from h0)] at h
    obtain ⟨_, hidx, -⟩ := bind_eq_ok.mp h
    by_contra hge
    simp [index, hge] at hidx
  refine ⟨hlt, ?_⟩
  by_cases h0 : inodeType img i = 0
  · obtain ⟨type, htype, h⟩ := bind_eq_ok.mp h
    obtain ⟨-, rfl⟩ := readU16_eq_ok.mp htype
    rw [if_pos (show (u16 img (dinode i)).toNat = 0 from h0)] at h
    rw [noteInode, if_pos h0, pure_eq_ok.mp h]
  · exact (Except.ok.inj ((note_inode_eq (hlt h0) s).symm.trans h)).symm

theorem foldlM_note_inode_ok {l : List ℕ} {s t : Globals}
    (h : l.foldlM (note_inode img) s = .ok t) :
    (∀ i ∈ l, inodeType img i ≠ 0 → i < NINODES) ∧ t = l.foldl (noteInode img) s := by
  induction l generalizing s with
  | nil => exact ⟨by simp, (foldlM_nil_eq_ok.mp h).symm⟩
  | cons i l ih =>
      obtain ⟨u, hu, ht⟩ := foldlM_cons_eq_ok.mp h
      obtain ⟨hi, rfl⟩ := note_inode_ok hu
      obtain ⟨hl, rfl⟩ := ih ht
      exact ⟨List.forall_mem_cons.mpr ⟨hi, hl⟩, rfl⟩

/-- The globals that `main` starts from. -/
theorem copy_bitmap_ok {n : ℕ} {s : Globals} (h : copy_bitmap img n = .ok s) :
    ∃ f, s = { my_bitmap := f } := by
  simp only [copy_bitmap] at h
  split at h
  · exact ⟨_, (Except.ok.inj h).symm⟩
  · cases h

theorem allEvents_map_mem {l : List ℕ} {d : ℕ} (hd : d ∈ dirsIn img l) {e : Dirent}
    (he : e ∈ scanned img d) : ∃ v ∈ allEvents img l, v.entry = e := by
  have : e ∈ (allEvents img l).map Event.entry := by
    rw [allEvents_map_entry]
    exact List.mem_flatMap.mpr ⟨d, hd, he⟩
  exact List.mem_map.mp this

theorem inum_ne_zero_of_scanned {d : ℕ} {e : Dirent} (h : e ∈ scanned img d) : e.inum ≠ 0 := by
  obtain ⟨b, -, he⟩ := List.mem_flatMap.mp h
  simpa using List.mem_takeWhile_imp he

/-- What the second pass leaves behind, in terms of its events. -/
theorem main_ok_events (h : main img = .ok ()) :
    (∀ i, Live img i → i < NINODES) ∧ (∀ d, LiveDir img d → Dotted img d) ∧ ∃ s : Globals,
      (∀ i, s.my_inode_alloced i = true ↔ Live img i) ∧
      (∀ i, Live img i → inodeType img i = T_FILE →
        s.my_inode i = BitVec.ofNat 8 (inodeNlink img i)) ∧
      let vs := allEvents img (List.range (ninodes img))
      ((∀ v ∈ vs, v.Marks) → Accepted img s vs) ∧ vs.any Event.isRoot = true ∧
      (vs.any fun v => v.isMismatch img) = false ∧
      (∀ i < NINODES, (vs.foldl (applyEvent img) s).my_inode_alloced i = false) ∧
      ∀ i < NINODES, (vs.foldl (applyEvent img) s).my_inode i = 0 := by
  obtain ⟨s₀, h₀, h⟩ := bind_eq_ok.mp h
  obtain ⟨s₁, h₁, h⟩ := bind_eq_ok.mp h
  obtain ⟨s₂, h₂, h⟩ := bind_eq_ok.mp h
  obtain ⟨f₀, rfl⟩ := copy_bitmap_ok h₀
  obtain ⟨hlt, rfl⟩ := foldlM_note_inode_ok h₁
  obtain ⟨hb, hp, hroot, hmis, halloc, hlink⟩ :=
    foldl_noteInode img (List.range (ninodes img)) { my_bitmap := f₀ }
  obtain ⟨hdots, ⟨f, rfl⟩, hacc⟩ := foldlM_check_inode_ok hlt h₂
  generalize (List.range (ninodes img)).foldl (noteInode img) { my_bitmap := f₀ } = s₁ at *
  have hlive : ∀ i, i ∈ List.range (ninodes img) ∧ inodeType img i ≠ 0 ↔ Live img i := by
    intro i
    rw [List.mem_range]
    rfl
  rw [fail, throwIf_eq_ok, fail, throwIf_eq_ok] at h
  obtain ⟨hsr, hsm, h⟩ := h
  obtain ⟨s₃, h₃, h⟩ := bind_eq_ok.mp h
  obtain ⟨-, rfl⟩ := (foldlM_check_balloced_eq_ok fun b hb => by
    have := List.mem_range.mp hb
    omega).mp h₃
  obtain ⟨-, hall, hzero⟩ := check_leftovers_eq_ok.mp h
  refine ⟨fun i hi => hlt i (List.mem_range.mpr hi.1) hi.2,
    fun d hd => hdots d (List.mem_range.mpr hd.1), s₁, fun i => ?_, fun i hi hf => ?_, hacc, ?_, ?_,
    hall, hzero⟩
  · rw [halloc, Bool.false_or, decide_eq_true_eq, hlive]
  · rw [hlink, if_pos ⟨List.mem_range.mpr hi.1, hf⟩]
  · have hseen := foldl_applyEvent_seen_root img (allEvents img (List.range (ninodes img))) s₁
    rw [hroot, Bool.false_or] at hseen
    exact hseen.symm.trans ((Bool.not_eq_false _).mp hsr)
  · have hseen := foldl_applyEvent_mismatch img (allEvents img (List.range (ninodes img))) s₁
    rw [hmis, Bool.false_or] at hseen
    exact hseen.symm.trans ((Bool.not_eq_true _).mp hsm)

theorem main_ok_passed (h : main img = .ok ()) : Passed img := by
  obtain ⟨hlt, hdots, s, halloc, hlink, hacc, hroot, hmis, hall, hzero⟩ := main_ok_events h
  have hdirs : ∀ d, (d ∈ List.range (ninodes img) ∧ inodeType img d = T_DIR) ↔ LiveDir img d := by
    intro d
    rw [List.mem_range]
    rfl
  have hnamed : ∀ i, Live img i → ∃ d, LiveDir img d ∧ ∃ e ∈ scanned img d, e.inum = i := by
    intro i hi
    obtain ⟨d, hd, he⟩ := (alloced_left _ s i).mp (hall i (hlt i hi)) ((halloc i).mpr hi)
    exact ⟨d, (hdirs d).mp hd, he⟩
  have hz : ¬ Live img 0 := by
    intro h0
    obtain ⟨d, -, e, he, hi⟩ := hnamed 0 h0
    exact inum_ne_zero_of_scanned he hi
  have hmarks : ∀ v ∈ allEvents img (List.range (ninodes img)), v.Marks := by
    intro v hv h0
    rw [allEvents_eq] at hv
    obtain ⟨d, hd, hv⟩ := List.mem_flatMap.mp hv
    have hlive : LiveDir img d := mem_liveDirs.mp hd
    have hd200 : d < 200 := hlt d hlive.live
    rw [events_dir hv] at h0
    have h0' := congrArg BitVec.toNat h0
    simp only [BitVec.toNat_ofNat] at h0'
    rw [Nat.mod_eq_of_lt (by omega)] at h0'
    obtain rfl : d = 0 := by simpa using h0'
    exact hz hlive.live
  have hacc := hacc hmarks
  refine ⟨hlt, hz, ?_, ?_, ?_, ?_, ?_, hnamed, ?_⟩
  · intro d hd e he
    obtain ⟨v, hv, rfl⟩ := allEvents_map_mem (mem_liveDirs.mpr hd) he
    exact hacc.inUse v hv
  · intro d hd
    obtain ⟨h1, h2⟩ := hdots d hd hd.2
    exact ⟨List.any_eq_true.mp h1, List.any_eq_true.mp h2⟩
  · obtain ⟨v, hv, hr⟩ := List.any_eq_true.mp hroot
    simp only [Event.isRoot, Bool.and_eq_true, decide_eq_true_eq] at hr
    obtain ⟨d, e, hd, he, rfl⟩ := mem_allEvents_parent.mp ⟨hv, hr.1.1⟩
    obtain rfl : d = 1 := hr.2
    exact ⟨e, (hdirs 1).mp hd, he, hr.1.2⟩
  · intro d hd hd1 e he
    obtain ⟨hv, -⟩ := mem_allEvents_parent.mpr ⟨d, e, (hdirs d).mpr hd, he, rfl⟩
    have := List.any_eq_false.mp hmis _ hv
    simpa [Event.isMismatch, hd1] using this
  · rw [liveDirs, ← children_allEvents]
    exact hacc.once
  · intro i hi hf
    exact (nlink_left _ s hf (hlink i hi hf)).mp (hzero i (hlt i hi))

end

end IntroToOS.Fscheck

import IntroToOS.Fscheck.Visits

/-! # Accesses outside the image and the arrays

The program stays inside when every access that it reaches does (`main_in_bounds_iff`). Before the
second pass no check can stop it, so the size of the inode table has to be right. In the second
pass a visit is reached when those before it have passed, and whether a visit passes depends on the
image and on the addresses and names that came before it (`Passes`).
-/

namespace IntroToOS.Fscheck
open Lib
set_option autoImplicit false

/-- The copy that `main` makes of the bitmap, at the place that the superblock implies. -/
def copied (img : Image) : ℕ → Byte := fun i => img (rsect (BBLOCK 1 (ninodes img)) + i)

/-- An entry is checked without an access outside: the inode it names is in the image, in the
arrays unless it is free, and as a parent it can be scanned. -/
structure EntryInBounds (img : Image) (v : Event) : Prop where
  inode : dinode v.entry.inum + 64 ≤ IMAGE_SIZE ∧
    (inodeType img v.entry.inum ≠ 0 → v.entry.inum < NINODES)
  parent : v.role = .parent → inodeType img v.entry.inum = T_DIR → ScanReadable img v.entry.inum

def InBounds (img : Image) : Visit → Prop
  | .addr i p => WordInImage img i p
  | .block d k => WordInImage img d (.data k) ∧
      rsect (blockOf img d (.data k)) + 16 * 32 ≤ IMAGE_SIZE
  | .entry v => EntryInBounds img v
  | .dots _ => True
  | .badType _ => True

/-- The block that a visit takes out of the working bitmap. -/
def claimedBy (img : Image) : Visit → List ℕ
  | .addr i p => [blockOf img i p]
  | _ => []

/-- The directory to which a visit gives a parent; the number 0 is no mark. -/
def markedBy (img : Image) : Visit → List ℕ
  | .entry v => if v.isChildDir img ∧ BitVec.ofNat 8 v.dir ≠ 0 then [v.entry.inum] else []
  | _ => []

/-- The check made at a visit succeeds after the visits `seen`. -/
def Passes (img : Image) (seen : List Visit) : Visit → Prop
  | .addr i p =>
    (29 ≤ blockOf img i p ∧ blockOf img i p ≤ 1024) ∧ bit (bitmap img) (blockOf img i p) = true ∧
      bit (copied img) (blockOf img i p) = true ∧ blockOf img i p ∉ seen.flatMap (claimedBy img)
  | .block _ _ => True
  | .entry v => InUse img v.entry.inum ∧
      (v.isChildDir img = true → v.entry.inum ∉ seen.flatMap (markedBy img))
  | .dots d => Dotted img d
  | .badType _ => False

/-- The visits of the second pass. -/
def allVisits (img : Image) : List Visit := (List.range (ninodes img)).flatMap (inodeVisits img)

/-- The accesses that the program reaches are inside. -/
structure Harmless (img : Image) : Prop where
  bitmap : rsect (BBLOCK 1 (ninodes img)) + 512 ≤ IMAGE_SIZE
  table : ∀ i < ninodes img, dinode i + 64 ≤ IMAGE_SIZE ∧ (inodeType img i ≠ 0 → i < NINODES)
  visits : Guarded (InBounds img) (Passes img) [] (allVisits img)

section
variable {img : Image}

/-! ## Reads and indices -/

theorem fail_ne {α : Type} (m : String) : (fail m : Check α) ≠ .error .outOfBounds := by
  intro h
  cases h

theorem ne_error_of_ok {α : Type} {x : Check α} {a : α} (h : x = .ok a) :
    x ≠ .error .outOfBounds := by
  rw [h]
  exact nofun

theorem readDirent_ne {off : ℕ} : readDirent img off ≠ .error .outOfBounds ↔
    off + 16 ≤ IMAGE_SIZE := by
  unfold readDirent
  by_cases h : off + 16 ≤ IMAGE_SIZE <;> simp [h]

theorem readType_eq {i : ℕ} (hi : dinode i + 64 ≤ IMAGE_SIZE) :
    readU16 img (dinode i) = .ok (inodeType img i) :=
  readU16_eq_ok.mpr ⟨by omega, rfl⟩

/-- An inode is in the image as a whole or not at all. -/
theorem readType_out {i : ℕ} (hi : ¬ dinode i + 64 ≤ IMAGE_SIZE) :
    readU16 img (dinode i) = .error .outOfBounds := by
  have hi' : ¬ 1024 + 64 * i + 64 ≤ 524288 := hi
  exact if_neg (show ¬ 1024 + 64 * i + 2 ≤ 524288 by omega)

/-- Reads stop at an access outside or not at all. -/
abbrev Reads {α : Type} (x : Check α) : Prop := Ends x (fun _ => True) (· = .outOfBounds)

theorem reads_ite {α : Type} {p : Prop} [Decidable p] {x : α} :
    Reads (if p then .ok x else .error .outOfBounds) := by
  split <;> simp [Ends]

theorem readU32_reads (off : ℕ) : Reads (readU32 img off) := reads_ite

theorem readU16_reads (off : ℕ) : Reads (readU16 img off) := reads_ite

theorem readDirent_reads (off : ℕ) : Reads (readDirent img off) := reads_ite

theorem blockAddr_reads (dip ind k : ℕ) : Reads (blockAddr img dip ind k) := by
  unfold blockAddr
  split
  · exact readU32_reads _
  · exact readU32_reads _

theorem reads_foldlM {σ α : Type} {f : σ → α → Check σ} (hf : ∀ s a, Reads (f s a))
    (l : List α) (s : σ) : Reads (l.foldlM f s) :=
  Ends.foldlM (P := fun _ _ => True) trivial fun a _ s _ => hf s a

theorem reads_ne_iff {α : Type} {x : Check α} (hx : Reads x) :
    x ≠ .error .outOfBounds ↔ ∃ a, x = .ok a := by
  cases x with
  | ok a => exact ⟨fun _ => ⟨a, rfl⟩, fun _ => nofun⟩
  | error e =>
      obtain rfl : e = .outOfBounds := hx
      exact ⟨fun h => absurd rfl h, fun ⟨a, ha⟩ => nomatch ha⟩

theorem addrAt_ne {i : ℕ} (hi : i < NINODES) {p : Position}
    (hp : p ∈ positions (numBlocks img i)) :
    addrAt img i p ≠ .error .outOfBounds ↔ WordInImage img i p := by
  have hreads : Reads (addrAt img i p) := by
    cases p with
    | indirect => exact readU32_reads _
    | data k => exact blockAddr_reads _ _ _
  rw [reads_ne_iff hreads]
  simp only [addrAt_eq_ok hi hp, exists_and_left, exists_eq, and_true]

/-! ## The addresses -/

theorem check_balloced_ne {s : Globals} {b : ℕ} (hb : b < 4096) :
    check_balloced img s b ≠ .error .outOfBounds := by
  have hsect : rsect (BBLOCK b NINODES) = rsect 28 := by
    have : b / (BSIZE * 8) = 0 := Nat.div_eq_of_lt hb
    rw [BBLOCK, this]
    rfl
  have hoff : b / 8 < 512 := by omega
  have hread : readByte img (rsect (BBLOCK b NINODES) + b / 8) = .ok (bitmap img (b / 8)) := by
    rw [hsect]
    exact if_pos (show 14336 + b / 8 < 524288 by omega)
  have hidx : index (b / 8) 512 = .ok () := if_pos hoff
  simp only [check_balloced, hread, hidx, ok_bind]
  split
  · exact fail_ne _
  · split
    · exact fail_ne _
    · exact ne_error_of_ok rfl

theorem check_addr_ne (s : Globals) (a : ℕ) : check_addr img s a ≠ .error .outOfBounds := by
  unfold check_addr
  split
  · exact fail_ne _
  · exact check_balloced_ne (by omega)

/-! ## The entries -/

theorem seen_child_reads (c j off : ℕ) : Reads (seen_child img c j off) := by
  induction j generalizing off with
  | zero => exact trivial
  | succ j ih =>
      unfold seen_child
      refine (readDirent_reads off).bind fun e _ => ?_
      split
      · exact trivial
      · split
        · exact ih _
        · split
          · exact ih _
          · split
            · exact trivial
            · exact ih _

/-- The search for a child makes no check of its own. -/
theorem check_parent_dir_reads (s : Globals) (p c : ℕ) : Reads (check_parent_dir img s p c) := by
  have hend : ∀ seen : Bool, Reads (if seen = false ∧ c ≠ 1 then
      pure { s with parent_mismatch_seen := true } else pure s) := by
    intro seen
    split <;> exact trivial
  simp only [check_parent_dir, pure_bind]
  refine (readU16_reads _).bind fun type _ => ?_
  split
  · refine (readU32_reads _).bind fun size _ => ?_
    refine Ends.bind (Q := fun _ => True) ?_ fun ind _ => ?_
    · unfold indirectAddr
      split
      · exact readU32_reads _
      · exact trivial
    · refine (reads_foldlM (fun u k => ?_) _ _).bind fun seen _ => hend seen
      refine (blockAddr_reads _ _ _).bind fun b _ => ?_
      exact (seen_child_reads _ _ _).bind fun x _ => trivial
  · simpa using hend false

/-- The second part of an entry's check, which the three roles share. -/
theorem alloced_ne {s : Globals} {i : ℕ} {f : Globals → Globals} :
    (do let s ← check_inode_alloced img s i
        index i NINODES
        pure (f s) : Check Globals) ≠ .error .outOfBounds ↔
      dinode i + 64 ≤ IMAGE_SIZE ∧ (inodeType img i ≠ 0 → i < NINODES) := by
  by_cases hin : dinode i + 64 ≤ IMAGE_SIZE
  · have htype : readU16 img (dinode i) = _ := readType_eq hin
    rw [check_inode_alloced, htype, ok_bind]
    simp only [hin, true_and]
    by_cases h0 : inodeType img i = 0
    · simp [h0, fail, bind, Except.bind]
    · by_cases hi : i < NINODES
      · have hidx : index i NINODES = .ok () := if_pos hi
        simp only [h0, hi, hidx, ok_bind, if_false, implies_true, iff_true]
        split <;> exact ne_error_of_ok rfl
      · have hidx : index i NINODES = .error .outOfBounds := if_neg hi
        simp only [h0, hi, hidx, if_false]
        split <;> simp [bind, Except.bind, pure, Except.pure, h0]
  · rw [check_inode_alloced, readType_out hin]
    simp [hin, bind, Except.bind]

/-- A role that is stopped by a check names an inode of the image and the arrays. -/
theorem eventRole_error {s : Globals} {v : Event} {e : Stop} (h : eventRole img s v = .error e)
    (he : e ≠ .outOfBounds) : dinode v.entry.inum + 64 ≤ IMAGE_SIZE ∧
      (inodeType img v.entry.inum ≠ 0 → v.entry.inum < NINODES) := by
  unfold eventRole at h
  split at h
  · cases h
  · exact absurd ((ends_iff.mp (check_parent_dir_reads _ _ _)).2 e h) he
  · by_cases hin : dinode v.entry.inum + 64 ≤ IMAGE_SIZE
    · rw [check_child_dir, readType_eq hin, ok_bind] at h
      refine ⟨hin, fun _ => ?_⟩
      split at h
      · by_contra hi
        have hidx : index v.entry.inum NINODES = .error .outOfBounds := if_neg hi
        rw [hidx] at h
        exact he (Except.error.inj h).symm
      · cases h
    · rw [check_child_dir, readType_out hin] at h
      exact absurd (Except.error.inj h).symm he

/-- Inside the image and the arrays only the scan of a parent can leave the image. -/
theorem eventRole_ne {s : Globals} {v : Event}
    (h : dinode v.entry.inum + 64 ≤ IMAGE_SIZE ∧
      (inodeType img v.entry.inum ≠ 0 → v.entry.inum < NINODES)) :
    eventRole img s v ≠ .error .outOfBounds ↔
      (v.role = .parent → inodeType img v.entry.inum = T_DIR → ScanReadable img v.entry.inum) := by
  obtain ⟨hin, hi⟩ := h
  have htype : readU16 img (dinode v.entry.inum) = _ := readType_eq hin
  unfold eventRole
  cases v.role with
  | self => exact iff_of_true (ne_error_of_ok rfl) fun h => by cases h
  | parent =>
      rw [reads_ne_iff (check_parent_dir_reads _ _ _)]
      constructor
      · rintro ⟨t, ht⟩ - hd
        exact scanReadable_of_check_parent_dir (hi (by rw [hd]; decide)) ht hd
      · intro hr
        by_cases hd : inodeType img v.entry.inum = T_DIR
        · exact ⟨_, check_parent_dir_eq (hi (by rw [hd]; decide)) (hr rfl) _ _⟩
        · simp only [check_parent_dir, htype, ok_bind, hd, if_false, pure_bind]
          split <;> exact ⟨_, rfl⟩
  | child =>
      refine iff_of_true ?_ fun h => by cases h
      simp only [check_child_dir, htype, ok_bind]
      split
      · next hd =>
        have hidx : index v.entry.inum NINODES = .ok () := if_pos (hi (by rw [hd]; decide))
        rw [hidx, ok_bind]
        split
        · exact ne_error_of_ok rfl
        · exact fail_ne _
      · exact ne_error_of_ok rfl

theorem check_event_ne {s : Globals} {v : Event} :
    check_event img s v ≠ .error .outOfBounds ↔ EntryInBounds img v := by
  unfold check_event
  rw [bind_ne_error]
  constructor
  · rintro ⟨hrole, hrest⟩
    have hin : dinode v.entry.inum + 64 ≤ IMAGE_SIZE ∧
        (inodeType img v.entry.inum ≠ 0 → v.entry.inum < NINODES) := by
      cases hu : eventRole img s v with
      | ok u => exact alloced_ne.mp (hrest u hu)
      | error e =>
          rw [hu] at hrole
          exact eventRole_error hu fun he => hrole (by rw [he])
    exact ⟨hin, (eventRole_ne hin).mp hrole⟩
  · rintro ⟨hin, hparent⟩
    exact ⟨(eventRole_ne hin).mpr hparent, fun u _ => alloced_ne.mpr hin⟩

/-! ## One visit -/

/-- The inode of a visit is in the table and the position in its size. -/
def Valid (img : Image) : Visit → Prop
  | .addr i p => i < NINODES ∧ p ∈ positions (numBlocks img i)
  | .block d k => d < NINODES ∧ k < numBlocks img d
  | _ => True

/-- The globals after the visits `seen`. -/
structure After (img : Image) (seen : List Visit) (s : Globals) : Prop where
  bitmap : ∀ a < 4096, bit s.my_bitmap a =
    (bit (copied img) a && decide (a ∉ seen.flatMap (claimedBy img)))
  parent : ∀ c, s.my_dir_parent_inode c = 0 ↔ c ∉ seen.flatMap (markedBy img)

theorem visit_ne {v : Visit} (hv : Valid img v) (s : Globals) :
    visit img s v ≠ .error .outOfBounds ↔ InBounds img v := by
  cases v with
  | addr i p =>
      rw [visit, bind_ne_error, addrAt_ne hv.1 hv.2]
      exact and_iff_left fun a _ => check_addr_ne s a
  | block d k =>
      have hp : Position.data k ∈ positions (numBlocks img d) := mem_positions.mpr hv.2
      rw [visit, bind_ne_error, addrAt_ne hv.1 hp, InBounds]
      refine and_congr_right fun hword => ?_
      have ha := (addrAt_eq_ok hv.1 hp).mpr ⟨hword, rfl⟩
      simp only [ha, Except.ok.injEq, forall_eq', bind_ne_error, readDirent_ne]
      exact ⟨fun h => block_of_first h.1, fun h => ⟨by omega, fun _ _ => ne_error_of_ok rfl⟩⟩
  | entry v => exact check_event_ne
  | dots d =>
      rw [visit, InBounds, iff_true]
      split
      · exact ne_error_of_ok rfl
      · exact fail_ne _
  | badType i => exact iff_of_true (fail_ne _) trivial

theorem check_addr_ok_iff {seen : List Visit} {s : Globals} (hs : After img seen s) {i : ℕ}
    {p : Position} : (∃ t, check_addr img s (blockOf img i p) = .ok t) ↔
      Passes img seen (.addr i p) := by
  simp only [check_addr_eq_ok, Passes, exists_and_left]
  refine and_congr_right fun hr => ?_
  have hlt : blockOf img i p < 4096 := by omega
  simp only [check_balloced_eq_ok hlt, exists_and_left, exists_eq, and_true, hs.bitmap _ hlt,
    Bool.and_eq_true, decide_eq_true_eq]

theorem visit_ok_iff {v : Visit} (hv : Valid img v) {seen : List Visit} {s : Globals}
    (hs : After img seen s) (hin : InBounds img v) :
    (∃ t, visit img s v = .ok t) ↔ Passes img seen v := by
  cases v with
  | addr i p =>
      rw [visit, (addrAt_eq_ok hv.1 hv.2).mpr ⟨hin, rfl⟩, ok_bind]
      exact check_addr_ok_iff hs
  | block d k =>
      have hp : Position.data k ∈ positions (numBlocks img d) := mem_positions.mpr hv.2
      refine iff_of_true ⟨s, ?_⟩ trivial
      rw [visit, (addrAt_eq_ok hv.1 hp).mpr ⟨hin.1, rfl⟩, ok_bind,
        readDirent_eq img (Nat.le_trans (by omega) hin.2)]
      rfl
  | entry v =>
      simp only [visit, Passes, check_event_eq_ok fun _ => hin.parent, exists_and_left, exists_eq,
        and_true, hs.parent]
  | dots d =>
      rw [visit, Passes]
      by_cases h : Dotted img d <;> simp [h, fail, pure, Except.pure]
  | badType i =>
      refine iff_of_false ?_ id
      rintro ⟨t, ⟨⟩⟩

/-- An entry's visit sets a parent where there was none, or sets none. -/
theorem applyEvent_parent {s : Globals} {v : Event}
    (h0 : v.isChildDir img = true → s.my_dir_parent_inode v.entry.inum = 0) (c : ℕ) :
    (applyEvent img s v).my_dir_parent_inode c = 0 ↔
      s.my_dir_parent_inode c = 0 ∧ c ∉ markedBy img (.entry v) := by
  unfold applyEvent markedBy
  by_cases hc : v.isChildDir img = true
  · by_cases hx : c = v.entry.inum
    · subst hx
      by_cases hm : BitVec.ofNat 8 v.dir = 0 <;> simp [hc, hm, h0 hc]
    · by_cases hm : BitVec.ofNat 8 v.dir = 0 <;> simp [hc, hm, hx]
  · simp [hc]

theorem visit_after {v : Visit} (hv : Valid img v) {seen : List Visit} {s t : Globals}
    (hs : After img seen s) (h : visit img s v = .ok t) : After img (seen ++ [v]) t := by
  have hsame : claimedBy img v = [] → markedBy img v = [] → After img (seen ++ [v]) s := by
    intro hc hm
    refine ⟨?_, ?_⟩
    · simpa [List.flatMap_append, hc] using hs.bitmap
    · simpa [List.flatMap_append, hm] using hs.parent
  cases v with
  | addr i p =>
      obtain ⟨a, ha, h⟩ := bind_eq_ok.mp h
      obtain ⟨-, rfl⟩ := (addrAt_eq_ok hv.1 hv.2).mp ha
      obtain ⟨hr, h⟩ := check_addr_eq_ok.mp h
      obtain ⟨-, rfl⟩ := (check_balloced_eq_ok (by omega)).mp h
      refine ⟨fun a ha => ?_, fun c => ?_⟩
      · rw [bit_clearBit, hs.bitmap a ha]
        have hmem : a ∉ (seen ++ [Visit.addr i p]).flatMap (claimedBy img) ↔
            a ∉ seen.flatMap (claimedBy img) ∧ a ≠ blockOf img i p := by
          rw [List.flatMap_append, List.mem_append, not_or, List.flatMap_singleton, claimedBy,
            List.mem_singleton]
        rw [Bool.and_assoc, ← Bool.decide_and, decide_eq_decide.mpr hmem]
      · simpa [List.flatMap_append, markedBy] using hs.parent c
  | block d k =>
      obtain ⟨a, -, h⟩ := bind_eq_ok.mp h
      obtain ⟨e, -, h⟩ := bind_eq_ok.mp h
      exact pure_eq_ok.mp h ▸ hsame rfl rfl
  | entry v =>
      obtain ⟨-, h0, rfl⟩ := check_event_ok h
      refine ⟨fun a ha => ?_, fun c => ?_⟩
      · have hbit : bit (applyEvent img s v).my_bitmap a = bit s.my_bitmap a := rfl
        simpa [List.flatMap_append, claimedBy, hbit] using hs.bitmap a ha
      · rw [applyEvent_parent h0, hs.parent, List.flatMap_append, List.mem_append, not_or,
          List.flatMap_singleton]
  | dots d =>
      rw [visit] at h
      split at h
      · exact pure_eq_ok.mp h ▸ hsame rfl rfl
      · cases h
  | badType i => cases h

/-! ## The whole program -/

theorem valid_blockVisits {d : ℕ} (hd : d < NINODES) {ks : List ℕ}
    (hks : ∀ k ∈ ks, k < numBlocks img d) (self parent : Bool) :
    ∀ v ∈ blockVisits img d self parent ks, Valid img v := by
  induction ks generalizing self parent with
  | nil => simp [blockVisits]
  | cons k ks ih =>
      intro v hv
      rw [blockVisits, List.mem_cons, List.mem_append] at hv
      rcases hv with rfl | hv | hv
      · exact ⟨hd, hks k List.mem_cons_self⟩
      · obtain ⟨w, -, rfl⟩ := List.mem_map.mp hv
        exact trivial
      · exact ih (fun j hj => hks j (List.mem_cons_of_mem k hj)) _ _ v hv

theorem valid_of_mem {i : ℕ} (hi : inodeType img i ≠ 0 → i < NINODES) :
    ∀ v ∈ inodeVisits img i, Valid img v := by
  have haddr : i < NINODES → ∀ v ∈ addrVisits img i, Valid img v := by
    intro hlt v hv
    obtain ⟨p, hp, rfl⟩ := List.mem_map.mp hv
    exact ⟨hlt, hp⟩
  intro v hv
  unfold inodeVisits at hv
  split at hv
  · cases hv
  · next h0 =>
    have hlt := hi h0
    split at hv
    · exact haddr hlt v hv
    · split at hv
      · rw [dirVisits, List.mem_append, List.mem_append] at hv
        rcases hv with hv | hv | hv
        · exact haddr hlt v hv
        · exact valid_blockVisits hlt (fun k hk => List.mem_range.mp hk) _ _ v hv
        · obtain rfl := List.mem_singleton.mp hv
          exact trivial
      · obtain rfl := List.mem_singleton.mp hv
        exact trivial

variable (img) in
theorem copy_bitmap_cases (n : ℕ) :
    rsect (BBLOCK 1 n) + 512 ≤ IMAGE_SIZE ∧ (∃ s, copy_bitmap img n = .ok s) ∨
      ¬ rsect (BBLOCK 1 n) + 512 ≤ IMAGE_SIZE ∧ copy_bitmap img n = .error .outOfBounds := by
  simp only [copy_bitmap]
  split
  · next h => exact .inl ⟨h, _, rfl⟩
  · next h => exact .inr ⟨h, rfl⟩

theorem note_inode_reads (s : Globals) (i : ℕ) : Reads (note_inode img s i) := by
  unfold note_inode
  refine (readU16_reads _).bind fun type _ => ?_
  split
  · exact trivial
  · refine Ends.bind (Q := fun _ => True) reads_ite fun _ _ => ?_
    dsimp only
    split
    · exact (readU16_reads _).bind fun nlink _ => trivial
    · exact trivial

theorem note_inode_ne {s : Globals} {i : ℕ} : note_inode img s i ≠ .error .outOfBounds ↔
    dinode i + 64 ≤ IMAGE_SIZE ∧ (inodeType img i ≠ 0 → i < NINODES) := by
  by_cases hin : dinode i + 64 ≤ IMAGE_SIZE
  · constructor
    · intro h
      obtain ⟨t, ht⟩ := (reads_ne_iff (note_inode_reads s i)).mp h
      exact ⟨hin, (note_inode_ok ht).1⟩
    · rintro ⟨-, hi⟩
      by_cases h0 : inodeType img i = 0
      · rw [note_inode, readType_eq hin, ok_bind, if_pos h0]
        exact ne_error_of_ok rfl
      · exact ne_error_of_ok (note_inode_eq (hi h0) s)
  · rw [note_inode, readType_out hin]
    exact iff_of_false (fun h => h rfl) fun h => hin h.1

/-- The notes of the first pass go through exactly when the table is right. -/
theorem foldlM_note_inode_ne {l : List ℕ} (s : Globals) :
    l.foldlM (note_inode img) s ≠ .error .outOfBounds ↔
      ∀ i ∈ l, dinode i + 64 ≤ IMAGE_SIZE ∧ (inodeType img i ≠ 0 → i < NINODES) := by
  induction l generalizing s with
  | nil => simp [pure, Except.pure]
  | cons i l ih =>
      rw [List.foldlM_cons, bind_ne_error, List.forall_mem_cons]
      constructor
      · rintro ⟨hi, hl⟩
        obtain ⟨t, ht⟩ := (reads_ne_iff (note_inode_reads s i)).mp hi
        exact ⟨note_inode_ne.mp hi, (ih t).mp (hl t ht)⟩
      · rintro ⟨hi, hl⟩
        exact ⟨note_inode_ne.mpr hi, fun t _ => (ih t).mpr hl⟩

theorem foldlM_check_balloced_ne {l : List ℕ} (hl : ∀ b ∈ l, b < 4096) (s : Globals) :
    l.foldlM (check_balloced img) s ≠ .error .outOfBounds := by
  induction l generalizing s with
  | nil => exact nofun
  | cons b l ih =>
      rw [List.foldlM_cons, bind_ne_error]
      exact ⟨check_balloced_ne (hl b List.mem_cons_self),
        fun t _ => ih (fun c hc => hl c (List.mem_cons_of_mem b hc)) t⟩

theorem check_leftovers_ne (s : Globals) : check_leftovers s ≠ .error .outOfBounds := by
  unfold check_leftovers
  split
  · exact fail_ne _
  · split
    · exact fail_ne _
    · split
      · exact fail_ne _
      · exact nofun

theorem foldlM_check_inode_ne (htable : ∀ i < ninodes img,
    dinode i + 64 ≤ IMAGE_SIZE ∧ (inodeType img i ≠ 0 → i < NINODES)) {s : Globals}
    (hs : After img [] s) :
    (List.range (ninodes img)).foldlM (check_inode img) s ≠ .error .outOfBounds ↔
      Guarded (InBounds img) (Passes img) [] (allVisits img) := by
  have hpass : (List.range (ninodes img)).foldlM (check_inode img) s =
      (allVisits img).foldlM (visit img) s := by
    rw [allVisits, foldlM_flatMap]
    refine foldlM_congr (fun i hi u => ?_) s
    obtain ⟨hin, hlt⟩ := htable i (List.mem_range.mp hi)
    exact check_inode_eq hin hlt u
  have hvalid : ∀ v ∈ allVisits img, Valid img v := by
    intro v hv
    obtain ⟨i, hi, hv⟩ := List.mem_flatMap.mp hv
    exact valid_of_mem (htable i (List.mem_range.mp hi)).2 v hv
  rw [hpass]
  exact foldlM_ne_error_iff (R := After img) (fun v hv s => visit_ne hv s)
    (fun v hv seen s hs hin => visit_ok_iff hv hs hin)
    (fun v hv seen s t hs h => visit_after hv hs h) hvalid hs

/-- The globals with which the second pass starts. -/
theorem after_notes {s : Globals} {l : List ℕ}
    (h : copy_bitmap img (ninodes img) = .ok s) : After img [] (l.foldl (noteInode img) s) := by
  obtain ⟨hb, hp, -⟩ := foldl_noteInode img l s
  simp only [copy_bitmap] at h
  split at h
  · cases h
    refine ⟨fun a ha => ?_, fun c => ?_⟩
    · have : a / 8 < 512 := by omega
      rw [hb]
      simp [bit, copied, this]
    · rw [hp]
      simp
  · cases h

/-- The program stays inside exactly when the accesses that it reaches do. -/
theorem main_in_bounds_iff (img : Image) : main img ≠ .error .outOfBounds ↔ Harmless img := by
  have hlast : ∀ s : Globals, (if s.seen_root = false then
      fail "ERROR: root directory does not exist.\n"
    else if s.parent_mismatch_seen = true then fail "ERROR: parent directory mismatch.\n"
    else do
      let s ← (List.range 29).foldlM (check_balloced img) s
      check_leftovers s) ≠ .error .outOfBounds := by
    intro s
    split
    · exact fail_ne _
    · split
      · exact fail_ne _
      · refine bind_ne_error.mpr ⟨foldlM_check_balloced_ne (fun b hb => ?_) s,
          fun t _ => check_leftovers_ne t⟩
        have := List.mem_range.mp hb
        omega
  have hrun : main img ≠ .error .outOfBounds ↔
      copy_bitmap img (ninodes img) ≠ .error .outOfBounds ∧
      ∀ s, copy_bitmap img (ninodes img) = .ok s →
        (List.range (ninodes img)).foldlM (note_inode img) s ≠ .error .outOfBounds ∧
        ∀ t, (List.range (ninodes img)).foldlM (note_inode img) s = .ok t →
          (List.range (ninodes img)).foldlM (check_inode img) t ≠ .error .outOfBounds := by
    unfold main
    simp only [bind_ne_error]
    constructor
    · rintro ⟨hcopy, hrest⟩
      exact ⟨hcopy, fun s hs => ⟨(hrest s hs).1, fun t ht => ((hrest s hs).2 t ht).1⟩⟩
    · rintro ⟨hcopy, hrest⟩
      exact ⟨hcopy, fun s hs => ⟨(hrest s hs).1, fun t ht =>
        ⟨(hrest s hs).2 t ht, fun u _ => hlast u⟩⟩⟩
  rw [hrun]
  rcases copy_bitmap_cases img (ninodes img) with ⟨hbit, s, hs⟩ | ⟨hbit, hs⟩
  · constructor
    · rintro ⟨-, hrest⟩
      obtain ⟨hnote, hpass⟩ := hrest s hs
      have htable := (foldlM_note_inode_ne s).mp hnote
      simp only [List.mem_range] at htable
      obtain ⟨t, ht⟩ := (reads_ne_iff (reads_foldlM note_inode_reads _ s)).mp hnote
      obtain rfl := (foldlM_note_inode_ok ht).2
      exact ⟨hbit, htable, (foldlM_check_inode_ne htable (after_notes hs)).mp (hpass _ ht)⟩
    · rintro ⟨-, htable, hvisits⟩
      refine ⟨ne_error_of_ok hs, fun s hs => ⟨?_, fun t ht => ?_⟩⟩
      · exact (foldlM_note_inode_ne s).mpr fun i hi => htable i (List.mem_range.mp hi)
      · obtain rfl := (foldlM_note_inode_ok ht).2
        exact (foldlM_check_inode_ne htable (after_notes hs)).mpr hvisits
  · exact iff_of_false (fun h => h.1 hs) fun h => hbit h.bitmap

end

/-- An empty disk whose superblock counts 8192 inodes. -/
def overlongImage : Image := fun off => bytes [(521, 32)] off

/-- The bitmap of so many inodes starts behind the image. -/
theorem overlongImage_stuck : main overlongImage = .error .outOfBounds := by
  decide +kernel

end IntroToOS.Fscheck

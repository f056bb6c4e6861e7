import IntroToOS.Fscheck.Links
import IntroToOS.Lib.Orbits

/-! # The directories of an accepted image

The checker looks at names only: at the `.` of a directory without the number in it, at the `..`
of a directory for one lookup in the directory it names, and at every other entry for a second
parent. Where it reads the place of a directory right it has therefore checked it (`Placed`), but
nothing it looks at keeps directories from lying on a cycle of `..` entries (`dir_tree_iff`).
-/

namespace IntroToOS.Fscheck
open Lib
set_option autoImplicit false

/-- The inode that the first entry of `es` with `p` names. -/
def lookup (es : List Dirent) (p : Dirent → Bool) : Option ℕ := (es.find? p).map Dirent.inum

/-- How many of the slots in `es` that are neither `.` nor `..` name `d`. -/
def plainly (d : ℕ) (es : List Dirent) : ℕ := es.countP fun e => e.isPlain && e.inum = d

/-- The directory that the `..` entry of `d` names. -/
def parentOf (img : Image) (d : ℕ) : ℕ := (lookup (entries img d) Dirent.isDotDot).getD 0

/-- With `slots p` for the entries of directory `p`, directory `d` is named once among the
directories, and by the one that its `..` entry names. -/
structure Placed (img : Image) (slots : ℕ → List Dirent) (d : ℕ) : Prop where
  once : ((liveDirs img).map fun p => plainly d (slots p)).sum = 1
  parent : ∃ p, lookup (slots d) Dirent.isDotDot = some p ∧ LiveDir img p ∧
    0 < plainly d (slots p)

/-- The directories are a tree with root 1. -/
structure DirTree (img : Image) : Prop where
  self : ∀ d, LiveDir img d → lookup (entries img d) Dirent.isDot = some d
  placed : ∀ d, LiveDir img d → d ≠ 1 → Placed img (entries img) d
  reach : ∀ d, LiveDir img d → ∃ k, (parentOf img)^[k] d = 1

/-- The scans read the place of `d` as its entries have it: the same `..`, an inode of the file
system, and in every directory as many names of `d`. -/
structure ReadRight (img : Image) (d : ℕ) : Prop where
  parent : lookup (scanned img d) Dirent.isDotDot = lookup (entries img d) Dirent.isDotDot
  range : parentOf img d < ninodes img
  names : ∀ p, LiveDir img p → plainly d (scanned img p) = plainly d (entries img p)

/-- What the checker does not look at: the number in `.`, the place of a directory that the scans
read wrong, and cycles of `..` entries that avoid the root. -/
structure NoStray (img : Image) : Prop where
  self : ∀ d, LiveDir img d → lookup (entries img d) Dirent.isDot = some d
  misread : ∀ d, LiveDir img d → d ≠ 1 → ¬ ReadRight img d → Placed img (entries img) d
  acyclic : ∀ d, LiveDir img d → ∀ k, 0 < k → (∀ j < k, (parentOf img)^[j] d ≠ 1) →
    (parentOf img)^[k] d ≠ d

section
variable {img : Image} {d : ℕ}

/-- Erasing the first entry with `q` keeps the number of entries that cannot have `q`. -/
theorem countP_eraseP {es : List Dirent} {p q : Dirent → Bool} (h : ∀ e, q e = true → p e = false) :
    (es.eraseP q).countP p = es.countP p := by
  induction es with
  | nil => rfl
  | cons e es ih =>
      by_cases hq : q e = true
      · rw [List.eraseP_cons_of_pos hq, List.countP_cons_of_neg (by simp [h e hq])]
      · rw [List.eraseP_cons_of_neg (by simpa using hq), List.countP_cons, List.countP_cons, ih]

theorem plainly_others (es : List Dirent) : plainly d (others es) = plainly d es := by
  rw [plainly, others, countP_eraseP, countP_eraseP, plainly]
  · intro e he
    simp [Dirent.isPlain, he]
  · intro e he
    simp [Dirent.isPlain, he]

theorem Passed.plainly_le_one (h : Passed img) (hd : LiveDir img d) :
    ((liveDirs img).map fun p => plainly d (scanned img p)).sum ≤ 1 := by
  have hcount := List.nodup_iff_count_le_one.mp h.once d
  rw [List.count_eq_countP, List.countP_map, List.countP_filter] at hcount
  refine Nat.le_trans ?_ hcount
  have hsum : ((liveDirs img).map fun p => plainly d (scanned img p)).sum =
      plainly d ((liveDirs img).flatMap fun p => others (scanned img p)) := by
    rw [plainly, List.countP_flatMap]
    congr 1
    refine List.map_congr_left fun p _ => ?_
    exact (plainly_others (scanned img p)).symm
  rw [hsum, plainly]
  refine List.countP_mono_left fun e _ he => ?_
  simp only [Bool.and_eq_true, decide_eq_true_eq] at he
  simp [he.2, hd.2]

theorem plainly_pos {es : List Dirent} :
    0 < plainly d es ↔ es.any (fun e => e.isPlain && e.inum = d) = true := by
  rw [plainly, List.countP_pos_iff, List.any_eq_true]

theorem le_sum_of_liveDir {p : ℕ} (hp : LiveDir img p) (f : ℕ → ℕ) :
    f p ≤ ((liveDirs img).map f).sum :=
  List.single_le_sum (fun _ _ => Nat.zero_le _) _ (List.mem_map.mpr ⟨p, mem_liveDirs.mpr hp, rfl⟩)

/-- Among the slots that the scans see, every directory whose `..` is in the file system is
placed. -/
theorem Passed.placed (h : Passed img) (hd : LiveDir img d) (hd1 : d ≠ 1) {p : ℕ}
    (hp : lookup (scanned img d) Dirent.isDotDot = some p) (hlt : p < ninodes img) :
    Placed img (scanned img) d := by
  obtain ⟨e, he, rfl⟩ := Option.map_eq_some_iff.mp hp
  have hnames := h.parent d hd hd1 e he
  rw [names, Bool.and_eq_true, decide_eq_true_eq] at hnames
  have hlive : LiveDir img e.inum := ⟨hlt, hnames.1⟩
  have hpos : 0 < plainly d (scanned img e.inum) := plainly_pos.mpr hnames.2
  refine ⟨?_, e.inum, hp, hlive, hpos⟩
  have hle := h.plainly_le_one hd
  have hge := le_sum_of_liveDir hlive fun p => plainly d (scanned img p)
  omega

theorem ReadRight.placed (hr : ReadRight img d) (h : Passed img) (hd : LiveDir img d)
    (hd1 : d ≠ 1) : Placed img (entries img) d := by
  obtain ⟨e, he, hdot⟩ := (h.dots d hd).2
  obtain ⟨e', he'⟩ := Option.isSome_iff_exists.mp (List.find?_isSome.mpr ⟨e, he, hdot⟩)
  have hscan : lookup (scanned img d) Dirent.isDotDot = some e'.inum := by
    rw [lookup, he']
    rfl
  have hentry : lookup (entries img d) Dirent.isDotDot = some e'.inum := hr.parent ▸ hscan
  have hlt : e'.inum < ninodes img := by
    have := hr.range
    rwa [parentOf, hentry] at this
  obtain ⟨honce, p, hp, hlive, hpos⟩ := h.placed hd hd1 hscan hlt
  refine ⟨?_, p, hr.parent ▸ hp, hlive, hr.names p hlive ▸ hpos⟩
  rw [← honce]
  congr 1
  exact List.map_congr_left fun q hq => (hr.names q (mem_liveDirs.mp hq)).symm

theorem Placed.liveDir_parentOf (h : Placed img (entries img) d) :
    LiveDir img (parentOf img d) := by
  obtain ⟨p, hp, hlive, -⟩ := h.parent
  rwa [parentOf, hp]

/-- Where every directory is placed, all reach the root exactly when no `..` entries lie on a
cycle. -/
theorem reach_iff (h : Passed img)
    (hplaced : ∀ d, LiveDir img d → d ≠ 1 → Placed img (entries img) d) :
    (∀ d, LiveDir img d → ∃ k, (parentOf img)^[k] d = 1) ↔
      ∀ d, LiveDir img d → ∀ k, 0 < k → (∀ j < k, (parentOf img)^[j] d ≠ 1) →
        (parentOf img)^[k] d ≠ d := by
  have hfin : {d | LiveDir img d}.Finite :=
    (Set.finite_lt_nat NINODES).subset fun d hd => h.live d hd.live
  exact reaches_iff_no_cycle hfin fun d hd hd1 => (hplaced d hd hd1).liveDir_parentOf

/-- The directories of an accepted image are a tree exactly when what the checker does not look at
is in order. -/
theorem dir_tree_iff (img : Image) (h : main img = .ok ()) : DirTree img ↔ NoStray img := by
  have hp := main_ok_passed h
  constructor
  · rintro ⟨hself, hplaced, hreach⟩
    exact ⟨hself, fun d hd hd1 _ => hplaced d hd hd1, (reach_iff hp hplaced).mp hreach⟩
  · rintro ⟨hself, hmis, hacyc⟩
    have hplaced : ∀ d, LiveDir img d → d ≠ 1 → Placed img (entries img) d := by
      intro d hd hd1
      by_cases hr : ReadRight img d
      · exact hr.placed hp hd hd1
      · exact hmis d hd hd1 hr
    exact ⟨hself, hplaced, (reach_iff hp hplaced).mpr hacyc⟩

end

/-! ## Three directories -/

/-- Directories 1, 2 and 3 with one name each: `up2` and `up3` are the numbers in the `..` of 2 and
3, and `name1` to `name3` those in the third slots, 0 for a free slot. -/
def threeDirs (up2 up3 name1 name2 name3 : Byte) : Image := fun off =>
  let i := off % BSIZE
  match off / BSIZE with
  | 1 => bytes [(1, 4), (4, 227), (5, 3), (8, 200)] i
  | 2 => bytes [(64, 1), (72, 48), (76, 29), (128, 1), (136, 48), (140, 30), (192, 1), (200, 48),
      (204, 31)] i
  | 28 => bif Nat.blt i 4 then 255 else 0
  | 29 => bytes [(0, 1), (2, 46), (16, 1), (18, 46), (19, 46), (32, name1), (34, 97)] i
  | 30 => bytes [(0, 2), (2, 46), (16, up2), (18, 46), (19, 46), (32, name2), (34, 97)] i
  | 31 => bytes [(0, 3), (2, 46), (16, up3), (18, 46), (19, 46), (32, name3), (34, 97)] i
  | _ => 0

/-- 3 lies in 2 and 2 lies in the root. -/
def nestedImage : Image := threeDirs 1 2 2 3 0

/-- 2 and 3 lie in each other. -/
def detachedImage : Image := threeDirs 3 2 0 3 2

theorem nestedImage_live {d : ℕ} (hd : LiveDir nestedImage d) : d = 1 ∨ d = 2 ∨ d = 3 := by
  have hall : ∀ d < 200, inodeType nestedImage d = T_DIR → d = 1 ∨ d = 2 ∨ d = 3 := by
    decide +kernel
  exact hall d hd.1 hd.2

theorem nestedImage_dirTree : DirTree nestedImage := by
  have hread : ∀ d, LiveDir nestedImage d → ReadRight nestedImage d := by
    intro d hd
    refine ⟨?_, ?_, fun p hp => ?_⟩
    · rcases nestedImage_live hd with rfl | rfl | rfl <;> decide +kernel
    · rcases nestedImage_live hd with rfl | rfl | rfl <;> decide +kernel
    · rcases nestedImage_live hd with rfl | rfl | rfl <;>
        rcases nestedImage_live hp with rfl | rfl | rfl <;> decide +kernel
  refine (dir_tree_iff nestedImage (by decide +kernel)).mpr ⟨?_, ?_, ?_⟩
  · intro d hd
    rcases nestedImage_live hd with rfl | rfl | rfl <;> decide +kernel
  · exact fun d hd _ hr => absurd (hread d hd) hr
  · intro d hd k hk
    refine no_cycle_of_reaches ⟨d - 1, ?_⟩ hk
    rcases nestedImage_live hd with rfl | rfl | rfl <;> decide +kernel

/-- No `..` leads from 2 or 3 to the root. -/
theorem detachedImage_accepted : main detachedImage = .ok () ∧ ¬ DirTree detachedImage := by
  refine ⟨by decide +kernel, fun h => ?_⟩
  have hup : parentOf detachedImage 2 = 3 ∧ parentOf detachedImage 3 = 2 := by decide +kernel
  have hcycle : ∀ k, (parentOf detachedImage)^[k] 2 = 2 ∨ (parentOf detachedImage)^[k] 2 = 3 := by
    intro k
    induction k with
    | zero => exact .inl rfl
    | succ k ih =>
        rw [Function.iterate_succ_apply']
        rcases ih with ih | ih
        · exact .inr (by rw [ih]; exact hup.1)
        · exact .inl (by rw [ih]; exact hup.2)
  obtain ⟨k, hk⟩ := h.reach 2 ⟨by decide +kernel, by decide +kernel⟩
  have := hcycle k
  omega

end IntroToOS.Fscheck

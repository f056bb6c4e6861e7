import IntroToOS.Fscheck.Scans
import IntroToOS.Fscheck.Consistent
import IntroToOS.Lib.Blocked
import Mathlib.Algebra.Order.BigOperators.Group.List
import Mathlib.Algebra.Order.Ring.Nat

/-! # Link counts of an accepted image

The scans count slots, and they see other slots than the entries of a directory: a used slot behind
a free one of its block is an entry that no scan sees (`hidden`), and a used slot behind the size
of the directory is seen and is no entry (`beyond`). The count itself is kept modulo 256. With
these three effects excluded, and only then, an accepted image has the link counts it should have
(`link_counts_iff`).
-/

namespace IntroToOS.Fscheck
open Lib
set_option autoImplicit false

/-- Slot `x` of the blocks of directory `d`. -/
def slotAt (img : Image) (d x : ℕ) : Dirent :=
  direntAt img (rsect (blockOf img d (.data (x / 32))) + 16 * (x % 32))

/-- Slot `x` is an entry of directory `d`. -/
def IsEntry (img : Image) (d x : ℕ) : Prop :=
  x < inodeSize img d / 16 ∧ (slotAt img d x).inum ≠ 0

/-- A scan sees slot `x`: no slot of its block is free up to it. -/
def Seen (img : Image) (d x : ℕ) : Prop :=
  ∀ y ≤ x, y / 32 = x / 32 → (slotAt img d y).inum ≠ 0

instance (img : Image) (d x : ℕ) : Decidable (IsEntry img d x) :=
  inferInstanceAs (Decidable (_ ∧ _))

instance (img : Image) (d x : ℕ) : Decidable (Seen img d x) :=
  inferInstanceAs (Decidable (∀ y ≤ x, _))

/-- The slots of `d` with `p`, in order. -/
def slotsWith (img : Image) (d : ℕ) (p : ℕ → Prop) [DecidablePred p] : List Dirent :=
  ((List.range (32 * numBlocks img d)).filter fun x => p x).map (slotAt img d)

/-- The entries of `d` that no scan sees. -/
def hidden (img : Image) (d : ℕ) : List Dirent :=
  slotsWith img d fun x => IsEntry img d x ∧ ¬ Seen img d x

/-- The slots behind the size of `d` that the scans see. -/
def beyond (img : Image) (d : ℕ) : List Dirent :=
  slotsWith img d fun x => Seen img d x ∧ ¬ IsEntry img d x

/-- How many slots in the lists of the in-use directories name `i`. -/
def linksIn (img : Image) (slots : ℕ → List Dirent) (i : ℕ) : ℕ :=
  ((liveDirs img).flatMap slots).countP fun e => e.inum = i

/-- Every in-use inode has a name, and the link count of a file is the number of its names. -/
structure LinksSound (img : Image) : Prop where
  named : ∀ i, Live img i → 0 < linksIn img (entries img) i
  nlink : ∀ i, Live img i → inodeType img i = T_FILE →
    inodeNlink img i = linksIn img (entries img) i

/-- No in-use inode is named behind the sizes of the directories only; behind free slots lie as
many names of a file as behind the sizes, modulo 256; and the high byte of a link count, which the
checker drops, is right. -/
structure NothingMissed (img : Image) : Prop where
  named : ∀ i, Live img i → linksIn img (beyond img) i = seenLinks img i →
    0 < linksIn img (hidden img) i
  low : ∀ i, Live img i → inodeType img i = T_FILE →
    linksIn img (hidden img) i % 256 = linksIn img (beyond img) i % 256
  high : ∀ i, Live img i → inodeType img i = T_FILE →
    inodeNlink img i / 256 = linksIn img (entries img) i / 256

section
variable {img : Image} {d : ℕ}

theorem slots_eq_map (img : Image) (j off : ℕ) :
    slots img j off = (List.range j).map fun k => direntAt img (off + 16 * k) := by
  induction j generalizing off with
  | zero => rfl
  | succ j ih =>
      rw [slots, ih, List.range_succ_eq_map, List.map_cons, List.map_map]
      congr 1
      refine List.map_congr_left fun k _ => ?_
      rw [Function.comp_apply, Nat.succ_eq_add_one, Nat.mul_add, Nat.add_assoc, Nat.add_comm (16 * k)]

/-- The slots of a directory, one block after the other. -/
theorem flatMap_slots (img : Image) (d : ℕ) :
    ((dirBlocks img d).flatMap fun b => slots img 32 (rsect b)) =
      (List.range (32 * numBlocks img d)).map (slotAt img d) := by
  rw [dirBlocks, List.flatMap_map]
  simp only [slots_eq_map]
  exact flatMap_range_map 32 (numBlocks img d) fun k j =>
    direntAt img (rsect (blockOf img d (.data k)) + 16 * j)

theorem scanned_eq (img : Image) (d : ℕ) : scanned img d = slotsWith img d (Seen img d) := by
  rw [scanned, dirBlocks, List.flatMap_map, slotsWith]
  simp only [visible, slots_eq_map]
  have := flatMap_takeWhile 32 (numBlocks img d) (fun k j =>
    direntAt img (rsect (blockOf img d (.data k)) + 16 * j)) fun e => e.inum ≠ 0
  simp only [decide_eq_true_eq] at this
  exact this

theorem entries_eq (img : Image) (d : ℕ) : entries img d = slotsWith img d (IsEntry img d) := by
  have hle : inodeSize img d / 16 ≤ 32 * numBlocks img d := by
    have : numBlocks img d = if inodeSize img d % 512 = 0 then inodeSize img d / 512
        else inodeSize img d / 512 + 1 := rfl
    split at this <;> omega
  obtain ⟨k, hk⟩ := Nat.exists_eq_add_of_le hle
  rw [entries, flatMap_slots, slotsWith, ← List.map_take, List.filter_map, hk, List.range_add]
  have htake : (List.range (inodeSize img d / 16) ++
      (List.range k).map (inodeSize img d / 16 + ·)).take (inodeSize img d / 16) =
        List.range (inodeSize img d / 16) := by
    simp
  have hrest : ((List.range k).map (inodeSize img d / 16 + ·)).filter
      (fun x => decide (IsEntry img d x)) = [] := by
    refine List.filter_eq_nil_iff.mpr fun x hx => ?_
    obtain ⟨j, -, rfl⟩ := List.mem_map.mp hx
    rw [decide_eq_true_eq]
    exact fun h => Nat.not_lt.mpr (Nat.le_add_right _ j) h.1
  rw [htake, List.filter_append, hrest, List.append_nil]
  congr 1
  refine List.filter_congr fun x hx => ?_
  have hlt := List.mem_range.mp hx
  simp [IsEntry, hlt]

theorem countP_seen_add_hidden (r : Dirent → Bool) :
    (scanned img d).countP r + (hidden img d).countP r =
      (entries img d).countP r + (beyond img d).countP r := by
  rw [scanned_eq, entries_eq, hidden, beyond, slotsWith, slotsWith, slotsWith, slotsWith]
  simp only [List.countP_map]
  have := countP_filter_add (List.range (32 * numBlocks img d)) (fun x => Seen img d x)
    (fun x => IsEntry img d x) (r ∘ slotAt img d)
  simpa only [Bool.decide_and, decide_not] using this

theorem linksIn_scanned (img : Image) (i : ℕ) : linksIn img (scanned img) i = seenLinks img i := rfl

theorem linksIn_eq_sum (slots : ℕ → List Dirent) (i : ℕ) :
    linksIn img slots i =
      ((liveDirs img).map fun d => (slots d).countP fun e => e.inum = i).sum := by
  rw [linksIn, List.countP_flatMap]
  rfl

theorem seenLinks_add_hidden (img : Image) (i : ℕ) :
    seenLinks img i + linksIn img (hidden img) i =
      linksIn img (entries img) i + linksIn img (beyond img) i := by
  rw [← linksIn_scanned]
  simp only [linksIn_eq_sum]
  rw [← List.sum_map_add, ← List.sum_map_add]
  simp only [countP_seen_add_hidden]

theorem countP_beyond_le (r : Dirent → Bool) : (beyond img d).countP r ≤ (scanned img d).countP r := by
  rw [scanned_eq, beyond, slotsWith, slotsWith, List.countP_map, List.countP_map,
    List.countP_filter, List.countP_filter]
  refine List.countP_mono_left fun x _ hx => ?_
  simp only [Bool.and_eq_true, decide_eq_true_eq] at hx ⊢
  exact ⟨hx.1, hx.2.1⟩

theorem linksIn_beyond_le (img : Image) (i : ℕ) : linksIn img (beyond img) i ≤ seenLinks img i := by
  rw [← linksIn_scanned, linksIn_eq_sum, linksIn_eq_sum]
  exact List.sum_le_sum fun d _ => countP_beyond_le _

theorem Passed.seenLinks_pos (h : Passed img) {i : ℕ} (hi : Live img i) : 0 < seenLinks img i := by
  obtain ⟨d, hd, e, he, rfl⟩ := h.named i hi
  refine List.countP_pos_iff.mpr ⟨e, List.mem_flatMap.mpr ⟨d, mem_liveDirs.mpr hd, he⟩, by simp⟩

/-- An accepted image has the link counts it should have exactly when the scans miss nothing that
matters. -/
theorem link_counts_iff (img : Image) (h : main img = .ok ()) :
    LinksSound img ↔ NothingMissed img := by
  have hp := main_ok_passed h
  have hsplit := seenLinks_add_hidden img
  constructor
  · rintro ⟨hnamed, hnlink⟩
    refine ⟨fun i hi heq => ?_, fun i hi hf => ?_, fun i hi hf => ?_⟩
    · have := hnamed i hi
      have := hsplit i
      omega
    · have := hp.nlink i hi hf
      have := hnlink i hi hf
      have := hsplit i
      omega
    · rw [hnlink i hi hf]
  · rintro ⟨hnamed, hlow, hhigh⟩
    refine ⟨fun i hi => ?_, fun i hi hf => ?_⟩
    · have := hp.seenLinks_pos hi
      have := hnamed i hi
      have := hsplit i
      have := linksIn_beyond_le img i
      omega
    · have := hp.nlink i hi hf
      have := hlow i hi hf
      have := hhigh i hi hf
      have := hsplit i
      omega

end

theorem rootImage_linksSound : LinksSound (rootImage 2) := by
  have hnamed : ∀ i < 200, Live (rootImage 2) i →
      linksIn (rootImage 2) (beyond (rootImage 2)) i ≠ seenLinks (rootImage 2) i := by
    decide +kernel
  have hfile : ∀ i < 200, inodeType (rootImage 2) i = T_FILE →
      linksIn (rootImage 2) (hidden (rootImage 2)) i % 256 =
        linksIn (rootImage 2) (beyond (rootImage 2)) i % 256 ∧
      inodeNlink (rootImage 2) i / 256 =
        linksIn (rootImage 2) (entries (rootImage 2)) i / 256 := by
    decide +kernel
  refine (link_counts_iff (rootImage 2) (by decide +kernel)).mpr ⟨?_, ?_, ?_⟩
  · exact fun i hi heq => absurd heq (hnamed i hi.1 hi)
  · exact fun i hi hf => (hfile i hi.1 hf).1
  · exact fun i hi hf => (hfile i hi.1 hf).2

/-- `rootImage 2` with the link count 257 in its file. -/
def overcountImage : Image := Function.update (rootImage 2) (2 * BSIZE + 135) 1

/-- The low byte of the link count is right, and that is all the checker keeps. -/
theorem overcountImage_accepted : main overcountImage = .ok () ∧ ¬ LinksSound overcountImage := by
  refine ⟨by decide +kernel, fun h => ?_⟩
  have := h.nlink 2 (by decide +kernel) (by decide +kernel)
  revert this
  decide +kernel

end IntroToOS.Fscheck

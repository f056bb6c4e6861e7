import IntroToOS.Fscheck.Accept

/-! # Consistent file systems

`Consistent` is the on-disk format of `include/fs.h` together with the invariants of a file system
in it; an entry of a directory is any of the `size / 16` slots within its size that is not free. A
scan of the checker sees other slots than these: it gives a block up at its first free slot, and
it reads the last block to its end. A consistent image is accepted exactly when its directories
are consistent as scanned (`consistent_accepted_iff`), and always when the two views agree
(`Consistent.main_ok_of_compact`); a free slot before a used one is enough to have it rejected
(`holeImage_rejected`).
-/

namespace IntroToOS.Fscheck
open Lib
set_option autoImplicit false

/-- The entries within the size of directory `d`. -/
def entries (img : Image) (d : ℕ) : List Dirent :=
  (((dirBlocks img d).flatMap fun b => slots img 32 (rsect b)).take
    (inodeSize img d / 16)).filter fun e => e.inum ≠ 0

/-- All entries of the file system. -/
def allEntries (img : Image) : List Dirent := (dirs img).flatMap (entries img)

/-- The image is a consistent file system. -/
structure Consistent (img : Image) : Prop where
  ninodes : ninodes img = NINODES
  type : ∀ i < NINODES, inodeType img i ≤ T_DEV
  size : ∀ i, InUse img i → inodeSize img i ≤ MAXFILE * BSIZE
  blocks : BlocksSound img
  root : IsDir img 1
  dirSize : ∀ d, IsDir img d → 16 ∣ inodeSize img d
  entry : ∀ d, IsDir img d → ∀ e ∈ entries img d, InUse img e.inum
  self : ∀ d, IsDir img d → ((entries img d).filter Dirent.isDot).map Dirent.inum = [d]
  parent : ∀ d, IsDir img d → ∃ p, ((entries img d).filter Dirent.isDotDot).map Dirent.inum = [p] ∧
    if d = 1 then p = 1 else IsDir img p ∧ ∃ e ∈ entries img p, e.isPlain = true ∧ e.inum = d
  once : ∀ d, IsDir img d →
    (allEntries img).countP (fun e => e.isPlain && e.inum = d) = if d = 1 then 0 else 1
  named : ∀ i, InUse img i → ∃ e ∈ allEntries img, e.inum = i
  nlink : ∀ i, InUse img i → inodeType img i = T_FILE →
    inodeNlink img i = (allEntries img).countP fun e => e.inum = i

/-- In every directory the scan sees exactly the entries: no free slot comes before a used one of
its block, and the slots behind the size are free. -/
def Compact (img : Image) : Prop := ∀ d, IsDir img d → scanned img d = entries img d

section
variable {img : Image}

theorem mem_allEntries {e : Dirent} :
    e ∈ allEntries img ↔ ∃ d, IsDir img d ∧ e ∈ entries img d := by
  simp only [allEntries, List.mem_flatMap, mem_dirs]

theorem inum_ne_zero_of_mem {d : ℕ} {e : Dirent} (h : e ∈ entries img d) : e.inum ≠ 0 := by
  simpa using (List.mem_filter.mp h).2

theorem Consistent.wellBlocked (h : Consistent img) : WellBlocked img where
  ninodes := h.ninodes
  type := h.type
  size := h.size
  blocks := h.blocks
  zero := by
    by_contra h0
    obtain ⟨e, he, hz⟩ := h.named 0 ⟨by decide, h0⟩
    obtain ⟨d, -, hd⟩ := mem_allEntries.mp he
    exact inum_ne_zero_of_mem hd hz

/-- A consistent image is accepted exactly when its directories are consistent as scanned. -/
theorem consistent_accepted_iff (img : Image) (h : Consistent img) :
    main img = .ok () ↔ ScanConsistent img :=
  h.wellBlocked.main_eq_ok_iff

/-! ## Compact directories -/

theorem find?_of_filter_map {es : List Dirent} {p : Dirent → Bool} {x : ℕ}
    (h : (es.filter p).map Dirent.inum = [x]) : ∃ e, es.find? p = some e ∧ e.inum = x := by
  obtain ⟨e, he, hx⟩ := List.map_eq_singleton_iff.mp h
  exact ⟨e, by rw [← List.head?_filter, he]; rfl, hx⟩

/-- Erasing the only element with a property keeps the others. -/
theorem eraseP_eq_filter {es : List Dirent} {p : Dirent → Bool} (h : (es.filter p).length ≤ 1) :
    es.eraseP p = es.filter fun e => !p e := by
  induction es with
  | nil => rfl
  | cons e es ih =>
      by_cases hp : p e = true
      · rw [List.filter_cons_of_pos hp, List.length_cons] at h
        have hnone : es.filter p = [] := List.eq_nil_of_length_eq_zero (by omega)
        rw [List.eraseP_cons_of_pos hp, List.filter_cons_of_neg (by simp [hp])]
        refine (List.filter_eq_self.mpr fun a ha => ?_).symm
        simpa using List.filter_eq_nil_iff.mp hnone a ha
      · rw [List.filter_cons_of_neg hp] at h
        rw [List.eraseP_cons_of_neg hp, List.filter_cons_of_pos (by simpa using hp), ih h]

theorem Consistent.others_entries (h : Consistent img) {d : ℕ} (hd : IsDir img d) :
    others (entries img d) = (entries img d).filter Dirent.isPlain := by
  have hdot : ((entries img d).filter Dirent.isDot).length ≤ 1 := by
    simpa using Nat.le_of_eq (congrArg List.length (h.self d hd))
  obtain ⟨p, hp, -⟩ := h.parent d hd
  have hdotdot : (((entries img d).filter fun e => !e.isDot).filter Dirent.isDotDot).length ≤ 1 := by
    have hsub := ((List.filter_sublist (p := fun e : Dirent => !e.isDot)
      (l := entries img d)).filter Dirent.isDotDot).length_le
    have := Nat.le_of_eq (congrArg List.length hp)
    simp only [List.length_map, List.length_singleton] at this
    omega
  rw [others, eraseP_eq_filter hdot, eraseP_eq_filter hdotdot, List.filter_filter]
  rfl

theorem Consistent.scanConsistent (h : Consistent img) (hc : Compact img) :
    ScanConsistent img where
  entry := fun d hd e he => h.entry d hd e (hc d hd ▸ he)
  dots := by
    intro d hd
    obtain ⟨e, he, -⟩ := find?_of_filter_map (h.self d hd)
    obtain ⟨p, hp, -⟩ := h.parent d hd
    obtain ⟨e', he', -⟩ := find?_of_filter_map hp
    rw [hc d hd]
    exact ⟨⟨e, List.mem_of_find?_eq_some he, List.find?_some he⟩,
      ⟨e', List.mem_of_find?_eq_some he', List.find?_some he'⟩⟩
  root := by
    obtain ⟨p, hp, h1⟩ := h.parent 1 h.root
    obtain ⟨e, he, hx⟩ := find?_of_filter_map hp
    exact ⟨e, h.root, by rw [hc 1 h.root]; exact he, hx.trans h1⟩
  parent := by
    intro d hd hd1 e he
    obtain ⟨p, hp, hif⟩ := h.parent d hd
    obtain ⟨e', he', rfl⟩ := find?_of_filter_map hp
    rw [hc d hd, he', Option.some.injEq] at he
    obtain rfl := he
    rw [if_neg hd1] at hif
    obtain ⟨hdir, c, hmem, hplain, hcd⟩ := hif
    unfold names
    rw [hc _ hdir, Bool.and_eq_true, decide_eq_true_eq, List.any_eq_true]
    exact ⟨hdir.2, c, hmem, by simp [hplain, hcd]⟩
  once := by
    have hflat : ((dirs img).flatMap fun d => others (scanned img d)) =
        (allEntries img).filter Dirent.isPlain := by
      rw [allEntries, List.filter_flatMap]
      refine List.flatMap_congr fun d hd => ?_
      rw [hc d (mem_dirs.mp hd), h.others_entries (mem_dirs.mp hd)]
    rw [hflat, List.filter_filter, List.nodup_iff_count_le_one]
    intro d
    rw [List.count_eq_countP, List.countP_map, List.countP_filter]
    by_cases hd : d < NINODES ∧ inodeType img d = T_DIR
    · have hdir : IsDir img d := ⟨⟨hd.1, by rw [hd.2]; decide⟩, hd.2⟩
      have hone : (allEntries img).countP (fun e => e.isPlain && e.inum = d) ≤ 1 := by
        rw [h.once d hdir]
        split <;> omega
      refine Nat.le_trans (List.countP_mono_left fun e _ he => ?_) hone
      simp only [Function.comp_apply, Bool.and_eq_true, beq_iff_eq, decide_eq_true_eq] at he ⊢
      exact ⟨he.2.2, he.1⟩
    · refine Nat.le_trans (Nat.le_of_eq (List.countP_eq_zero.mpr fun e hmem he => ?_)) (Nat.zero_le 1)
      simp only [Function.comp_apply, Bool.and_eq_true, beq_iff_eq, decide_eq_true_eq] at he
      obtain ⟨d', hd', hin⟩ := mem_allEntries.mp hmem
      have hlt := (h.entry d' hd' e hin).1
      rw [he.1] at hlt
      exact hd ⟨hlt, he.1 ▸ he.2.1⟩
  named := by
    intro i hi
    obtain ⟨e, he, hx⟩ := h.named i hi
    obtain ⟨d, hd, hin⟩ := mem_allEntries.mp he
    exact ⟨d, hd, e, by rw [hc d hd]; exact hin, hx⟩
  nlink := by
    intro i hi hf
    have hflat : (dirs img).flatMap (scanned img) = allEntries img :=
      List.flatMap_congr fun d hd => hc d (mem_dirs.mp hd)
    rw [h.nlink i hi hf, hflat]

/-- A consistent image whose directories are compact is accepted. -/
theorem Consistent.main_ok_of_compact (h : Consistent img) (hc : Compact img) :
    main img = .ok () :=
  (consistent_accepted_iff img h).mpr (h.scanConsistent hc)

end

/-! ## A free slot in the middle of a directory -/

/-- A root directory of `k + 1` slots with `.`, `..` and, in its last slot, an empty file. -/
def rootImage (k : ℕ) : Image := fun off =>
  let i := off % BSIZE
  match off / BSIZE with
  | 1 => bytes [(1, 4), (4, 227), (5, 3), (8, 200)] i
  | 2 => bytes [(64, 1), (72, BitVec.ofNat 8 (16 * k + 16)), (76, 29), (128, 2), (134, 1)] i
  | 28 => bif Nat.blt i 3 then 255 else bytes [(3, 63)] i
  | 29 => bytes [(0, 1), (2, 46), (16, 1), (18, 46), (19, 46), (16 * k, 2), (16 * k + 2, 102)] i
  | _ => 0

/-- The third slot is free, as after an unlink. -/
def holeImage : Image := rootImage 3

theorem rootImage_consistent {k : ℕ} (hk : k = 2 ∨ k = 3) : Consistent (rootImage k) := by
  have hin : ∀ i < NINODES, inodeType (rootImage k) i ≠ 0 →
      i = 1 ∧ numBlocks (rootImage k) 1 = 1 ∨ i = 2 ∧ numBlocks (rootImage k) 2 = 0 := by
    rcases hk with rfl | rfl <;> decide +kernel
  have hdir : ∀ i < NINODES, inodeType (rootImage k) i = T_DIR → i = 1 := by
    rcases hk with rfl | rfl <;> decide +kernel
  have hused : ∀ i p, Used (rootImage k) i p → i = 1 ∧ p = .data 0 := by
    intro i p hp
    rcases hin i hp.1.1 hp.1.2 with ⟨rfl, hn⟩ | ⟨rfl, hn⟩
    · obtain ⟨-, hp⟩ := hp
      rw [hn] at hp
      cases p with
      | indirect => exact absurd hp (by decide)
      | data j => exact ⟨rfl, by rw [Nat.lt_one_iff.mp hp.1]⟩
    · obtain ⟨-, hp⟩ := hp
      rw [hn] at hp
      cases p with
      | indirect => exact absurd hp (by decide)
      | data j => exact absurd hp.1 (Nat.not_lt_zero j)
  have hblock : blockOf (rootImage k) 1 (.data 0) = 29 := by
    rcases hk with rfl | rfl <;> decide +kernel
  have hone : Used (rootImage k) 1 (.data 0) := by
    refine ⟨⟨by decide, ?_⟩, ?_, by decide⟩ <;> rcases hk with rfl | rfl <;> decide +kernel
  refine ⟨?_, ?_, ?_, ⟨?_, ?_, ?_⟩, ?_, ?_, ?_, ?_, ?_, ?_, ?_, ?_⟩
  · rcases hk with rfl | rfl <;> decide +kernel
  · rcases hk with rfl | rfl <;> decide +kernel
  · have hsize : ∀ i < NINODES, inodeSize (rootImage k) i ≤ MAXFILE * BSIZE := by
      rcases hk with rfl | rfl <;> decide +kernel
    exact fun i hi => hsize i hi.1
  · intro i p j q hp hq _
    obtain ⟨rfl, rfl⟩ := hused i p hp
    obtain ⟨rfl, rfl⟩ := hused j q hq
    exact ⟨rfl, rfl⟩
  · intro i p hp
    obtain ⟨rfl, rfl⟩ := hused i p hp
    omega
  · have hbits : ∀ i < 512, ∀ j < 8,
        (bitmap (rootImage k) i).getLsbD j = decide (8 * i + j < 30) := by
      rcases hk with rfl | rfl <;> decide +kernel
    intro b hb
    have hdiv : 8 * (b / 8) + b % 8 = b := by omega
    rw [bit, hbits (b / 8) (by omega) (b % 8) (by omega), hdiv, decide_eq_true_eq]
    constructor
    · intro hlt
      by_cases h29 : b < 29
      · exact .inl h29
      · exact .inr ⟨1, .data 0, hone, by omega⟩
    · rintro (h29 | ⟨i, p, hp, rfl⟩)
      · omega
      · obtain ⟨rfl, rfl⟩ := hused i p hp
        omega
  · exact ⟨hone.1, by rcases hk with rfl | rfl <;> decide +kernel⟩
  · intro d hd
    obtain rfl := hdir d hd.1.1 hd.2
    rcases hk with rfl | rfl <;> decide +kernel
  · intro d hd
    obtain rfl := hdir d hd.1.1 hd.2
    have hall : ∀ e ∈ entries (rootImage k) 1,
        e.inum < NINODES ∧ inodeType (rootImage k) e.inum ≠ 0 := by
      rcases hk with rfl | rfl <;> decide +kernel
    exact hall
  · intro d hd
    obtain rfl := hdir d hd.1.1 hd.2
    rcases hk with rfl | rfl <;> decide +kernel
  · intro d hd
    obtain rfl := hdir d hd.1.1 hd.2
    refine ⟨1, ?_, by simp⟩
    rcases hk with rfl | rfl <;> decide +kernel
  · intro d hd
    obtain rfl := hdir d hd.1.1 hd.2
    rcases hk with rfl | rfl <;> decide +kernel
  · intro i hi
    rcases hin i hi.1 hi.2 with ⟨rfl, -⟩ | ⟨rfl, -⟩ <;> rcases hk with rfl | rfl <;>
      decide +kernel
  · intro i hi hf
    rcases hin i hi.1 hi.2 with ⟨rfl, -⟩ | ⟨rfl, -⟩
    · have hd : inodeType (rootImage k) 1 = T_DIR := by
        rcases hk with rfl | rfl <;> decide +kernel
      exact absurd (hd.symm.trans hf) (by decide)
    · rcases hk with rfl | rfl <;> decide +kernel

/-- Without the hole the image is accepted. -/
theorem rootImage_accepted : ScanConsistent (rootImage 2) :=
  (consistent_accepted_iff (rootImage 2) (rootImage_consistent (.inl rfl))).mp (by decide +kernel)

/-- With the hole the scan never sees the file. -/
theorem holeImage_rejected : Consistent holeImage ∧
    main holeImage = fail "ERROR: inode marked use but not found in a directory.\n" :=
  ⟨rootImage_consistent (.inr rfl), by decide +kernel⟩

end IntroToOS.Fscheck

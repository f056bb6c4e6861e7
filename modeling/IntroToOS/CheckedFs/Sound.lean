import IntroToOS.CheckedFs.Pointers

/-! # Sound file systems

`Sound s tbl` is the invariant of the disk when `tbl` is the inode table: the blocks that in-use
inodes reach are pairwise distinct and are, with the reserved ones, those marked in the bitmap;
free blocks are zero; every block within the size of a file is allocated; and a pointer of a
checked file carries the checksum of its block. While a call works on an in-core inode the table
is `s.dinode` with that inode in place of its disk copy (`table`).

A state changes in two ways. A free block is attached to a position that had none
(`Sound.attach`), which leaves the contents of all files as they are, since a missing block reads
as zeros. Or a data block is rewritten together with the checksum of its pointer
(`Sound.rewrite`).
-/

namespace IntroToOS.CheckedFs
open Lib
set_option autoImplicit false

/-! ## Positions -/

/-- A place of an inode that holds a pointer. -/
inductive Position
  | indirect
  | data (k : ℕ)
  deriving DecidableEq

/-- The pointer at a position, zero when there is none. -/
def pointer (block : ℕ → ℕ → Byte) (ip : Inode) : Position → Addr
  | .indirect => ip.addrs NDIRECT
  | .data k =>
    if k < NDIRECT then ip.addrs k
    else if ip.addrs NDIRECT = 0 ∨ MAXFILE ≤ k then 0
    else word (block (blockNo (ip.addrs NDIRECT))) (k - NDIRECT)

/-- Byte `o` of a file; a block that is not allocated reads as zeros. -/
def fileByte (block : ℕ → ℕ → Byte) (ip : Inode) (o : ℕ) : Byte :=
  let addr := pointer block ip (.data (o / BSIZE))
  if addr = 0 then 0 else block (blockNo addr) (o % BSIZE)

def table (s : Fs) (i : ℕ) (ip : Inode) : ℕ → Inode := Function.update s.dinode i ip

/-- The first block behind the bitmap. -/
def dataStart (s : Fs) : ℕ := s.ninodes / IPB + 3 + (s.size / BPB + 1)

/-- Inode `i` is in use and has a pointer at position `p`. -/
structure Reaches (s : Fs) (tbl : ℕ → Inode) (i : ℕ) (p : Position) : Prop where
  inUse : (tbl i).type ≠ 0
  ne_zero : pointer s.block (tbl i) p ≠ 0

/-- The block at a position. -/
def blockAt (s : Fs) (tbl : ℕ → Inode) (i : ℕ) (p : Position) : ℕ :=
  blockNo (pointer s.block (tbl i) p)

structure Sound (s : Fs) (tbl : ℕ → Inode) : Prop where
  fits : s.size ≤ 2 ^ 24
  range : ∀ i p, Reaches s tbl i p → dataStart s ≤ blockAt s tbl i p ∧ blockAt s tbl i p < s.size
  distinct : ∀ i p j q, Reaches s tbl i p → Reaches s tbl j q →
    blockAt s tbl i p = blockAt s tbl j q → i = j ∧ p = q
  marked : ∀ b < s.size, s.bitmap b = true ↔
    b < dataStart s ∨ ∃ i p, Reaches s tbl i p ∧ blockAt s tbl i p = b
  clean : ∀ b < s.size, s.bitmap b = false → ∀ o, s.block b o = 0
  plainIndirect : ∀ i, (tbl i).type ≠ 0 → CH_GET_CHECKSUM ((tbl i).addrs NDIRECT) = 0
  plain : ∀ i k, (tbl i).type ≠ 0 → (tbl i).type ≠ T_CHECKED →
    CH_GET_CHECKSUM (pointer s.block (tbl i) (.data k)) = 0
  checked : ∀ i k, (tbl i).type = T_CHECKED → Reaches s tbl i (.data k) →
    CH_GET_CHECKSUM (pointer s.block (tbl i) (.data k)) =
      calculate_checksum (s.block (blockAt s tbl i (.data k))) BSIZE
  size_le : ∀ i, (tbl i).type ≠ 0 → (tbl i).size ≤ MAXFILE * BSIZE
  covered : ∀ i k, (tbl i).type ≠ 0 → k * BSIZE < (tbl i).size →
    pointer s.block (tbl i) (.data k) ≠ 0

section
variable {s s' : Fs} {tbl tbl' : ℕ → Inode}

/-- Inodes that are in use for the same purpose and point to the same blocks. -/
theorem pointer_congr {block : ℕ → ℕ → Byte} {ip ip' : Inode} (h : ip'.addrs = ip.addrs)
    (p : Position) : pointer block ip' p = pointer block ip p := by
  cases p with
  | indirect => exact congrFun h NDIRECT
  | data k => rw [pointer, pointer, h]

/-- Soundness is about the blocks and about type, size and pointers of the inodes in use. -/
theorem Sound.congr (h : Sound s tbl) (hs : s'.size = s.size) (hn : s'.ninodes = s.ninodes)
    (hm : s'.bitmap = s.bitmap) (hb : s'.block = s.block)
    (ht : ∀ i, (tbl' i).type = (tbl i).type)
    (ha : ∀ i, (tbl i).type ≠ 0 → (tbl' i).addrs = (tbl i).addrs)
    (hsize : ∀ i, (tbl i).type ≠ 0 → (tbl' i).size = (tbl i).size ∨
      (tbl' i).size ≤ MAXFILE * BSIZE ∧
        ∀ k, k * BSIZE < (tbl' i).size → pointer s.block (tbl i) (.data k) ≠ 0) :
    Sound s' tbl' := by
  have hp : ∀ i p, (tbl i).type ≠ 0 → pointer s'.block (tbl' i) p = pointer s.block (tbl i) p := by
    intro i p hi
    rw [hb]
    exact pointer_congr (ha i hi) p
  have hr : ∀ i p, Reaches s' tbl' i p ↔ Reaches s tbl i p := by
    intro i p
    constructor
    · rintro ⟨hu, hz⟩
      rw [ht] at hu
      exact ⟨hu, by rwa [hp i p hu] at hz⟩
    · rintro ⟨hu, hz⟩
      exact ⟨by rwa [ht], by rwa [hp i p hu]⟩
  have hat : ∀ i p, Reaches s tbl i p → blockAt s' tbl' i p = blockAt s tbl i p := by
    intro i p hi
    rw [blockAt, hp i p hi.inUse, blockAt]
  have hd : dataStart s' = dataStart s := by rw [dataStart, dataStart, hs, hn]
  exact {
    fits := hs ▸ h.fits
    range := by
      intro i p hi
      rw [hr] at hi
      rw [hat i p hi, hd, hs]
      exact h.range i p hi
    distinct := by
      intro i p j q hi hj he
      rw [hr] at hi hj
      rw [hat i p hi, hat j q hj] at he
      exact h.distinct i p j q hi hj he
    marked := by
      intro b hlt
      rw [hm, hd, h.marked b (hs ▸ hlt)]
      refine or_congr_right (exists_congr fun i => exists_congr fun p => ?_)
      rw [hr]
      exact and_congr_right fun hi => by rw [hat i p hi]
    clean := by
      intro b hlt hfree o
      rw [hm] at hfree
      rw [hb]
      exact h.clean b (hs ▸ hlt) hfree o
    plainIndirect := by
      intro i hi
      rw [ht] at hi
      rw [ha i hi]
      exact h.plainIndirect i hi
    plain := by
      intro i k hi hplain
      rw [ht] at hi hplain
      rw [hp i _ hi]
      exact h.plain i k hi hplain
    checked := by
      intro i k hi hreach
      rw [ht] at hi
      rw [hr] at hreach
      rw [hat i _ hreach, hp i _ hreach.inUse, hb]
      exact h.checked i k hi hreach
    size_le := by
      intro i hi
      rw [ht] at hi
      rcases hsize i hi with he | ⟨hle, -⟩
      · rw [he]
        exact h.size_le i hi
      · exact hle
    covered := by
      intro i k hi hk
      rw [ht] at hi
      rw [hp i _ hi]
      rcases hsize i hi with he | ⟨-, hcov⟩
      · exact h.covered i k hi (he ▸ hk)
      · exact hcov k hk }

/-- An inode that is free, or in use with no block and no contents. -/
def Inode.Blank (ip : Inode) : Prop :=
  ip.type = 0 ∨ (∀ k ≤ NDIRECT, ip.addrs k = 0) ∧ ip.size = 0

theorem pointer_of_addrs_zero {block : ℕ → ℕ → Byte} {ip : Inode}
    (h : ∀ k ≤ NDIRECT, ip.addrs k = 0) (p : Position) : pointer block ip p = 0 := by
  cases p with
  | indirect => exact h NDIRECT (Nat.le_refl _)
  | data k =>
      rw [pointer]
      by_cases hk : k < NDIRECT
      · rw [if_pos hk, h k (Nat.le_of_lt hk)]
      · rw [if_neg hk, if_pos (.inl (h NDIRECT (Nat.le_refl _)))]

theorem Inode.Blank.pointer {block : ℕ → ℕ → Byte} {ip : Inode} (h : ip.Blank) (hi : ip.type ≠ 0)
    (p : Position) : pointer block ip p = 0 :=
  pointer_of_addrs_zero (h.resolve_left hi).1 p

/-- One blank inode is as good as another: inodes are taken into use and freed this way. -/
theorem Sound.swap (h : Sound s tbl) {i : ℕ} {ip : Inode} (hold : (tbl i).Blank)
    (hnew : ip.Blank) : Sound s (Function.update tbl i ip) := by
  have hr : ∀ j p, Reaches s (Function.update tbl i ip) j p → j ≠ i ∧ Reaches s tbl j p := by
    rintro j p ⟨hu, hz⟩
    by_cases hj : j = i
    · subst hj
      rw [Function.update_self] at hu hz
      exact absurd (hnew.pointer hu p) hz
    · rw [Function.update_of_ne hj] at hu hz
      exact ⟨hj, hu, hz⟩
  have hne : ∀ j p, Reaches s tbl j p → j ≠ i := by
    rintro j p ⟨hu, hz⟩ rfl
    exact hz (hold.pointer hu p)
  have hr' : ∀ j p, Reaches s tbl j p → Reaches s (Function.update tbl i ip) j p := by
    intro j p hj
    have hji := hne j p hj
    exact ⟨by rw [Function.update_of_ne hji]; exact hj.inUse,
      by rw [Function.update_of_ne hji]; exact hj.ne_zero⟩
  have hat : ∀ j p, j ≠ i → blockAt s (Function.update tbl i ip) j p = blockAt s tbl j p := by
    intro j p hj
    rw [blockAt, Function.update_of_ne hj, blockAt]
  exact {
    fits := h.fits
    range := by
      intro j p hj
      obtain ⟨hji, hj⟩ := hr j p hj
      rw [hat j p hji]
      exact h.range j p hj
    distinct := by
      intro j p k q hj hk he
      obtain ⟨hji, hj⟩ := hr j p hj
      obtain ⟨hki, hk⟩ := hr k q hk
      rw [hat j p hji, hat k q hki] at he
      exact h.distinct j p k q hj hk he
    marked := by
      intro b hlt
      rw [h.marked b hlt]
      refine or_congr_right ⟨?_, ?_⟩
      · rintro ⟨j, p, hj, he⟩
        exact ⟨j, p, hr' j p hj, (hat j p (hne j p hj)).trans he⟩
      · rintro ⟨j, p, hj, he⟩
        obtain ⟨hji, hj⟩ := hr j p hj
        exact ⟨j, p, hj, (hat j p hji).symm.trans he⟩
    clean := h.clean
    plainIndirect := by
      intro j hj
      by_cases hji : j = i
      · subst hji
        rw [Function.update_self] at hj ⊢
        rw [(hnew.resolve_left hj).1 NDIRECT (Nat.le_refl _), CH_GET_CHECKSUM_zero]
      · rw [Function.update_of_ne hji] at hj ⊢
        exact h.plainIndirect j hj
    plain := by
      intro j k hj hplain
      by_cases hji : j = i
      · subst hji
        rw [Function.update_self] at hj ⊢
        rw [hnew.pointer hj, CH_GET_CHECKSUM_zero]
      · rw [Function.update_of_ne hji] at hj hplain ⊢
        exact h.plain j k hj hplain
    checked := by
      intro j k hj hreach
      obtain ⟨hji, hreach⟩ := hr j _ hreach
      rw [hat j _ hji]
      rw [Function.update_of_ne hji] at hj ⊢
      exact h.checked j k hj hreach
    size_le := by
      intro j hj
      by_cases hji : j = i
      · subst hji
        rw [Function.update_self] at hj ⊢
        rw [(hnew.resolve_left hj).2]
        exact Nat.zero_le _
      · rw [Function.update_of_ne hji] at hj ⊢
        exact h.size_le j hj
    covered := by
      intro j k hj hk
      by_cases hji : j = i
      · subst hji
        rw [Function.update_self] at hj hk
        rw [(hnew.resolve_left hj).2] at hk
        exact absurd hk (Nat.not_lt_zero _)
      · rw [Function.update_of_ne hji] at hj hk ⊢
        exact h.covered j k hj hk }

/-! ## Attaching a free block -/

theorem Sound.not_free (h : Sound s tbl) {i : ℕ} {p : Position} {b : ℕ} (hr : Reaches s tbl i p)
    (hb : s.bitmap b = false) : blockAt s tbl i p ≠ b := by
  rintro rfl
  have hlt := (h.range i p hr).2
  rw [(h.marked _ hlt).mpr (.inr ⟨i, p, hr, rfl⟩)] at hb
  cases hb

/-- The effect of attaching the free block `b` at position `p` of inode `i`. -/
structure Attaches (s s' : Fs) (tbl tbl' : ℕ → Inode) (i : ℕ) (p : Position) (b : ℕ) : Prop where
  size : s'.size = s.size
  ninodes : s'.ninodes = s.ninodes
  free : s.bitmap b = false
  lt : b < s.size
  bitmap : s'.bitmap = Function.update s.bitmap b true
  inUse : (tbl i).type ≠ 0
  none : pointer s.block (tbl i) p = 0
  here : pointer s'.block (tbl' i) p = BitVec.ofNat 32 b
  others : ∀ j q, (tbl j).type ≠ 0 → (j, q) ≠ (i, p) →
    pointer s'.block (tbl' j) q = pointer s.block (tbl j) q
  kept : ∀ j, (tbl' j).type = (tbl j).type ∧ (tbl' j).size = (tbl j).size
  data : ∀ j k, Reaches s tbl j (.data k) →
    s'.block (blockAt s tbl j (.data k)) = s.block (blockAt s tbl j (.data k))
  clean : ∀ c, s.bitmap c = false → s'.block c = s.block c

theorem calculate_checksum_zero {data : ℕ → Byte} (h : ∀ o, data o = 0) :
    calculate_checksum data BSIZE = 0 := by
  have : (List.range BSIZE).map data = List.replicate BSIZE 0 := by
    rw [List.map_congr_left fun o _ => h o, List.map_const', List.length_range]
  rw [calculate_checksum, this]
  decide +kernel

section Attach
variable {i : ℕ} {p : Position} {b : ℕ}

theorem Attaches.blockNo_here (h : Sound s tbl) (ha : Attaches s s' tbl tbl' i p b) :
    blockAt s' tbl' i p = b := by
  rw [blockAt, ha.here, blockNo_ofNat]
  exact Nat.lt_of_lt_of_le ha.lt h.fits

theorem Attaches.blockAt_other (ha : Attaches s s' tbl tbl' i p b) {j : ℕ} {q : Position}
    (hj : (tbl j).type ≠ 0) (hne : (j, q) ≠ (i, p)) : blockAt s' tbl' j q = blockAt s tbl j q := by
  rw [blockAt, ha.others j q hj hne, blockAt]

theorem Attaches.dataStart_eq (ha : Attaches s s' tbl tbl' i p b) : dataStart s' = dataStart s := by
  rw [dataStart, dataStart, ha.size, ha.ninodes]

/-- What is reached afterwards was reached before or is the new block. -/
theorem Attaches.reaches_iff (h : Sound s tbl) (ha : Attaches s s' tbl tbl' i p b) {j : ℕ}
    {q : Position} : Reaches s' tbl' j q ↔ (j, q) = (i, p) ∨ Reaches s tbl j q := by
  have hb : BitVec.ofNat 32 b ≠ 0#32 := by
    intro h0
    have h1 := congrArg blockNo h0
    rw [blockNo_ofNat (Nat.lt_of_lt_of_le ha.lt h.fits)] at h1
    have hres : b < dataStart s := by
      rw [h1.trans blockNo_zero]
      exact Nat.add_pos_right _ (Nat.succ_pos _)
    have := (h.marked b ha.lt).mpr (.inl hres)
    rw [ha.free] at this
    cases this
  by_cases he : (j, q) = (i, p)
  · obtain ⟨rfl, rfl⟩ := Prod.mk.inj he
    simp only [true_or, iff_true]
    exact ⟨by rw [(ha.kept j).1]; exact ha.inUse, by rw [ha.here]; exact hb⟩
  · simp only [he, false_or]
    constructor
    · rintro ⟨hu, hp⟩
      rw [(ha.kept j).1] at hu
      exact ⟨hu, by rwa [ha.others j q hu he] at hp⟩
    · rintro ⟨hu, hp⟩
      exact ⟨by rwa [(ha.kept j).1], by rwa [ha.others j q hu he]⟩

theorem Attaches.block_eq (ha : Attaches s s' tbl tbl' i p b) : s'.block b = s.block b :=
  ha.clean b ha.free

theorem Attaches.ne_of_reaches (ha : Attaches s s' tbl tbl' i p b) {j : ℕ} {q : Position}
    (hr : Reaches s tbl j q) : (j, q) ≠ (i, p) := by
  rintro he
  obtain ⟨rfl, rfl⟩ := Prod.mk.inj he
  exact hr.ne_zero ha.none

theorem Attaches.blockAt_old (ha : Attaches s s' tbl tbl' i p b) {j : ℕ} {q : Position}
    (hr : Reaches s tbl j q) : blockAt s' tbl' j q = blockAt s tbl j q :=
  ha.blockAt_other hr.inUse (ha.ne_of_reaches hr)

/-- Every pointer is the old one, except the new one, which carries no checksum. -/
theorem Attaches.checksum (h : Sound s tbl) (ha : Attaches s s' tbl tbl' i p b) {j : ℕ}
    {q : Position} (hj : (tbl j).type ≠ 0) :
    CH_GET_CHECKSUM (pointer s'.block (tbl' j) q) = CH_GET_CHECKSUM (pointer s.block (tbl j) q) := by
  by_cases he : (j, q) = (i, p)
  · obtain ⟨rfl, rfl⟩ := Prod.mk.inj he
    rw [ha.here, ha.none, CH_GET_CHECKSUM_ofNat (Nat.lt_of_lt_of_le ha.lt h.fits),
      CH_GET_CHECKSUM_zero]
  · rw [ha.others j q hj he]

theorem Sound.attach (h : Sound s tbl) (ha : Attaches s s' tbl tbl' i p b) : Sound s' tbl' where
  fits := ha.size ▸ h.fits
  range := by
    intro j q hr
    rw [ha.dataStart_eq, ha.size]
    rcases (ha.reaches_iff h).mp hr with he | hr'
    · obtain ⟨rfl, rfl⟩ := Prod.mk.inj he
      rw [ha.blockNo_here h]
      refine ⟨Nat.not_lt.mp fun hlt => ?_, ha.lt⟩
      have := (h.marked b ha.lt).mpr (.inl hlt)
      rw [ha.free] at this
      cases this
    · rw [ha.blockAt_old hr']
      exact h.range j q hr'
  distinct := by
    intro j q k r hq hr he
    rcases (ha.reaches_iff h).mp hq with hjq | hq' <;> rcases (ha.reaches_iff h).mp hr with hkr | hr'
    · exact Prod.mk.inj (hjq.trans hkr.symm)
    · obtain ⟨rfl, rfl⟩ := Prod.mk.inj hjq
      rw [ha.blockNo_here h, ha.blockAt_old hr'] at he
      exact absurd he.symm (h.not_free hr' ha.free)
    · obtain ⟨rfl, rfl⟩ := Prod.mk.inj hkr
      rw [ha.blockNo_here h, ha.blockAt_old hq'] at he
      exact absurd he (h.not_free hq' ha.free)
    · rw [ha.blockAt_old hq', ha.blockAt_old hr'] at he
      exact h.distinct j q k r hq' hr' he
  marked := by
    intro c hc
    rw [ha.size] at hc
    rw [ha.bitmap, ha.dataStart_eq]
    by_cases hcb : c = b
    · subst hcb
      simp only [Function.update_self, true_iff]
      exact .inr ⟨i, p, (ha.reaches_iff h).mpr (.inl rfl), ha.blockNo_here h⟩
    · rw [Function.update_of_ne hcb, h.marked c hc]
      refine or_congr_right ⟨?_, ?_⟩
      · rintro ⟨j, q, hr, he⟩
        exact ⟨j, q, (ha.reaches_iff h).mpr (.inr hr), (ha.blockAt_old hr).trans he⟩
      · rintro ⟨j, q, hr, he⟩
        rcases (ha.reaches_iff h).mp hr with hjq | hr'
        · obtain ⟨rfl, rfl⟩ := Prod.mk.inj hjq
          exact absurd (he.symm.trans (ha.blockNo_here h)) hcb
        · exact ⟨j, q, hr', (ha.blockAt_old hr').symm.trans he⟩
  clean := by
    intro c hc hfree o
    rw [ha.bitmap] at hfree
    by_cases hcb : c = b
    · subst hcb
      simp at hfree
    · rw [Function.update_of_ne hcb] at hfree
      rw [ha.clean c hfree]
      exact h.clean c (ha.size ▸ hc) hfree o
  plainIndirect := by
    intro j hj
    rw [(ha.kept j).1] at hj
    exact (ha.checksum (q := .indirect) h hj).trans (h.plainIndirect j hj)
  plain := by
    intro j k hj hplain
    rw [(ha.kept j).1] at hj hplain
    rw [ha.checksum h hj]
    exact h.plain j k hj hplain
  checked := by
    intro j k hj hr
    rw [(ha.kept j).1] at hj
    have hu : (tbl j).type ≠ 0 := by rw [hj]; decide
    rw [ha.checksum h hu]
    rcases (ha.reaches_iff h).mp hr with he | hr'
    · obtain ⟨rfl, rfl⟩ := Prod.mk.inj he
      rw [ha.none, ha.blockNo_here h, ha.block_eq, CH_GET_CHECKSUM_zero,
        calculate_checksum_zero (h.clean b ha.lt ha.free)]
    · rw [ha.blockAt_old hr', ha.data j k hr']
      exact h.checked j k hj hr'
  size_le := by
    intro j hj
    rw [(ha.kept j).1] at hj
    rw [(ha.kept j).2]
    exact h.size_le j hj
  covered := by
    intro j k hj hk
    rw [(ha.kept j).1] at hj
    rw [(ha.kept j).2] at hk
    exact ((ha.reaches_iff h).mpr (.inr ⟨hj, h.covered j k hj hk⟩)).ne_zero

/-- Attaching a block changes no file: it holds zeros. -/
theorem Attaches.fileByte_eq (h : Sound s tbl) (ha : Attaches s s' tbl tbl' i p b) {j : ℕ}
    (hj : (tbl j).type ≠ 0) : fileByte s'.block (tbl' j) = fileByte s.block (tbl j) := by
  funext o
  by_cases hz : pointer s.block (tbl j) (.data (o / BSIZE)) = 0
  · rw [fileByte, fileByte, if_pos hz]
    by_cases he : (j, Position.data (o / BSIZE)) = (i, p)
    · obtain ⟨rfl, rfl⟩ := Prod.mk.inj he
      have hb := ha.blockNo_here h
      rw [blockAt] at hb
      rw [hb, ha.block_eq, h.clean b ha.lt ha.free, ite_self]
    · rw [ha.others j _ hj he, if_pos hz]
  · have hr : Reaches s tbl j (.data (o / BSIZE)) := ⟨hj, hz⟩
    rw [fileByte, fileByte, ha.others j _ hj (ha.ne_of_reaches hr), if_neg hz, if_neg hz]
    exact congrFun (ha.data j _ hr) _

end Attach

/-! ## Rewriting a data block -/

theorem dataStart_pos (s : Fs) : 0 < dataStart s := Nat.add_pos_right _ (Nat.succ_pos _)

/-- The effect of storing `data` in data block `k` of inode `i`, with its checksum in the pointer
when the file is checked. -/
structure Rewrites (s s' : Fs) (tbl tbl' : ℕ → Inode) (i k : ℕ) (data : ℕ → Byte) : Prop where
  size : s'.size = s.size
  ninodes : s'.ninodes = s.ninodes
  bitmap : s'.bitmap = s.bitmap
  reached : Reaches s tbl i (.data k)
  here : blockAt s' tbl' i (.data k) = blockAt s tbl i (.data k)
  checksum : CH_GET_CHECKSUM (pointer s'.block (tbl' i) (.data k)) =
    if (tbl i).type = T_CHECKED then calculate_checksum data BSIZE else 0
  others : ∀ j q, (tbl j).type ≠ 0 → (j, q) ≠ (i, .data k) →
    pointer s'.block (tbl' j) q = pointer s.block (tbl j) q
  kept : ∀ j, (tbl' j).type = (tbl j).type ∧ (tbl' j).size = (tbl j).size
  block : s'.block (blockAt s tbl i (.data k)) = data
  data : ∀ j l, Reaches s tbl j (.data l) → (j, l) ≠ (i, k) →
    s'.block (blockAt s tbl j (.data l)) = s.block (blockAt s tbl j (.data l))
  clean : ∀ c < s.size, s.bitmap c = false → s'.block c = s.block c

section Rewrite
variable {i k : ℕ} {data : ℕ → Byte}

theorem Rewrites.blockAt_eq (hw : Rewrites s s' tbl tbl' i k data) {j : ℕ} {q : Position}
    (hj : (tbl j).type ≠ 0) : blockAt s' tbl' j q = blockAt s tbl j q := by
  by_cases he : (j, q) = (i, .data k)
  · obtain ⟨rfl, rfl⟩ := Prod.mk.inj he
    exact hw.here
  · rw [blockAt, hw.others j q hj he, blockAt]

theorem Rewrites.reaches_iff (h : Sound s tbl) (hw : Rewrites s s' tbl tbl' i k data) {j : ℕ}
    {q : Position} : Reaches s' tbl' j q ↔ Reaches s tbl j q := by
  by_cases he : (j, q) = (i, .data k)
  · obtain ⟨rfl, rfl⟩ := Prod.mk.inj he
    refine ⟨fun _ => hw.reached, fun hr => ⟨by rw [(hw.kept j).1]; exact hr.inUse, fun h0 => ?_⟩⟩
    have hb := hw.here
    rw [blockAt, h0, blockNo_zero] at hb
    have := (h.range j _ hr).1
    have hpos := dataStart_pos s
    omega
  · constructor
    · rintro ⟨hu, hp⟩
      rw [(hw.kept j).1] at hu
      exact ⟨hu, by rwa [hw.others j q hu he] at hp⟩
    · rintro ⟨hu, hp⟩
      exact ⟨by rwa [(hw.kept j).1], by rwa [hw.others j q hu he]⟩

theorem Sound.rewrite (h : Sound s tbl) (hw : Rewrites s s' tbl tbl' i k data) : Sound s' tbl' where
  fits := hw.size ▸ h.fits
  range := by
    intro j q hr
    have hr' := (hw.reaches_iff h).mp hr
    rw [hw.blockAt_eq hr'.inUse, dataStart, hw.size, hw.ninodes]
    exact h.range j q hr'
  distinct := by
    intro j q l r hq hr he
    have hq' := (hw.reaches_iff h).mp hq
    have hr' := (hw.reaches_iff h).mp hr
    rw [hw.blockAt_eq hq'.inUse, hw.blockAt_eq hr'.inUse] at he
    exact h.distinct j q l r hq' hr' he
  marked := by
    intro c hc
    rw [hw.bitmap, h.marked c (hw.size ▸ hc), dataStart, dataStart, hw.size, hw.ninodes]
    refine or_congr_right ⟨?_, ?_⟩
    · rintro ⟨j, q, hr, he⟩
      exact ⟨j, q, (hw.reaches_iff h).mpr hr, (hw.blockAt_eq hr.inUse).trans he⟩
    · rintro ⟨j, q, hr, he⟩
      have hr' := (hw.reaches_iff h).mp hr
      exact ⟨j, q, hr', (hw.blockAt_eq hr'.inUse).symm.trans he⟩
  clean := by
    intro c hc hfree o
    rw [hw.size] at hc
    rw [hw.bitmap] at hfree
    rw [hw.clean c hc hfree]
    exact h.clean c hc hfree o
  plainIndirect := by
    intro j hj
    rw [(hw.kept j).1] at hj
    exact (congrArg CH_GET_CHECKSUM (hw.others j .indirect hj (by simp))).trans
      (h.plainIndirect j hj)
  plain := by
    intro j l hj hplain
    rw [(hw.kept j).1] at hj hplain
    by_cases he : (j, Position.data l) = (i, .data k)
    · obtain ⟨rfl, hl⟩ := Prod.mk.inj he
      rw [hl, hw.checksum, if_neg hplain]
    · rw [hw.others j _ hj he]
      exact h.plain j l hj hplain
  checked := by
    intro j l hj hr
    rw [(hw.kept j).1] at hj
    have hr' := (hw.reaches_iff h).mp hr
    rw [hw.blockAt_eq hr'.inUse]
    by_cases he : (j, l) = (i, k)
    · obtain ⟨rfl, rfl⟩ := Prod.mk.inj he
      rw [hw.checksum, if_pos hj, hw.block]
    · have hne : (j, Position.data l) ≠ (i, .data k) := fun h0 => he (by
        obtain ⟨rfl, h1⟩ := Prod.mk.inj h0
        rw [Position.data.inj h1])
      rw [hw.others j _ hr'.inUse hne, hw.data j l hr' he]
      exact h.checked j l hj hr'
  size_le := by
    intro j hj
    rw [(hw.kept j).1] at hj
    rw [(hw.kept j).2]
    exact h.size_le j hj
  covered := by
    intro j l hj hl
    rw [(hw.kept j).1] at hj
    rw [(hw.kept j).2] at hl
    exact ((hw.reaches_iff h).mpr ⟨hj, h.covered j l hj hl⟩).ne_zero

/-- The rewritten file shows the new block, every other file is as it was. -/
theorem Rewrites.fileByte_eq (h : Sound s tbl) (hw : Rewrites s s' tbl tbl' i k data) {j : ℕ}
    (hj : (tbl j).type ≠ 0) (o : ℕ) : fileByte s'.block (tbl' j) o =
      if j = i ∧ o / BSIZE = k then data (o % BSIZE) else fileByte s.block (tbl j) o := by
  by_cases he : j = i ∧ o / BSIZE = k
  · obtain ⟨rfl, rfl⟩ := he
    have hr := (hw.reaches_iff h).mpr hw.reached
    rw [fileByte, if_neg hr.ne_zero, if_pos ⟨rfl, rfl⟩]
    have hb := hw.here
    rw [blockAt] at hb
    rw [hb, hw.block]
  · have hne : (j, Position.data (o / BSIZE)) ≠ (i, .data k) := fun h0 => he (by
      obtain ⟨rfl, h1⟩ := Prod.mk.inj h0
      exact ⟨rfl, Position.data.inj h1⟩)
    rw [if_neg he, fileByte, fileByte, hw.others j _ hj hne]
    by_cases hz : pointer s.block (tbl j) (.data (o / BSIZE)) = 0
    · rw [if_pos hz, if_pos hz]
    · rw [if_neg hz, if_neg hz]
      exact congrFun (hw.data j _ ⟨hj, hz⟩ fun h0 => he (by
        obtain ⟨rfl, rfl⟩ := Prod.mk.inj h0
        exact ⟨rfl, rfl⟩)) _

end Rewrite

end

end IntroToOS.CheckedFs

import IntroToOS.CheckedFs.Balloc
import IntroToOS.CheckedFs.Outcomes
import Mathlib.Data.Finset.Card

/-! # Room for a write

`balloc` gives out a block behind the end of the disk when it is asked for one more than there is.
A write asks for a block at each position that it goes through and that has none (`missing`); with
as many free blocks, or no bits behind the end of the disk, every number it stores is that of a
block of the disk.
-/

namespace IntroToOS.CheckedFs
open Lib
set_option autoImplicit false

/-- The free blocks of the disk. -/
def freeBlocks (s : Fs) : Finset ℕ := (Finset.range s.size).filter fun b => s.bitmap b = false

/-- A transfer of `n` bytes at `off` goes through the position. -/
def Meets (off n : ℕ) : Position → Prop
  | .indirect => 0 < n ∧ NDIRECT * BSIZE < off + n
  | .data k => 0 < n ∧ k * BSIZE < off + n ∧ off < (k + 1) * BSIZE

instance Meets.decidable (off n : ℕ) : DecidablePred (Meets off n)
  | .indirect => inferInstanceAs (Decidable (_ ∧ _))
  | .data _ => inferInstanceAs (Decidable (_ ∧ _ ∧ _))

def positions : Finset Position := insert .indirect ((Finset.range MAXFILE).image .data)

/-- The positions without a block that a write has to give one. -/
def missing (s : Fs) (ip : Inode) (off n : ℕ) : Finset Position :=
  positions.filter fun p => Meets off n p ∧ pointer s.block ip p = 0

/-- The disk has a free block for each of them, or no bits behind its end. -/
def Roomy (s : Fs) (ip : Inode) (off n : ℕ) : Prop :=
  BPB ∣ s.size ∨ (missing s ip off n).card ≤ (freeBlocks s).card

section
variable {i : ℕ} {s s' t : Fs} {ip ip' iq : Inode} {off n m b bn : ℕ} {p : Position} {a : Addr}

theorem mem_freeBlocks : b ∈ freeBlocks s ↔ b < s.size ∧ s.bitmap b = false := by
  simp [freeBlocks]

theorem mem_missing :
    p ∈ missing s ip off n ↔ p ∈ positions ∧ Meets off n p ∧ pointer s.block ip p = 0 := by
  simp [missing]

theorem card_freeBlocks_mark (hb : b ∈ freeBlocks s) (hsize : s'.size = s.size)
    (hbitmap : s'.bitmap = Function.update s.bitmap b true) :
    (freeBlocks s').card + 1 = (freeBlocks s).card := by
  have herase : freeBlocks s' = (freeBlocks s).erase b := by
    ext c
    rw [Finset.mem_erase, mem_freeBlocks, mem_freeBlocks, hsize, hbitmap]
    by_cases hc : c = b
    · simp [hc]
    · simp [hc]
  rw [herase, Finset.card_erase_add_one hb]

/-- A search that has a free block to find does not go behind the end of the disk. -/
theorem exhausted_of_room (hball : balloc s = .ok (t, a)) (hex : s.exhausted = false)
    (hroom : BPB ∣ s.size ∨ (freeBlocks s).Nonempty) : t.exhausted = false := by
  unfold balloc at hball
  split at hball
  · next b hb =>
    obtain ⟨rfl, -⟩ := Prod.mk.inj (Except.ok.inj hball)
    obtain ⟨-, hlt, hfirst⟩ := firstFree_first hb
    have hin : b < s.size := by
      rcases hroom with ⟨k, hk⟩ | ⟨c, hc⟩
      · have hN : (s.size + BPB - 1) / BPB * BPB = s.size := by
          have hk' : s.size = 4096 * k := hk
          show (s.size + 4096 - 1) / 4096 * 4096 = s.size
          omega
        omega
      · obtain ⟨hc, hfree⟩ := mem_freeBlocks.mp hc
        by_contra hge
        have hset := hfirst c (Nat.zero_le c) (by omega)
        rw [hfree] at hset
        cases hset
    have hnot : ¬ s.size ≤ b := Nat.not_le.mpr hin
    simp [hex, hnot]
  · cases hball

theorem Roomy.nonempty (h : Roomy s ip off n) (hp : p ∈ missing s ip off n) :
    BPB ∣ s.size ∨ (freeBlocks s).Nonempty :=
  h.imp_right fun hcard =>
    Finset.card_pos.mp (Nat.lt_of_lt_of_le (Finset.card_pos.mpr ⟨p, hp⟩) hcard)

/-- There is room for the rest of a write when the bitmap is the same. -/
theorem Roomy.rest (h : Roomy s ip off n) (hsize : s'.size = s.size)
    (hbitmap : s'.bitmap = s.bitmap) (hm : m ≤ n)
    (halloc : ∀ p, pointer s.block ip p ≠ 0 → pointer s'.block ip' p ≠ 0) :
    Roomy s' ip' (off + m) (n - m) := by
  have hfree : freeBlocks s' = freeBlocks s := by rw [freeBlocks, freeBlocks, hsize, hbitmap]
  have hsub : missing s' ip' (off + m) (n - m) ⊆ missing s ip off n := by
    intro p hp
    obtain ⟨hpos, hmeets, hzero⟩ := mem_missing.mp hp
    refine mem_missing.mpr ⟨hpos, ?_, by_contra fun hne => halloc p hne hzero⟩
    cases p with
    | indirect =>
        obtain ⟨h1, h2⟩ := hmeets
        exact ⟨by omega, by omega⟩
    | data k =>
        obtain ⟨h1, h2, h3⟩ := hmeets
        exact ⟨by omega, by omega, by omega⟩
  rw [Roomy, hsize, hfree]
  exact h.imp_right (Nat.le_trans (Finset.card_le_card hsub))

/-- Giving a missing position its block uses up one free block. -/
theorem Attaches.roomy {tbl : ℕ → Inode} {tbl' : ℕ → Inode} (h : Sound s tbl)
    (ha : Attaches s s' tbl tbl' i p b) (hroom : Roomy s (tbl i) off n)
    (hp : p ∈ missing s (tbl i) off n) : Roomy s' (tbl' i) off n := by
  have hreach := fun q => ha.reaches_iff h (j := i) (q := q)
  have hcard := card_freeBlocks_mark (mem_freeBlocks.mpr ⟨ha.lt, ha.free⟩) ha.size ha.bitmap
  have hsub : missing s' (tbl' i) off n ⊆ (missing s (tbl i) off n).erase p := by
    intro q hq
    obtain ⟨hpos, hmeets, hzero⟩ := mem_missing.mp hq
    have hnot : ¬ ((i, q) = (i, p) ∨ Reaches s tbl i q) := fun hr =>
      ((hreach q).mpr hr).ne_zero hzero
    rw [not_or] at hnot
    refine Finset.mem_erase.mpr ⟨fun he => hnot.1 (by rw [he]), mem_missing.mpr ⟨hpos, hmeets, ?_⟩⟩
    exact by_contra fun hne => hnot.2 ⟨ha.inUse, hne⟩
  rw [Roomy, ha.size]
  refine hroom.imp_right fun hle => ?_
  have h1 := Finset.card_le_card hsub
  have h2 := Finset.card_erase_add_one hp
  omega

/-- One allocation for a position that the write goes through. -/
theorem balloc_roomy (hball : balloc s = .ok (t, a)) (hex : s.exhausted = false)
    (hroom : Roomy s ip off n) (hpos : p ∈ positions) (hmeets : Meets off n p)
    (hzero : pointer s.block ip p = 0) :
    p ∈ missing s ip off n ∧ t.exhausted = false ∧
      ∃ b < s.size, s.bitmap b = false ∧ a = BitVec.ofNat 32 b ∧ t = s.mark b := by
  have hp : p ∈ missing s ip off n := mem_missing.mpr ⟨hpos, hmeets, hzero⟩
  have ht := exhausted_of_room hball hex (hroom.nonempty hp)
  exact ⟨hp, ht, balloc_spec hball ht⟩

theorem data_mem_positions (h : bn < MAXFILE) : .data bn ∈ positions :=
  Finset.mem_insert_of_mem (Finset.mem_image_of_mem _ (Finset.mem_range.mpr h))

theorem Attaches.roomy_table (h : Sound s (table s i ip))
    (ha : Attaches s s' (table s i ip) (table s' i ip') i p b) (hroom : Roomy s ip off n)
    (hp : p ∈ missing s ip off n) : Roomy s' ip' off n := by
  have hr : Roomy s (table s i ip i) off n → p ∈ missing s (table s i ip i) off n →
      Roomy s' (table s' i ip' i) off n := ha.roomy h
  rw [table_self, table_self] at hr
  exact hr hroom hp

theorem Meets.indirect (h : Meets off n (.data bn)) (hbn : NDIRECT ≤ bn) :
    Meets off n .indirect :=
  ⟨h.1, Nat.lt_of_le_of_lt (Nat.mul_le_mul_right BSIZE hbn) h.2.1⟩

theorem bmapIndirect_roomy (h : Sound s (table s i ip)) (hi : ip.type ≠ 0)
    (hb : bmapIndirect s ip = .ok (s', ip')) (hex : s.exhausted = false)
    (hroom : Roomy s ip off n) (hmeets : Meets off n .indirect) :
    s'.exhausted = false ∧ Roomy s' ip' off n := by
  unfold bmapIndirect at hb
  split at hb
  · next h0 =>
    obtain ⟨⟨t, a⟩, hball, ht⟩ := bind_eq_ok.mp hb
    obtain ⟨rfl, rfl⟩ := Prod.mk.inj (Except.ok.inj ht)
    obtain ⟨hp, hext, b, hlt, hfree, rfl, rfl⟩ :=
      balloc_roomy (p := .indirect) hball hex hroom (Finset.mem_insert_self ..) hmeets h0
    exact ⟨hext, (attaches_indirect h hi h0 hlt hfree).roomy_table h hroom hp⟩
  · obtain ⟨rfl, rfl⟩ := Prod.mk.inj (Except.ok.inj hb)
    exact ⟨hex, hroom⟩

/-- `bmap` finds room for the blocks of a position that the write goes through. -/
theorem bmap_roomy (h : Sound s (table s i ip)) (hi : ip.type ≠ 0)
    (hb : bmap s ip bn = .ok (s', ip', b)) (hex : s.exhausted = false)
    (hroom : Roomy s ip off n) (hmeets : Meets off n (.data bn)) :
    s'.exhausted = false ∧ Roomy s' ip' off n := by
  unfold bmap at hb
  split at hb
  · next hbn =>
    have hmax : bn < MAXFILE := Nat.lt_of_lt_of_le hbn (Nat.le_add_right ..)
    split at hb
    · next h0 =>
      obtain ⟨⟨t, a⟩, hball, ht⟩ := bind_eq_ok.mp hb
      obtain ⟨rfl, rfl, rfl⟩ := by simpa only [Except.ok.injEq, Prod.mk.injEq] using ht
      have hzero : pointer s.block ip (.data bn) = 0 := by rw [pointer_data, if_pos hbn, h0]
      obtain ⟨hp, hext, c, hlt, hfree, rfl, rfl⟩ :=
        balloc_roomy hball hex hroom (data_mem_positions hmax) hmeets hzero
      exact ⟨hext, (attaches_direct (i := i) hi hbn h0 hlt hfree).roomy_table h hroom hp⟩
    · obtain ⟨rfl, rfl, -⟩ := by simpa only [Except.ok.injEq, Prod.mk.injEq] using hb
      exact ⟨hex, hroom⟩
  · next hbn =>
    have hbn' : ¬ bn < 12 := hbn
    split at hb
    · next hlt =>
      have hmax : bn < MAXFILE := by
        have hlt' : bn - 12 < 128 := hlt
        show bn < 12 + 128
        omega
      have hsplit : bn = NDIRECT + (bn - NDIRECT) := by
        show bn = 12 + (bn - 12)
        omega
      have hind := hmeets.indirect (Nat.not_lt.mp hbn)
      obtain ⟨⟨t, iq⟩, hbind, ht⟩ := bind_eq_ok.mp hb
      obtain ⟨hext, hroom'⟩ := bmapIndirect_roomy h hi hbind hex hroom hind
      obtain ⟨hkeeps, h12⟩ := bmapIndirect_spec h hi hbind hext
      simp only at ht
      split at ht
      · next hw =>
        obtain ⟨⟨u, a⟩, hball, hu⟩ := bind_eq_ok.mp ht
        obtain ⟨rfl, rfl, rfl⟩ := by simpa only [Except.ok.injEq, Prod.mk.injEq] using hu
        have hzero := pointer_of_indirect t.block h12 hlt
        rw [← hsplit, hw] at hzero
        obtain ⟨hp, hexu, c, hc, hfree, rfl, rfl⟩ :=
          balloc_roomy hball hext hroom' (data_mem_positions hmax) hmeets hzero
        have ha := attaches_word hkeeps.sound (by rw [hkeeps.type]; exact hi) h12 hlt hw hc hfree
        rw [← hsplit] at ha
        exact ⟨hexu, ha.roomy_table hkeeps.sound hroom' hp⟩
      · obtain ⟨rfl, rfl, -⟩ := by simpa only [Except.ok.injEq, Prod.mk.injEq] using ht
        exact ⟨hext, hroom'⟩
    · cases hb

theorem meets_chunk {left : ℕ} (hl : 0 < left) : Meets off left (.data (off / BSIZE)) := by
  refine ⟨hl, ?_, ?_⟩
  · show off / 512 * 512 < off + left
    omega
  · show off < (off / 512 + 1) * 512
    omega

/-- A write with room for its blocks does not go behind the end of the disk. -/
theorem exhausted_of_roomy {fuel left : ℕ} {src : ℕ → Byte} (h : Sound s (table s i ip))
    (hi : ip.type ≠ 0) (hex : s.exhausted = false) (hroom : Roomy s ip off left)
    (hw : writeLoop fuel s ip src off left = .ok (s', ip')) : s'.exhausted = false := by
  induction fuel generalizing s ip src off left with
  | zero =>
      obtain ⟨rfl, -⟩ := Prod.mk.inj (Except.ok.inj hw)
      exact hex
  | succ fuel ih =>
      by_cases hl : left = 0
      · rw [writeLoop, if_pos hl] at hw
        obtain ⟨rfl, -⟩ := Prod.mk.inj (Except.ok.inj hw)
        exact hex
      · have hpos := Nat.pos_of_ne_zero hl
        obtain ⟨t, iq, b, u, ir, hb, hst, hrest⟩ := (writeLoop_succ_eq_ok hl).mp hw
        obtain ⟨hext, hroomt⟩ := bmap_roomy h hi hb hex hroom (meets_chunk hpos)
        have hexu : u.exhausted = false := (exhausted_of_storeChecksum hst).trans hext
        have hchunk := written_chunk h hi hpos hb hext hst
        -- storing the block changes neither the bitmap nor which positions have a block
        obtain ⟨hkeeps, -, hp, rfl⟩ := bmap_spec h hi hb hext
        have hiq : iq.type ≠ 0 := by rw [hkeeps.type]; exact hi
        have hstamp := storeChecksum_spec hkeeps.sound hiq hp hst
        have hrew := hstamp.rewrites hkeeps.sound hiq hp
        have hreach := fun q => hrew.reaches_iff hkeeps.sound (j := i) (q := q)
        refine ih hchunk.sound (by rw [hchunk.type]; exact hi) hexu ?_ hrest
        refine hroomt.rest hrew.size hrew.bitmap (chunk_le off left) fun q hq => ?_
        have hr := ((hreach q).mpr ⟨by rwa [table_self], by rwa [table_self]⟩).ne_zero
        rwa [table_self] at hr

theorem exhausted_of_writei {src : ℕ → Byte} {ret : ℤ} (h : Sound s (table s i ip))
    (hi : ip.type ≠ 0) (hex : s.exhausted = false) (hroom : Roomy s ip off (clip off n))
    (hw : writei s i ip src off n = .ok (s', ip', ret)) : s'.exhausted = false := by
  by_cases hdev : ip.type = T_DEV
  · rw [writei, if_pos hdev] at hw
    split at hw
    · obtain ⟨rfl, -⟩ := by simpa only [Except.ok.injEq, Prod.mk.injEq] using hw
      exact hex
    · split at hw
      · obtain ⟨rfl, -⟩ := by simpa only [Except.ok.injEq, Prod.mk.injEq] using hw
        exact hex
      · obtain ⟨rfl, -⟩ := by simpa only [Except.ok.injEq, Prod.mk.injEq] using hw
        exact hex
  · by_cases hbad : ip.size < off ∨ wraps off n
    · rw [writei, if_neg hdev, if_pos hbad] at hw
      obtain ⟨rfl, -⟩ := by simpa only [Except.ok.injEq, Prod.mk.injEq] using hw
      exact hex
    · rw [writei_eq hdev hbad] at hw
      obtain ⟨⟨t, iq⟩, hloop, hw⟩ := bind_eq_ok.mp hw
      have hext := exhausted_of_roomy h hi hex hroom hloop
      simp only at hw
      split at hw
      · obtain ⟨rfl, -⟩ := by simpa only [Except.ok.injEq, Prod.mk.injEq] using hw
        exact hext
      · obtain ⟨rfl, -⟩ := by simpa only [Except.ok.injEq, Prod.mk.injEq] using hw
        exact hext

/-- A write with room stores only numbers of blocks of the disk. -/
theorem writei_in_range {src : ℕ → Byte} {ret : ℤ} (h : Valid s) (hd : s.dinode i = ip)
    (hi : ip.type ≠ 0) (hex : s.exhausted = false) (hroom : Roomy s ip off (clip off n))
    (hw : writei s i ip src off n = .ok (s', ip', ret)) (j : ℕ) (q : Position)
    (hr : Reaches s' s'.dinode j q) : blockAt s' s'.dinode j q < s'.size := by
  have hsound : Sound s (table s i ip) := by
    rw [table_eq hd]
    exact h.sound
  have hex' := exhausted_of_writei hsound hi hex hroom hw
  exact ((writei_updates h hd hi hw hex').sound.range j q hr).2

end

/-! ## Where `balloc` is right -/

instance Roomy.decidable (s : Fs) (ip : Inode) (off n : ℕ) : Decidable (Roomy s ip off n) :=
  inferInstanceAs (Decidable (_ ∨ _))

/-- On a disk without marks behind its end `balloc` is right exactly when its search ends within
the disk, and a write that has room stores no other numbers. -/
theorem balloc_right_iff {s : Fs} (habove : ∀ b, s.size ≤ b → s.bitmap b = false) :
    (BallocRight s ↔ SearchEnds s) ∧
      ∀ i ip src off n s' ip' ret, Valid s → s.dinode i = ip → ip.type ≠ 0 →
        s.exhausted = false → Roomy s ip off (clip off n) →
        writei s i ip src off n = .ok (s', ip', ret) →
        ∀ j q, Reaches s' s'.dinode j q → blockAt s' s'.dinode j q < s'.size :=
  ⟨ballocRight_iff habove,
    fun _ _ _ _ _ _ _ _ h hd hi hex hroom hw => writei_in_range h hd hi hex hroom hw⟩

/-- Thirteen blocks for a fresh file, with the indirect one fourteen. -/
theorem fresh_balloc_right : BallocRight (fresh emptyFs 1 T_FILE) ∧
    ∃ s' ip' ret, writei (fresh emptyFs 1 T_FILE) 1 { type := T_FILE, nlink := 1 } (fun _ => 7) 0
      6145 = .ok (s', ip', ret) ∧ ∀ j q, Reaches s' s'.dinode j q →
        blockAt s' s'.dinode j q < s'.size := by
  have habove : ∀ b, (fresh emptyFs 1 T_FILE).size ≤ b →
      (fresh emptyFs 1 T_FILE).bitmap b = false := by
    intro b hb
    have hb' : 32 ≤ b := hb
    show decide (b < 5) = false
    simp
    omega
  have hvalid : Valid (fresh emptyFs 1 T_FILE) :=
    emptyFs_initial.valid.fresh rfl (show T_FILE ≠ 0 by decide) 0 0
  obtain ⟨hiff, hwrite⟩ := balloc_right_iff habove
  refine ⟨hiff.mpr (.inl ⟨5, by decide, by decide, by decide⟩), ?_⟩
  have hsome : (writei (fresh emptyFs 1 T_FILE) 1 { type := T_FILE, nlink := 1 } (fun _ => 7) 0
      6145).toOption.isSome = true := by decide +kernel
  obtain ⟨⟨s', ip', ret⟩, hw⟩ := Option.isSome_iff_exists.mp hsome
  rw [toOption_eq_some] at hw
  exact ⟨s', ip', ret, hw, hwrite _ _ _ _ _ _ _ _ hvalid rfl (by decide) rfl
    (by decide +kernel) hw⟩

/-- A full disk of 32 blocks: `balloc` gives out block 32, and `writei` stores it. -/
theorem fullFs_overruns : (∀ b, fullFs.size ≤ b → fullFs.bitmap b = false) ∧
    (∀ b < fullFs.size, fullFs.bitmap b = true) ∧ ¬ BallocRight fullFs ∧
    (writei (fresh fullFs 1 T_FILE) 1 { type := T_FILE, nlink := 1 } (fun _ => 7) 0 1).toOption.map
      (fun r => (r.1.dinode 1).addrs 0) = some 32#32 := by
  have habove : ∀ b, fullFs.size ≤ b → fullFs.bitmap b = false := by
    intro b hb
    have hb' : 32 ≤ b := hb
    show decide (b < 32) = false
    simp
    omega
  have hfull : ∀ b < fullFs.size, fullFs.bitmap b = true := fun b hb => decide_eq_true hb
  refine ⟨habove, hfull, fun h => ?_, by decide +kernel⟩
  have hpanic := h.panics hfull
  rw [ballocSearch, ballocLoop_past habove hfull (by decide) (by decide)] at hpanic
  cases Option.some.inj hpanic

end IntroToOS.CheckedFs

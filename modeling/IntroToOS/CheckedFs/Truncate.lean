import IntroToOS.CheckedFs.Checksums
import Mathlib.Data.List.Nodup

/-! # Deletion

`itrunc` frees the blocks of an inode one after the other: the direct ones, those of the indirect
block, the indirect block itself (`allPositions`). It passes the words of the indirect block to
`bfree` as they are, so it frees the right blocks when these words carry no checksum
(`PlainIndirect`); then every block is freed once and the file system stays sound.
-/

namespace IntroToOS.CheckedFs
open Lib
set_option autoImplicit false

/-! ## Freeing a list of blocks -/

def Fs.free (s : Fs) (b : ℕ) : Fs :=
  { s.setBlock b (fun _ => 0) with
    freed := s.freed ++ [b]
    bitmap := Function.update s.bitmap b false }

def Fs.freeAll (s : Fs) (l : List ℕ) : Fs := l.foldl Fs.free s

section
variable {s t : Fs} {l : List ℕ}

theorem bfree_eq {b : ℕ} (h : s.bitmap b = true) : bfree s b = .ok (s.free b) := by
  unfold bfree
  exact if_pos h

theorem foldlM_bfree (hl : l.Nodup) (h : ∀ b ∈ l, s.bitmap b = true) :
    l.foldlM bfree s = .ok (s.freeAll l) := by
  induction l generalizing s with
  | nil => rfl
  | cons b l ih =>
      obtain ⟨hb, hl⟩ := List.nodup_cons.mp hl
      rw [List.foldlM_cons, bfree_eq (h b List.mem_cons_self), ok_bind]
      refine ih hl fun c hc => ?_
      have hcb : c ≠ b := fun he => hb (he ▸ hc)
      show Function.update s.bitmap b false c = true
      rw [Function.update_of_ne hcb]
      exact h c (List.mem_cons_of_mem b hc)

theorem freeAll_bitmap (s : Fs) (l : List ℕ) (c : ℕ) :
    (s.freeAll l).bitmap c = (s.bitmap c && decide (c ∉ l)) := by
  induction l generalizing s with
  | nil => simp [Fs.freeAll]
  | cons b l ih =>
      have := ih (s.free b)
      rw [Fs.freeAll] at this ⊢
      rw [List.foldl_cons, this]
      by_cases hcb : c = b
      · simp [Fs.free, hcb]
      · simp [Fs.free, hcb]

theorem freeAll_block (s : Fs) (l : List ℕ) (c : ℕ) :
    (s.freeAll l).block c = if c ∈ l then fun _ => 0 else s.block c := by
  induction l generalizing s with
  | nil => simp [Fs.freeAll]
  | cons b l ih =>
      have := ih (s.free b)
      rw [Fs.freeAll] at this ⊢
      rw [List.foldl_cons, this]
      by_cases hcb : c = b
      · subst hcb
        simp [Fs.free, Fs.setBlock]
      · simp [Fs.free, Fs.setBlock, hcb]

theorem freeAll_freed (s : Fs) (l : List ℕ) : (s.freeAll l).freed = s.freed ++ l := by
  induction l generalizing s with
  | nil => simp [Fs.freeAll]
  | cons b l ih =>
      have := ih (s.free b)
      rw [Fs.freeAll] at this ⊢
      rw [List.foldl_cons, this]
      simp [Fs.free]

theorem freeAll_rest (s : Fs) (l : List ℕ) : (s.freeAll l).size = s.size ∧
    (s.freeAll l).ninodes = s.ninodes ∧ (s.freeAll l).dinode = s.dinode ∧
    (s.freeAll l).inode = s.inode ∧ (s.freeAll l).exhausted = s.exhausted := by
  induction l generalizing s with
  | nil => exact ⟨rfl, rfl, rfl, rfl, rfl⟩
  | cons b l ih => exact ih (s.free b)

theorem freeAll_append (s : Fs) (l l' : List ℕ) :
    s.freeAll (l ++ l') = (s.freeAll l).freeAll l' := List.foldl_append

end

/-! ## The blocks of an inode -/

/-- The positions in the order in which `itrunc` looks at them. -/
def allPositions : List Position :=
  (List.range NDIRECT).map .data ++ (List.range NINDIRECT).map (fun j => .data (NDIRECT + j)) ++
    [.indirect]

/-- The blocks at those positions of a list that have one. -/
def blocksAt (s : Fs) (ip : Inode) (l : List Position) : List ℕ :=
  (l.filter fun p => pointer s.block ip p ≠ 0).map fun p => blockNo (pointer s.block ip p)

theorem mem_allPositions {block : ℕ → ℕ → Byte} {ip : Inode} {p : Position}
    (h : pointer block ip p ≠ 0) : p ∈ allPositions := by
  cases p with
  | indirect => simp [allPositions]
  | data k =>
      have hk : k < 12 + 128 := lt_MAXFILE_of_pointer h
      rw [allPositions, List.mem_append, List.mem_append]
      by_cases hlt : k < NDIRECT
      · exact .inl (.inl (List.mem_map.mpr ⟨k, List.mem_range.mpr hlt, rfl⟩))
      · have hlt' : ¬ k < 12 := hlt
        refine .inl (.inr (List.mem_map.mpr ⟨k - 12, List.mem_range.mpr ?_, ?_⟩))
        · show k - 12 < 128
          omega
        · show Position.data (12 + (k - 12)) = _
          rw [Nat.add_sub_cancel' (Nat.not_lt.mp hlt')]

theorem allPositions_nodup : allPositions.Nodup := by decide +kernel

section
variable {s : Fs} {i : ℕ} {ip : Inode}

theorem mem_blocksAt {l : List Position} {b : ℕ} : b ∈ blocksAt s ip l ↔
    ∃ p ∈ l, pointer s.block ip p ≠ 0 ∧ blockNo (pointer s.block ip p) = b := by
  simp [blocksAt, and_assoc]

theorem blocksAt_append (l l' : List Position) :
    blocksAt s ip (l ++ l') = blocksAt s ip l ++ blocksAt s ip l' := by
  simp [blocksAt]

theorem Sound.blocksAt_nodup (h : Sound s s.dinode) (hd : s.dinode i = ip) (hi : ip.type ≠ 0) :
    (blocksAt s ip allPositions).Nodup := by
  refine (allPositions_nodup.filter _).map_on ?_
  intro p hp q hq he
  have hp0 : pointer s.block ip p ≠ 0 := by simpa using (List.mem_filter.mp hp).2
  have hq0 : pointer s.block ip q ≠ 0 := by simpa using (List.mem_filter.mp hq).2
  refine (h.distinct i p i q ⟨by rwa [hd], by rwa [hd]⟩ ⟨by rwa [hd], by rwa [hd]⟩ ?_).2
  rwa [blockAt, blockAt, hd]

/-- The freed blocks are those that the inode reaches. -/
theorem mem_blocksAt_iff_reaches (hd : s.dinode i = ip) (hi : ip.type ≠ 0) {b : ℕ} :
    b ∈ blocksAt s ip allPositions ↔
      ∃ p, Reaches s s.dinode i p ∧ blockAt s s.dinode i p = b := by
  rw [mem_blocksAt]
  constructor
  · rintro ⟨p, -, hp, he⟩
    exact ⟨p, ⟨by rwa [hd], by rwa [hd]⟩, by rwa [blockAt, hd]⟩
  · rintro ⟨p, hr, he⟩
    have hp := hr.ne_zero
    rw [hd] at hp
    exact ⟨p, mem_allPositions hp, hp, by rwa [blockAt, hd] at he⟩

theorem Sound.blocksAt_marked (h : Sound s s.dinode) (hd : s.dinode i = ip) (hi : ip.type ≠ 0)
    {b : ℕ} (hb : b ∈ blocksAt s ip allPositions) : s.bitmap b = true := by
  obtain ⟨p, hr, rfl⟩ := (mem_blocksAt_iff_reaches hd hi).mp hb
  exact (h.marked _ (h.range i p hr).2).mpr (.inr ⟨i, p, hr, rfl⟩)

/-! ## `itrunc` -/

/-- The words of the indirect block carry no checksums. -/
def PlainIndirect (s : Fs) (ip : Inode) : Prop :=
  ∀ j < NINDIRECT, CH_GET_CHECKSUM (pointer s.block ip (.data (NDIRECT + j))) = 0

instance (s : Fs) (ip : Inode) : Decidable (PlainIndirect s ip) :=
  inferInstanceAs (Decidable (∀ j < NINDIRECT, _))

/-- The inode without the pointers of the list. -/
def Inode.clear (ip : Inode) (l : List ℕ) : Inode :=
  { ip with addrs := fun k => if k ∈ l then 0 else ip.addrs k }

/-- The direct blocks among those of the list, as the inode has them. -/
def directBlocks (ip : Inode) (l : List ℕ) : List ℕ :=
  (l.filter fun k => ip.addrs k ≠ 0).map fun k => blockNo (ip.addrs k)

theorem directBlocks_congr {ip' : Inode} {l : List ℕ} (h : ∀ k ∈ l, ip'.addrs k = ip.addrs k) :
    directBlocks ip' l = directBlocks ip l := by
  unfold directBlocks
  rw [List.filter_congr (q := fun k => decide (ip.addrs k ≠ 0)) fun k hk => by rw [h k hk]]
  exact List.map_congr_left fun k hk => by rw [h k (List.mem_filter.mp hk).1]

theorem blocksAt_direct {l : List ℕ} (h : ∀ k ∈ l, k < NDIRECT) :
    blocksAt s ip (l.map .data) = directBlocks ip l := by
  have hptr : ∀ k ∈ l, pointer s.block ip (.data k) = ip.addrs k := fun k hk => if_pos (h k hk)
  rw [blocksAt, List.filter_map, List.map_map, directBlocks,
    List.filter_congr (q := fun k => decide (ip.addrs k ≠ 0))
      fun k hk => by simp only [Function.comp, hptr k hk]]
  exact List.map_congr_left fun k hk => by
    simp only [Function.comp, hptr k (List.mem_filter.mp hk).1]

theorem truncDirect_of_ne {k : ℕ} (h : ip.addrs k ≠ 0) : truncDirect (s, ip) k = (do
    let s ← bfree s (blockNo (ip.addrs k))
    .ok (s, ip.setAddr k 0)) := if_neg h

/-- Freeing one block does not change the pointers to the others. -/
theorem foldlM_truncDirect {l : List ℕ} (hl : l.Nodup) : l.foldlM truncDirect (s, ip) = (do
    let s ← (directBlocks ip l).foldlM bfree s
    .ok (s, ip.clear l)) := by
  induction l generalizing s ip with
  | nil => simp [directBlocks, Inode.clear, pure, Except.pure, ok_bind]
  | cons k l ih =>
      obtain ⟨hk, hl⟩ := List.nodup_cons.mp hl
      rw [List.foldlM_cons]
      by_cases h0 : ip.addrs k = 0
      · have hclear : ip.clear (k :: l) = ip.clear l := by
          rw [Inode.clear, Inode.clear]
          congr 1
          funext j
          by_cases hj : j = k
          · subst hj
            simp [h0]
          · simp [hj]
        have hblocks : directBlocks ip (k :: l) = directBlocks ip l := by
          simp [directBlocks, h0]
        have hskip : truncDirect (s, ip) k = .ok (s, ip) := if_pos h0
        rw [hskip, ok_bind, ih hl, hclear, hblocks]
      · have hclear : (ip.setAddr k 0).clear l = ip.clear (k :: l) := by
          rw [Inode.clear, Inode.clear, Inode.setAddr]
          congr 1
          funext j
          by_cases hj : j = k
          · subst hj
            simp
          · simp [hj]
        have hblocks : directBlocks ip (k :: l) =
            blockNo (ip.addrs k) :: directBlocks ip l := by
          unfold directBlocks
          rw [List.filter_cons_of_pos (by simpa using h0), List.map_cons]
        have hrest : directBlocks (ip.setAddr k 0) l = directBlocks ip l :=
          directBlocks_congr fun j hj => setAddr_of_ne ip 0 fun he => hk (he ▸ hj)
        rw [truncDirect_of_ne h0, hblocks, List.foldlM_cons]
        cases bfree s (blockNo (ip.addrs k)) with
        | error e => rfl
        | ok t =>
            simp only [ok_bind]
            rw [ih hl, hrest, hclear]

/-- The loop over the indirect block frees the blocks of its words, if they carry no checksums. -/
theorem foldlM_truncIndirect (hp : PlainIndirect s ip) (h0 : ip.addrs NDIRECT ≠ 0) (t : Fs) :
    (List.range NINDIRECT).foldlM (truncIndirect (s.block (blockNo (ip.addrs NDIRECT)))) t =
      (blocksAt s ip ((List.range NINDIRECT).map fun j => .data (NDIRECT + j))).foldlM bfree t := by
  have hptr : ∀ j ∈ List.range NINDIRECT, pointer s.block ip (.data (NDIRECT + j)) =
      word (s.block (blockNo (ip.addrs NDIRECT))) j :=
    fun j hj => pointer_of_indirect _ h0 (List.mem_range.mp hj)
  have hloop : (List.range NINDIRECT).foldlM
      (truncIndirect (s.block (blockNo (ip.addrs NDIRECT)))) t =
      (List.range NINDIRECT).foldlM (fun u j =>
        if decide (pointer s.block ip (.data (NDIRECT + j)) ≠ 0) then
          bfree u (blockNo (pointer s.block ip (.data (NDIRECT + j))))
        else .ok u) t := by
    refine foldlM_congr (fun j hj u => ?_) t
    have hplain := hp j (List.mem_range.mp hj)
    rw [hptr j hj] at hplain ⊢
    unfold truncIndirect
    by_cases hw : word (s.block (blockNo (ip.addrs NDIRECT))) j = 0
    · simp [hw]
    · rw [toNat_of_checksum_zero hplain]
      simp
  rw [hloop, foldlM_filter_map (fun j => decide (pointer s.block ip (.data (NDIRECT + j)) ≠ 0))
    bfree, blocksAt, List.filter_map, List.map_map]
  rfl

theorem foldlM_bfree_freeAll {l m : List ℕ} (hlm : (l ++ m).Nodup)
    (h : ∀ b ∈ m, s.bitmap b = true) :
    m.foldlM bfree (s.freeAll l) = .ok (s.freeAll (l ++ m)) := by
  obtain ⟨-, hm, hdisj⟩ := List.nodup_append.mp hlm
  rw [freeAll_append]
  refine foldlM_bfree hm fun b hb => ?_
  have hbl : b ∉ l := fun hl => hdisj b hl b hb rfl
  simp [freeAll_bitmap, h b hb, hbl]

/-- `itrunc` frees each block of the inode once, in the order of `allPositions`. -/
theorem itrunc_eq (h : Sound s s.dinode) (hd : s.dinode i = ip) (hi : ip.type ≠ 0)
    (hp : PlainIndirect s ip) :
    ∃ ip', itrunc s i ip = .ok (iupdate (s.freeAll (blocksAt s ip allPositions)) i ip', ip') ∧
      ip'.type = ip.type ∧ (∀ k ≤ NDIRECT, ip'.addrs k = 0) ∧ ip'.size = 0 := by
  have hnodup := h.blocksAt_nodup hd hi
  have hmarked := fun b hb => h.blocksAt_marked (b := b) hd hi hb
  have hrange : ∀ k ∈ List.range NDIRECT, k < NDIRECT := fun k hk => List.mem_range.mp hk
  have hdirect : (List.range NDIRECT).foldlM truncDirect (s, ip) =
      .ok (s.freeAll (blocksAt s ip ((List.range NDIRECT).map .data)),
        ip.clear (List.range NDIRECT)) := by
    rw [allPositions, blocksAt_append, blocksAt_append] at hnodup hmarked
    have hn := (List.nodup_append.mp (List.nodup_append.mp hnodup).1).1
    rw [foldlM_truncDirect List.nodup_range, ← blocksAt_direct hrange,
      foldlM_bfree hn fun b hb => hmarked b (by simp [hb]), ok_bind]
  have h12 : (ip.clear (List.range NDIRECT)).addrs NDIRECT = ip.addrs NDIRECT := by
    simp [Inode.clear]
  have hlow : ∀ k < NDIRECT, (ip.clear (List.range NDIRECT)).addrs k = 0 := by
    intro k hk
    simp [Inode.clear, hk]
  unfold itrunc
  rw [hdirect, ok_bind]
  simp only [h12]
  by_cases h0 : ip.addrs NDIRECT = 0
  · -- there is no indirect block
    have hnone : blocksAt s ip allPositions =
        blocksAt s ip ((List.range NDIRECT).map .data) := by
      have hwords : blocksAt s ip ((List.range NINDIRECT).map fun j => .data (NDIRECT + j)) = [] := by
        refine List.eq_nil_iff_forall_not_mem.mpr fun b hb => ?_
        obtain ⟨p, hpm, hne, -⟩ := mem_blocksAt.mp hb
        obtain ⟨j, -, rfl⟩ := List.mem_map.mp hpm
        have hk : ¬ NDIRECT + j < NDIRECT := by omega
        rw [pointer_data, if_neg hk, if_pos (.inl h0)] at hne
        exact hne rfl
      have hind : blocksAt s ip [.indirect] = [] := by
        have : pointer s.block ip .indirect = 0 := h0
        simp [blocksAt, this]
      rw [allPositions, blocksAt_append, blocksAt_append, hwords, hind, List.append_nil,
        List.append_nil]
    rw [if_pos h0, hnone]
    refine ⟨_, rfl, rfl, fun k hk => ?_, rfl⟩
    rcases Nat.lt_or_eq_of_le hk with hlt | rfl
    · exact hlow k hlt
    · exact h12.trans h0
  · have hind : blocksAt s ip [.indirect] = [blockNo (ip.addrs NDIRECT)] := by
      have hptr : pointer s.block ip .indirect = ip.addrs NDIRECT := rfl
      rw [blocksAt, List.filter_cons_of_pos (by rw [hptr]; simpa using h0)]
      rfl
    rw [allPositions, blocksAt_append, blocksAt_append, hind] at hnodup hmarked ⊢
    have hbp : blockNo (ip.addrs NDIRECT) ∉
        blocksAt s ip ((List.range NDIRECT).map .data) := by
      intro hb
      have hdisj := (List.nodup_append.mp hnodup).2.2
      exact hdisj _ (List.mem_append_left _ hb) _ List.mem_cons_self rfl
    have hblock : (s.freeAll (blocksAt s ip ((List.range NDIRECT).map .data))).block
        (blockNo (ip.addrs NDIRECT)) = s.block (blockNo (ip.addrs NDIRECT)) := by
      rw [freeAll_block, if_neg hbp]
    have hlast := foldlM_bfree_freeAll hnodup fun b hb => hmarked b (List.mem_append_right _ hb)
    rw [List.foldlM_cons] at hlast
    obtain ⟨t, ht, hlast⟩ := bind_eq_ok.mp hlast
    obtain rfl := foldlM_nil_eq_ok.mp hlast
    rw [if_neg h0, hblock, foldlM_truncIndirect hp h0,
      foldlM_bfree_freeAll (List.nodup_append.mp hnodup).1 fun b hb => hmarked b (by simp [hb]),
      ok_bind, ht, ok_bind]
    refine ⟨_, rfl, rfl, fun k hk => ?_, rfl⟩
    rcases Nat.lt_or_eq_of_le hk with hlt | rfl
    · exact (setAddr_of_ne _ _ (Nat.ne_of_lt hlt)).trans (hlow k hlt)
    · exact setAddr_self (ip.clear (List.range NDIRECT)) NDIRECT 0

/-! ## A file system without the inode -/

/-- Soundness after the blocks of inode `i` have been freed and the inode has been given up. -/
theorem Sound.release {s' : Fs} {tbl' : ℕ → Inode} {l : List ℕ} (h : Sound s s.dinode)
    (hs : s'.size = s.size) (hn : s'.ninodes = s.ninodes)
    (hl : ∀ b, b ∈ l ↔ ∃ p, Reaches s s.dinode i p ∧ blockAt s s.dinode i p = b)
    (hm : ∀ b, s'.bitmap b = (s.bitmap b && decide (b ∉ l)))
    (hb : ∀ b, s'.block b = if b ∈ l then fun _ => 0 else s.block b)
    (ht : tbl' = Function.update s.dinode i ip) (hi : ip.type = 0) : Sound s' tbl' := by
  -- the blocks of the other inodes are not among those freed
  have hother : ∀ j p, j ≠ i → Reaches s s.dinode j p → blockAt s s.dinode j p ∉ l := by
    intro j p hj hr hmem
    obtain ⟨q, hq, he⟩ := (hl _).mp hmem
    exact hj (h.distinct j p i q hr hq he.symm).1
  have hne : ∀ j, (tbl' j).type ≠ 0 → j ≠ i := by
    rintro j hj rfl
    rw [ht, Function.update_self] at hj
    exact hj hi
  have htbl : ∀ j, j ≠ i → tbl' j = s.dinode j := by
    intro j hj
    rw [ht, Function.update_of_ne hj]
  have hptr : ∀ j p, j ≠ i → (s.dinode j).type ≠ 0 →
      pointer s'.block (tbl' j) p = pointer s.block (s.dinode j) p := by
    intro j p hj hu
    rw [htbl j hj]
    cases p with
    | indirect => rfl
    | data k =>
        rw [pointer_data, pointer_data]
        by_cases h0 : (s.dinode j).addrs NDIRECT = 0
        · have hz : (s.dinode j).addrs NDIRECT = 0 ∨ MAXFILE ≤ k := .inl h0
          rw [if_pos hz, if_pos hz]
        · have hnot : blockNo ((s.dinode j).addrs NDIRECT) ∉ l :=
            hother j .indirect hj ⟨hu, h0⟩
          rw [hb, if_neg hnot]
  have hr : ∀ j p, Reaches s' tbl' j p ↔ j ≠ i ∧ Reaches s s.dinode j p := by
    intro j p
    constructor
    · rintro ⟨hu, hz⟩
      have hj := hne j hu
      rw [htbl j hj] at hu
      exact ⟨hj, hu, by rwa [hptr j p hj hu] at hz⟩
    · rintro ⟨hj, hu, hz⟩
      exact ⟨by rwa [htbl j hj], by rwa [hptr j p hj hu]⟩
  have hat : ∀ j p, j ≠ i → Reaches s s.dinode j p →
      blockAt s' tbl' j p = blockAt s s.dinode j p := by
    intro j p hj hu
    rw [blockAt, hptr j p hj hu.inUse, blockAt]
  have hstart : dataStart s' = dataStart s := by rw [dataStart, dataStart, hs, hn]
  exact {
    fits := hs ▸ h.fits
    range := by
      intro j p hj
      obtain ⟨hji, hj⟩ := (hr j p).mp hj
      rw [hat j p hji hj, hstart, hs]
      exact h.range j p hj
    distinct := by
      intro j p k q hj hk he
      obtain ⟨hji, hj⟩ := (hr j p).mp hj
      obtain ⟨hki, hk⟩ := (hr k q).mp hk
      rw [hat j p hji hj, hat k q hki hk] at he
      exact h.distinct j p k q hj hk he
    marked := by
      intro b hlt
      rw [hs] at hlt
      rw [hm, hstart, Bool.and_eq_true, h.marked b hlt, decide_eq_true_iff]
      constructor
      · rintro ⟨hlo | ⟨j, p, hj, rfl⟩, hnot⟩
        · exact .inl hlo
        · have hji : j ≠ i := by
            rintro rfl
            exact hnot ((hl _).mpr ⟨p, hj, rfl⟩)
          exact .inr ⟨j, p, (hr j p).mpr ⟨hji, hj⟩, hat j p hji hj⟩
      · rintro (hlo | ⟨j, p, hj, rfl⟩)
        · refine ⟨.inl hlo, fun hmem => ?_⟩
          obtain ⟨q, hq, rfl⟩ := (hl b).mp hmem
          have := (h.range i q hq).1
          omega
        · obtain ⟨hji, hj⟩ := (hr j p).mp hj
          rw [hat j p hji hj]
          exact ⟨.inr ⟨j, p, hj, rfl⟩, hother j p hji hj⟩
    clean := by
      intro b hlt hfree o
      rw [hb]
      by_cases hmem : b ∈ l
      · rw [if_pos hmem]
      · rw [if_neg hmem]
        have hfree' : s.bitmap b = false := by simpa [hm, hmem] using hfree
        exact h.clean b (hs ▸ hlt) hfree' o
    plainIndirect := by
      intro j hj
      have hji := hne j hj
      rw [htbl j hji] at hj ⊢
      exact h.plainIndirect j hj
    plain := by
      intro j k hj hplain
      have hji := hne j hj
      rw [htbl j hji] at hj hplain
      rw [hptr j _ hji hj]
      exact h.plain j k hj hplain
    checked := by
      intro j k hj hreach
      obtain ⟨hji, hreach⟩ := (hr j _).mp hreach
      rw [htbl j hji] at hj
      rw [hat j _ hji hreach, hptr j _ hji hreach.inUse, hb,
        if_neg (hother j _ hji hreach)]
      exact h.checked j k hj hreach
    size_le := by
      intro j hj
      have hji := hne j hj
      rw [htbl j hji] at hj ⊢
      exact h.size_le j hj
    covered := by
      intro j k hj hk
      have hji := hne j hj
      rw [htbl j hji] at hj hk
      rw [hptr j _ hji hj]
      exact h.covered j k hj hk }

/-! ## Deleting -/

/-- The last `iput` of a file frees exactly the blocks that the inode reaches, each once. -/
structure FreesExactly (s : Fs) (i : ℕ) (t : Fs) : Prop where
  returns : iput s i = .ok t
  frees : ∃ l, t.freed = s.freed ++ l ∧ l.Nodup ∧
    ∀ b, b ∈ l ↔ ∃ p, Reaches s s.dinode i p ∧ blockAt s s.dinode i p = b

theorem iput_deletes (h : Valid s) (hc : s.inode i = some ip) (hlinks : ip.nlink = 0)
    (hp : PlainIndirect s ip) : ∃ t, FreesExactly s i t ∧ Valid t := by
  obtain ⟨hd, hi⟩ := h.cached i ip hc
  obtain ⟨ip', htrunc, -, -, -⟩ := itrunc_eq h.sound hd hi hp
  obtain ⟨hsize, hninodes, hdinode, hinode, -⟩ := freeAll_rest s (blocksAt s ip allPositions)
  have hreach := fun b => mem_blocksAt_iff_reaches (b := b) hd hi
  have hret : iput s i = .ok { iupdate (s.freeAll (blocksAt s ip allPositions)) i
      { ip' with type := 0 } with inode := Function.update s.inode i none } := by
    unfold iput
    simp only [hc, if_pos hlinks, htrunc, ok_bind]
    simp [iupdate, hinode]
  refine ⟨_, ⟨hret, _, freeAll_freed s _, h.sound.blocksAt_nodup hd hi, hreach⟩, ?_, ?_⟩
  · have hfree : ({ ip' with type := 0 } : Inode).type = 0 := rfl
    refine h.sound.release hsize hninodes hreach (freeAll_bitmap s _) (freeAll_block s _) ?_ hfree
    simp [iupdate, hdinode]
  · intro j jp hj
    have hji : j ≠ i := by
      rintro rfl
      simp at hj
    have hj' : s.inode j = some jp := by simpa [hji] using hj
    have := h.cached j jp hj'
    simpa [iupdate, hji, hdinode] using this

/-! ## Every reachable state -/

/-- An inode is only deleted without checksums in its indirect block. -/
def PlainDeletion (s : Fs) : Call → Prop
  | .iput i => ∀ ip ∈ s.inode i, ip.nlink = 0 → PlainIndirect s ip
  | _ => True

instance PlainDeletion.decidable (s : Fs) : ∀ a, Decidable (PlainDeletion s a)
  | .iput i => inferInstanceAs (Decidable (∀ ip ∈ s.inode i, _))
  | .create .. | .writei .. | .readi .. | .stati _ | .link .. | .evict _ => isTrue trivial

/-- `balloc` finds a block on the disk whenever it looks for one, and deletions are plain. -/
def DeletesPlain (s : Fs) (a : Call) : Prop :=
  (∀ t ∈ step s a, t.exhausted = false) ∧ PlainDeletion s a

instance (s : Fs) (a : Call) : Decidable (DeletesPlain s a) := inferInstanceAs (Decidable (_ ∧ _))

theorem deletes_eq_true {a : Call} (h : deletes s a = true) :
    ∃ i ip, a = .iput i ∧ s.inode i = some ip ∧ ip.nlink = 0 := by
  cases a with
  | iput i =>
      obtain ⟨ip, hip, hl⟩ := Option.any_eq_true _ _ |>.mp h
      exact ⟨i, ip, rfl, hip, of_decide_eq_true hl⟩
  | _ => cases h

theorem valid_of_run_deletes {t : Fs} (h : Valid s) (hrun : Run step DeletesPlain s t) :
    Valid t := by
  refine hrun.invariant h fun t a u hv hok hs => ?_
  obtain ⟨r, hc⟩ := step_eq_some.mp hs
  cases hdel : deletes t a with
  | false => exact call_valid hv hc (hok.1 u hs) hdel
  | true =>
      obtain ⟨i, ip, rfl, hip, hl⟩ := deletes_eq_true hdel
      obtain ⟨w, hfrees, hw⟩ := iput_deletes hv hip hl (hok.2 ip hip hl)
      obtain ⟨w', hw', hc⟩ := bind_eq_ok.mp hc
      obtain ⟨rfl, -⟩ := Prod.mk.inj (Except.ok.inj hc)
      rw [hfrees.returns] at hw'
      exact Except.ok.inj hw' ▸ hw

/-- What the allocator promises: no block is reached twice, the bitmap marks the reserved blocks and
those that are reached, and a deletion frees the blocks of its inode. -/
structure BlocksAccounted (s : Fs) : Prop where
  distinct : ∀ i p j q, Reaches s s.dinode i p → Reaches s s.dinode j q →
    blockAt s s.dinode i p = blockAt s s.dinode j q → i = j ∧ p = q
  exact : ∀ b < s.size, s.bitmap b = true ↔
    b < dataStart s ∨ ∃ i p, Reaches s s.dinode i p ∧ blockAt s s.dinode i p = b
  deletion : ∀ i, ∀ ip ∈ s.inode i, ip.nlink = 0 → PlainIndirect s ip → ∃ t, FreesExactly s i t

theorem blocksAccounted_of_run {t : Fs} (h : Initial s) (hrun : Run step DeletesPlain s t) :
    BlocksAccounted t := by
  have hv := valid_of_run_deletes h.valid hrun
  exact ⟨hv.sound.distinct, hv.sound.marked,
    fun i ip hip hl hp => (iput_deletes hv hip hl hp).imp fun _ h => h.1⟩

end

/-- A file with one block behind the direct ones loses its only link. -/
def unlinked (type : FileType) : List Call :=
  [.create type 0 0, .writei 1 (fun x => if x = 6144 then 1 else 0) 0 6145, .link 1 (-1)]

/-- The plain file goes, then a short checked one comes and goes. -/
theorem unlinked_blocksAccounted : ∃ t, play step (unlinked .file ++ [.iput 1, .create .checked 0 0,
    .writei 1 (fun _ => 9) 0 5, .link 1 (-1), .iput 1]) emptyFs = some t ∧ BlocksAccounted t := by
  have hsome : (play step (unlinked .file ++ [.iput 1, .create .checked 0 0,
    .writei 1 (fun _ => 9) 0 5, .link 1 (-1), .iput 1]) emptyFs).isSome = true := by decide +kernel
  have hok : PlayOk step DeletesPlain (unlinked .file ++ [.iput 1, .create .checked 0 0,
    .writei 1 (fun _ => 9) 0 5, .link 1 (-1), .iput 1]) emptyFs := by decide +kernel
  obtain ⟨t, ht⟩ := Option.isSome_iff_exists.mp hsome
  exact ⟨t, ht, blocksAccounted_of_run emptyFs_initial (.of_playOk hok ht)⟩

/-- The arguments of `bfree` so far, also when the kernel has panicked. -/
def freedBy : Kern Fs → List ℕ
  | .ok t => t.freed
  | .error h => h.fs.freed

/-- Deleting the checked file passes to `bfree` a number that no pointer names: the block of the
last byte together with its checksum. -/
theorem checked_frees_no_block : Initial emptyFs ∧
    ∃ t, play step (unlinked .checked) emptyFs = some t ∧ t.exhausted = false ∧
      ∃ n ∈ freedBy (iput t 1), ∀ i p, blockAt t t.dinode i p ≠ n := by
  refine ⟨emptyFs_initial, ?_⟩
  have hrun : (play step (unlinked .checked) emptyFs).map (fun t =>
      !t.exhausted && (freedBy (iput t 1)).contains (2 ^ 24 + 18)) = some true := by decide +kernel
  obtain ⟨t, ht, hboth⟩ := Option.map_eq_some_iff.mp hrun
  obtain ⟨hroom, hmem⟩ := Bool.and_eq_true_iff.mp hboth
  refine ⟨t, ht, by simpa using hroom, 2 ^ 24 + 18, by simpa using hmem, fun i p he => ?_⟩
  have := blockNo_lt (pointer t.block (t.dinode i) p)
  rw [blockAt] at he
  omega

end IntroToOS.CheckedFs

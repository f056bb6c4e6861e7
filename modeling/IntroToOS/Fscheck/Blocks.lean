import IntroToOS.Fscheck.Check
import IntroToOS.Lib.Fold
import Mathlib.Data.List.Nodup

/-! # What the bitmap passes accept

Every call of `check_balloced` claims one block: its bit must be set in the image and still be set
in the working copy, where it is then cleared. So the blocks claimed in a normal run, in the order
of the calls, are pairwise distinct, and the final sweep leaves no other bit set
(`main_ok_claims`). For an accepted image the map from positions to blocks is therefore sound
exactly when it avoids two gaps of the range checks: block 1024 is let through, and the words
behind the indirect block are followed for an inode larger than `MAXFILE` blocks
(`blocksSound_iff_of_main_ok`).
-/

namespace IntroToOS.Fscheck
open Lib
set_option autoImplicit false

/-! ## What the image says -/

def inodeType (img : Image) (i : ℕ) : ℕ := (u16 img (dinode i)).toNat

def inodeSize (img : Image) (i : ℕ) : ℕ := (u32 img (dinode i + 8)).toNat

def numBlocks (img : Image) (i : ℕ) : ℕ := n_blocks (inodeSize img i)

def InUse (img : Image) (i : ℕ) : Prop := i < NINODES ∧ inodeType img i ≠ 0

def bitmap (img : Image) : ℕ → Byte := fun i => img (rsect 28 + i)

/-- A place of an inode that names a block: its indirect block or its data block `k`. -/
inductive Position
  | indirect
  | data (k : ℕ)
  deriving DecidableEq

def indirectBlock (img : Image) (i : ℕ) : ℕ := (u32 img (dinode i + 12 + 4 * NDIRECT)).toNat

def blockOf (img : Image) (i : ℕ) : Position → ℕ
  | .indirect => indirectBlock img i
  | .data k =>
    if k < NDIRECT then (u32 img (dinode i + 12 + 4 * k)).toNat
    else (u32 img (rsect (indirectBlock img i) + 4 * (k - NDIRECT))).toNat

/-- The positions within the size of an in-use inode that the on-disk format has. -/
def Used (img : Image) (i : ℕ) (p : Position) : Prop :=
  InUse img i ∧ match p with
    | .indirect => NDIRECT < numBlocks img i
    | .data k => k < numBlocks img i ∧ k < MAXFILE

/-- The map from positions to blocks is injective into the data region, and the bitmap marks
exactly its image and the reserved blocks. -/
structure BlocksSound (img : Image) : Prop where
  injective : ∀ i p j q, Used img i p → Used img j q → blockOf img i p = blockOf img j q →
    i = j ∧ p = q
  inRegion : ∀ i p, Used img i p → 29 ≤ blockOf img i p ∧ blockOf img i p ≤ 1023
  marked : ∀ b < 4096, bit (bitmap img) b = true ↔
    b < 29 ∨ ∃ i p, Used img i p ∧ blockOf img i p = b

/-- No in-use inode is larger than the format allows, and none uses block 1024. -/
def EdgeFree (img : Image) : Prop :=
  (∀ i, InUse img i → inodeSize img i ≤ MAXFILE * BSIZE) ∧
    ∀ i p, Used img i p → blockOf img i p ≠ 1024

/-! ## Claiming blocks -/

/-- The blocks of `l` can be claimed one after the other when `f` is the working bitmap. -/
def Claims (img : Image) (f : ℕ → Byte) (l : List ℕ) : Prop :=
  l.Nodup ∧ ∀ b ∈ l, bit (bitmap img) b = true ∧ bit f b = true

theorem claims_append {img : Image} {f : ℕ → Byte} {l m : List ℕ} :
    Claims img f (l ++ m) ↔ Claims img f l ∧ Claims img (l.foldl clearBit f) m := by
  unfold Claims
  constructor
  · rintro ⟨hnd, hall⟩
    obtain ⟨hl, hm, hdisj⟩ := List.nodup_append.mp hnd
    refine ⟨⟨hl, fun b hb => hall b (List.mem_append_left _ hb)⟩, hm, fun b hb => ?_⟩
    obtain ⟨h1, h2⟩ := hall b (List.mem_append_right _ hb)
    have hbl : b ∉ l := fun h => hdisj b h b hb rfl
    exact ⟨h1, by rw [bit_clearBits, h2]; simpa using hbl⟩
  · rintro ⟨⟨hl, hall⟩, hm, hall'⟩
    have hrest : ∀ b ∈ m, bit f b = true ∧ b ∉ l := by
      intro b hb
      have hbit := (hall' b hb).2
      rw [bit_clearBits] at hbit
      simpa using hbit
    refine ⟨List.nodup_append.mpr ⟨hl, hm, ?_⟩, ?_⟩
    · rintro a ha b hb rfl
      exact (hrest a hb).2 ha
    · intro b hb
      rcases List.mem_append.mp hb with h | h
      · exact hall b h
      · exact ⟨(hall' b h).1, (hrest b h).1⟩

theorem check_balloced_eq_ok {img : Image} {s t : Globals} {b : ℕ} (hb : b < 4096) :
    check_balloced img s b = .ok t ↔
      (bit (bitmap img) b = true ∧ bit s.my_bitmap b = true) ∧
        t = { s with my_bitmap := clearBit s.my_bitmap b } := by
  have hsect : rsect (BBLOCK b NINODES) = rsect 28 := by
    have : b / (BSIZE * 8) = 0 := Nat.div_eq_of_lt hb
    rw [BBLOCK, this]
    rfl
  have hoff : b / 8 < 512 := by omega
  have hread : readByte img (rsect (BBLOCK b NINODES) + b / 8) = .ok (bitmap img (b / 8)) := by
    rw [hsect]
    exact if_pos (show 14336 + b / 8 < 524288 by omega)
  have hidx : index (b / 8) 512 = .ok () := if_pos hoff
  simp only [check_balloced, hread, hidx, bind_eq_ok, Except.ok.injEq, exists_eq_left', fail,
    throwIf_eq_ok, pure, Except.pure, exists_const, and_assoc, Bool.not_eq_false, true_and]
  simp only [bit, eq_comm (a := t)]

theorem foldlM_check_balloced_eq_ok {img : Image} {l : List ℕ} {s t : Globals}
    (hl : ∀ b ∈ l, b < 4096) :
    l.foldlM (check_balloced img) s = .ok t ↔
      Claims img s.my_bitmap l ∧ t = { s with my_bitmap := l.foldl clearBit s.my_bitmap } := by
  induction l generalizing s with
  | nil =>
      rw [foldlM_nil_eq_ok, eq_comm]
      simp [Claims]
  | cons b l ih =>
      have hsplit : Claims img s.my_bitmap (b :: l) ↔
          (bit (bitmap img) b = true ∧ bit s.my_bitmap b = true) ∧
            Claims img (clearBit s.my_bitmap b) l := by
        rw [← List.singleton_append, claims_append]
        simp [Claims]
      rw [foldlM_cons_eq_ok, hsplit]
      simp only [check_balloced_eq_ok (hl b List.mem_cons_self), and_assoc]
      constructor
      · rintro ⟨u, h1, h2, rfl, h3⟩
        obtain ⟨h4, rfl⟩ := (ih fun c hc => hl c (List.mem_cons_of_mem b hc)).mp h3
        exact ⟨h1, h2, h4, rfl⟩
      · rintro ⟨h1, h2, h3, rfl⟩
        refine ⟨_, h1, h2, rfl, (ih fun c hc => hl c (List.mem_cons_of_mem b hc)).mpr ⟨h3, rfl⟩⟩

/-! ## The addresses of one inode -/

theorem readU32_eq_ok {img : Image} {off n : ℕ} :
    readU32 img off = .ok n ↔ off + 4 ≤ IMAGE_SIZE ∧ n = (u32 img off).toNat := by
  unfold readU32
  by_cases h : off + 4 ≤ IMAGE_SIZE <;> simp [h, eq_comm]

theorem dinode_le {i : ℕ} (hi : i < NINODES) : dinode i + 64 ≤ IMAGE_SIZE := by
  show 1024 + 64 * i + 64 ≤ 524288
  have : i < 200 := hi
  omega

def positions (n : ℕ) : List Position :=
  (if NDIRECT < n then [.indirect] else []) ++ (List.range n).map .data

/-- The addresses `check_inode_addrs` looks at, in its order. -/
def refs (img : Image) (i : ℕ) : List ℕ := (positions (numBlocks img i)).map (blockOf img i)

/-- Every word of an indirect block that the size asks for is inside the image. -/
def IndirectReadable (img : Image) (i : ℕ) : Prop :=
  ∀ k < numBlocks img i, NDIRECT ≤ k →
    rsect (indirectBlock img i) + 4 * (k - NDIRECT) + 4 ≤ IMAGE_SIZE

theorem indirectAddr_eq {img : Image} {i : ℕ} (hi : i < NINODES) (n : ℕ) :
    indirectAddr img (dinode i) n = .ok (if NDIRECT < n then indirectBlock img i else 0) := by
  have hle := dinode_le hi
  unfold indirectAddr
  split
  · exact readU32_eq_ok.mpr ⟨by omega, rfl⟩
  · rfl

theorem blockAddr_eq_ok {img : Image} {i k b : ℕ} (hi : i < NINODES) {ind : ℕ}
    (hind : NDIRECT ≤ k → ind = indirectBlock img i) :
    blockAddr img (dinode i) ind k = .ok b ↔
      (NDIRECT ≤ k → rsect (indirectBlock img i) + 4 * (k - NDIRECT) + 4 ≤ IMAGE_SIZE) ∧
        b = blockOf img i (.data k) := by
  have hle := dinode_le hi
  unfold blockAddr blockOf
  by_cases hk : k < NDIRECT
  · simp only [hk, if_true, readU32_eq_ok]
    have h12 : k < 12 := hk
    constructor
    · exact fun h => ⟨fun h' => absurd hk (Nat.not_lt.mpr h'), h.2⟩
    · exact fun h => ⟨by omega, h.2⟩
  · have hk' : NDIRECT ≤ k := Nat.not_lt.mp hk
    simp only [hk, if_false, hind hk', readU32_eq_ok, hk', forall_const]

theorem check_addr_eq_ok {img : Image} {s t : Globals} {a : ℕ} :
    check_addr img s a = .ok t ↔ (29 ≤ a ∧ a ≤ 1024) ∧ check_balloced img s a = .ok t := by
  unfold check_addr fail
  rw [throwIf_eq_ok, not_or, Nat.not_lt, Nat.not_lt]

theorem foldlM_check_addr_eq_ok {img : Image} {l : List ℕ} {s t : Globals} :
    l.foldlM (check_addr img) s = .ok t ↔ (∀ a ∈ l, 29 ≤ a ∧ a ≤ 1024) ∧
      Claims img s.my_bitmap l ∧ t = { s with my_bitmap := l.foldl clearBit s.my_bitmap } := by
  rw [foldlM_guard (f := check_addr img) fun _ _ _ _ => check_addr_eq_ok]
  refine and_congr_right fun hr => foldlM_check_balloced_eq_ok fun b hb => ?_
  have := (hr b hb).2
  omega

theorem check_inode_addrs_eq_ok {img : Image} {s t : Globals} {i : ℕ} (hi : i < NINODES) :
    check_inode_addrs img s i = .ok t ↔ IndirectReadable img i ∧
      (∀ a ∈ refs img i, 29 ≤ a ∧ a ≤ 1024) ∧ Claims img s.my_bitmap (refs img i) ∧
      t = { s with my_bitmap := (refs img i).foldl clearBit s.my_bitmap } := by
  have hsize : readU32 img (dinode i + 8) = .ok (inodeSize img i) :=
    readU32_eq_ok.mpr ⟨by have := dinode_le hi; omega, rfl⟩
  have hloop : ∀ u, (List.range (numBlocks img i)).foldlM (fun s k => do
      let curr_addr ← blockAddr img (dinode i)
        (if NDIRECT < numBlocks img i then indirectBlock img i else 0) k
      check_addr img s curr_addr) u = .ok t ↔ IndirectReadable img i ∧
        ((List.range (numBlocks img i)).map fun k => blockOf img i (.data k)).foldlM
          (check_addr img) u = .ok t := by
    intro u
    have hread : ∀ k ∈ List.range (numBlocks img i), ∀ b, blockAddr img (dinode i)
        (if NDIRECT < numBlocks img i then indirectBlock img i else 0) k = .ok b ↔
          (NDIRECT ≤ k → rsect (indirectBlock img i) + 4 * (k - NDIRECT) + 4 ≤ IMAGE_SIZE) ∧
            b = blockOf img i (.data k) := fun k hk b =>
      blockAddr_eq_ok hi fun hle => if_pos (Nat.lt_of_le_of_lt hle (List.mem_range.mp hk))
    rw [foldlM_read hread]
    simp only [List.mem_range, IndirectReadable]
  have hn : n_blocks (inodeSize img i) = numBlocks img i := rfl
  rw [← foldlM_check_addr_eq_ok, refs, positions]
  simp only [check_inode_addrs, hsize, bind_eq_ok, Except.ok.injEq, exists_eq_left',
    indirectAddr_eq hi, hn]
  by_cases hlt : NDIRECT < numBlocks img i
  · simp only [hlt, if_true] at hloop ⊢
    simp only [bind_eq_ok, hloop, List.singleton_append, List.map_cons, List.map_map,
      foldlM_cons_eq_ok, blockOf]
    exact ⟨fun ⟨u, h1, h2, h3⟩ => ⟨h2, u, h1, h3⟩, fun ⟨h2, u, h1, h3⟩ => ⟨u, h1, h2, h3⟩⟩
  · simp only [hlt, if_false] at hloop ⊢
    simp only [bind_eq_ok, pure, Except.pure, Except.ok.injEq, exists_eq_left', hloop,
      List.nil_append, List.map_map]
    exact Iff.rfl

/-! ## The other checks leave the working bitmap alone -/

theorem check_inode_alloced_my_bitmap {img : Image} {s t : Globals} {i : ℕ}
    (h : check_inode_alloced img s i = .ok t) : t.my_bitmap = s.my_bitmap := by
  obtain ⟨type, -, h⟩ := bind_eq_ok.mp h
  split at h
  · cases h
  · split at h
    · obtain ⟨-, -, h⟩ := bind_eq_ok.mp h
      cases h
      rfl
    · cases h
      rfl

theorem check_parent_dir_my_bitmap {img : Image} {s t : Globals} {p c : ℕ}
    (h : check_parent_dir img s p c = .ok t) : t.my_bitmap = s.my_bitmap := by
  obtain ⟨type, -, h⟩ := bind_eq_ok.mp h
  have hend : ∀ seen : Bool, (if seen = false ∧ c ≠ 1 then pure { s with parent_mismatch_seen := true }
      else pure s : Check Globals) = .ok t → t.my_bitmap = s.my_bitmap := by
    intro seen hs
    split at hs <;> cases hs <;> rfl
  split at h
  · obtain ⟨size, -, h⟩ := bind_eq_ok.mp h
    obtain ⟨indirect, -, h⟩ := bind_eq_ok.mp h
    obtain ⟨seen, -, h⟩ := bind_eq_ok.mp h
    exact hend seen h
  · obtain ⟨seen, -, h⟩ := bind_eq_ok.mp h
    exact hend seen h

theorem check_child_dir_my_bitmap {img : Image} {s t : Globals} {d c : ℕ}
    (h : check_child_dir img s d c = .ok t) : t.my_bitmap = s.my_bitmap := by
  obtain ⟨type, -, h⟩ := bind_eq_ok.mp h
  split at h
  · obtain ⟨-, -, h⟩ := bind_eq_ok.mp h
    split at h
    · cases h
      rfl
    · cases h
  · cases h
    rfl

theorem check_entry_name_my_bitmap {img : Image} {d : ℕ} {t u : DirScan} {e : Dirent}
    (h : check_entry_name img d t e = .ok u) : u.globals.my_bitmap = t.globals.my_bitmap := by
  unfold check_entry_name at h
  split at h
  · cases h
    rfl
  · split at h
    · obtain ⟨s, hs, h⟩ := bind_eq_ok.mp h
      cases h
      refine (check_parent_dir_my_bitmap hs).trans ?_
      split <;> rfl
    · obtain ⟨s, hs, h⟩ := bind_eq_ok.mp h
      cases h
      exact check_child_dir_my_bitmap hs

theorem check_dir_entry_my_bitmap {img : Image} {d : ℕ} {t u : DirScan} {e : Dirent}
    (h : check_dir_entry img d t e = .ok u) : u.globals.my_bitmap = t.globals.my_bitmap := by
  obtain ⟨v, hv, h⟩ := bind_eq_ok.mp h
  obtain ⟨s, hs, h⟩ := bind_eq_ok.mp h
  obtain ⟨-, -, h⟩ := bind_eq_ok.mp h
  cases h
  exact (check_inode_alloced_my_bitmap hs).trans (check_entry_name_my_bitmap hv)

theorem check_dir_block_my_bitmap {img : Image} {d j off : ℕ} {t u : DirScan}
    (h : check_dir_block img d j off t = .ok u) : u.globals.my_bitmap = t.globals.my_bitmap := by
  induction j generalizing off t with
  | zero =>
      cases h
      rfl
  | succ j ih =>
      obtain ⟨e, -, h⟩ := bind_eq_ok.mp h
      split at h
      · cases h
        rfl
      · obtain ⟨v, hv, h⟩ := bind_eq_ok.mp h
        exact (ih h).trans (check_dir_entry_my_bitmap hv)

theorem check_dir_inode_my_bitmap {img : Image} {s t : Globals} {d : ℕ}
    (h : check_dir_inode img s d = .ok t) : t.my_bitmap = s.my_bitmap := by
  obtain ⟨size, -, h⟩ := bind_eq_ok.mp h
  obtain ⟨indirect, -, h⟩ := bind_eq_ok.mp h
  obtain ⟨v, hv, h⟩ := bind_eq_ok.mp h
  have hloop : v.globals.my_bitmap = s.my_bitmap := by
    refine foldlM_same (g := fun v : DirScan => v.globals.my_bitmap) hv fun k v w hw => ?_
    obtain ⟨buf, -, hw⟩ := bind_eq_ok.mp hw
    exact check_dir_block_my_bitmap hw
  split at h
  · cases h
  · cases h
    exact hloop

theorem note_inode_my_bitmap {img : Image} {s t : Globals} {i : ℕ}
    (h : note_inode img s i = .ok t) : t.my_bitmap = s.my_bitmap := by
  obtain ⟨type, -, h⟩ := bind_eq_ok.mp h
  split at h
  · cases h
    rfl
  · obtain ⟨-, -, h⟩ := bind_eq_ok.mp h
    split at h
    · obtain ⟨nlink, -, h⟩ := bind_eq_ok.mp h
      cases h
      rfl
    · cases h
      rfl

/-! ## The whole program -/

/-- The blocks the second pass claims for inode `i`. -/
def inodeRefs (img : Image) (i : ℕ) : List ℕ := if inodeType img i = 0 then [] else refs img i

theorem readU16_eq_ok {img : Image} {off n : ℕ} :
    readU16 img off = .ok n ↔ off + 2 ≤ IMAGE_SIZE ∧ n = (u16 img off).toNat := by
  unfold readU16
  by_cases h : off + 2 ≤ IMAGE_SIZE <;> simp [h, eq_comm]

theorem readType {img : Image} {i : ℕ} (hi : i < NINODES) :
    readU16 img (dinode i) = .ok (inodeType img i) :=
  readU16_eq_ok.mpr ⟨by have := dinode_le hi; omega, rfl⟩

theorem check_inode_claims {img : Image} {s t : Globals} {i : ℕ} (hi : i < NINODES)
    (h : check_inode img s i = .ok t) :
    (∀ a ∈ inodeRefs img i, 29 ≤ a ∧ a ≤ 1024) ∧ Claims img s.my_bitmap (inodeRefs img i) ∧
      t.my_bitmap = (inodeRefs img i).foldl clearBit s.my_bitmap := by
  rw [check_inode, readType hi, bind_eq_ok] at h
  obtain ⟨type, htype, h⟩ := h
  obtain rfl : inodeType img i = type := Except.ok.inj htype
  unfold inodeRefs
  split at h
  · next h0 =>
    cases h
    simp [h0, Claims]
  · next h0 =>
    simp only [h0, if_false]
    split at h
    · obtain ⟨-, hr, hc, rfl⟩ := (check_inode_addrs_eq_ok hi).mp h
      exact ⟨hr, hc, rfl⟩
    · split at h
      · obtain ⟨u, hu, h⟩ := bind_eq_ok.mp h
        obtain ⟨-, hr, hc, rfl⟩ := (check_inode_addrs_eq_ok hi).mp hu
        exact ⟨hr, hc, check_dir_inode_my_bitmap h⟩
      · cases h

theorem foldlM_check_inode_claims {img : Image} {l : List ℕ} (hl : ∀ i ∈ l, i < NINODES)
    {s t : Globals} (h : l.foldlM (check_inode img) s = .ok t) :
    (∀ a ∈ l.flatMap (inodeRefs img), 29 ≤ a ∧ a ≤ 1024) ∧
      Claims img s.my_bitmap (l.flatMap (inodeRefs img)) ∧
      t.my_bitmap = (l.flatMap (inodeRefs img)).foldl clearBit s.my_bitmap := by
  induction l generalizing s with
  | nil =>
      rw [foldlM_nil_eq_ok] at h
      simp [h, Claims]
  | cons i l ih =>
      obtain ⟨u, hu, h⟩ := foldlM_cons_eq_ok.mp h
      obtain ⟨hr, hc, hb⟩ := check_inode_claims (hl i List.mem_cons_self) hu
      obtain ⟨hr', hc', hb'⟩ := ih (fun j hj => hl j (List.mem_cons_of_mem i hj)) h
      rw [List.flatMap_cons]
      refine ⟨?_, claims_append.mpr ⟨hc, hb ▸ hc'⟩, ?_⟩
      · intro a ha
        rcases List.mem_append.mp ha with ha | ha
        · exact hr a ha
        · exact hr' a ha
      · rw [hb', hb, List.foldl_append]

/-- All blocks claimed for inodes, in the order of the calls. -/
def allRefs (img : Image) : List ℕ := (List.range NINODES).flatMap (inodeRefs img)

/-- In an accepted image the blocks of the inodes and the reserved blocks are pairwise distinct
and are exactly those marked in the bitmap. -/
theorem main_ok_claims {img : Image} (hn : ninodes img = NINODES) (h : main img = .ok ()) :
    (∀ a ∈ allRefs img, 29 ≤ a ∧ a ≤ 1024) ∧ (allRefs img).Nodup ∧
      ∀ b < 4096, bit (bitmap img) b = true ↔ b < 29 ∨ b ∈ allRefs img := by
  unfold main at h
  obtain ⟨s₀, h₀, h⟩ := bind_eq_ok.mp h
  obtain ⟨s₁, h₁, h⟩ := bind_eq_ok.mp h
  obtain ⟨s₂, h₂, h⟩ := bind_eq_ok.mp h
  rw [hn] at h₀ h₁ h₂
  have hb₁ : s₁.my_bitmap = s₀.my_bitmap :=
    foldlM_same (g := Globals.my_bitmap) h₁ fun _ _ _ => note_inode_my_bitmap
  have hb₀ : ∀ b < 4096, bit s₀.my_bitmap b = bit (bitmap img) b := by
    intro b hb
    cases h₀
    have : b / 8 < 512 := by omega
    simp only [bit, this, if_true]
    rfl
  obtain ⟨hr, hc, hb₂⟩ := foldlM_check_inode_claims (fun i hi => List.mem_range.mp hi) h₂
  rw [hb₁] at hc hb₂
  split at h
  · cases h
  split at h
  · cases h
  obtain ⟨s₃, h₃, h⟩ := bind_eq_ok.mp h
  obtain ⟨hc₃, rfl⟩ := (foldlM_check_balloced_eq_ok fun b hb => by
    have := List.mem_range.mp hb
    omega).mp h₃
  obtain ⟨hnd, hall⟩ := claims_append.mpr ⟨hc, hb₂ ▸ hc₃⟩
  have hzero : ∀ i < 512, ((List.range 29).foldl clearBit s₂.my_bitmap) i = 0 := by
    unfold check_leftovers at h
    split at h
    · cases h
    · next hz => exact not_not.mp hz
  refine ⟨hr, (List.nodup_append.mp hnd).1, fun b hb => ?_⟩
  constructor
  · intro hbit
    have hz := (byte_eq_zero_iff _ (b / 8)).mp (hzero (b / 8) (by omega)) b rfl
    rw [hb₂, bit_clearBits, bit_clearBits, hb₀ b hb, hbit] at hz
    simp only [Bool.true_and, Bool.and_eq_false_iff, decide_eq_false_iff_not, not_not,
      List.mem_range] at hz
    exact hz.symm
  · rintro (h29 | hmem)
    · exact (hall b (List.mem_append_right _ (List.mem_range.mpr h29))).1
    · exact (hall b (List.mem_append_left _ hmem)).1

/-! ## Soundness of the block map -/

theorem mem_positions {n : ℕ} {p : Position} :
    p ∈ positions n ↔ match p with
      | .indirect => NDIRECT < n
      | .data k => k < n := by
  unfold positions
  cases p with
  | indirect => by_cases h : NDIRECT < n <;> simp [h]
  | data k => by_cases h : NDIRECT < n <;> simp [h]

/-- The positions the checker follows, with their inodes. -/
def followed (img : Image) : List (ℕ × Position) :=
  (List.range NINODES).flatMap fun i =>
    if inodeType img i = 0 then [] else (positions (numBlocks img i)).map fun p => (i, p)

theorem allRefs_eq (img : Image) :
    allRefs img = (followed img).map fun x => blockOf img x.1 x.2 := by
  unfold allRefs followed
  rw [List.map_flatMap]
  congr 1
  funext i
  unfold inodeRefs refs
  split
  · rfl
  · rw [List.map_map]
    rfl

theorem mem_followed {img : Image} {i : ℕ} {p : Position} :
    (i, p) ∈ followed img ↔ InUse img i ∧ p ∈ positions (numBlocks img i) := by
  unfold followed InUse
  simp only [List.mem_flatMap, List.mem_range]
  constructor
  · rintro ⟨j, hj, hmem⟩
    split at hmem
    · simp at hmem
    · next h0 =>
      obtain ⟨q, hq, he⟩ := List.mem_map.mp hmem
      obtain ⟨rfl, rfl⟩ := Prod.mk.inj he
      exact ⟨⟨hj, h0⟩, hq⟩
  · rintro ⟨⟨hi, h0⟩, hp⟩
    refine ⟨i, hi, ?_⟩
    rw [if_neg h0]
    exact List.mem_map.mpr ⟨p, hp, rfl⟩

theorem positions_nodup (n : ℕ) : (positions n).Nodup := by
  have hdata : ((List.range n).map Position.data).Nodup :=
    List.nodup_range.map fun _ _ h => Position.data.inj h
  unfold positions
  split
  · simpa using hdata
  · exact hdata

theorem followed_nodup (img : Image) : (followed img).Nodup := by
  refine List.nodup_flatMap.mpr ⟨fun i _ => ?_, ?_⟩
  · split
    · exact List.nodup_nil
    · exact (positions_nodup _).map fun _ _ h => (Prod.mk.inj h).2
  · refine List.nodup_range.imp fun {i j} hij x hx hx' => hij ?_
    simp only at hx hx'
    split at hx
    · simp at hx
    · split at hx'
      · simp at hx'
      · obtain ⟨p, -, rfl⟩ := List.mem_map.mp hx
        obtain ⟨q, -, he⟩ := List.mem_map.mp hx'
        exact (Prod.mk.inj he).1.symm

theorem Used.mem_followed {img : Image} {i : ℕ} {p : Position} (h : Used img i p) :
    (i, p) ∈ followed img := by
  refine Fscheck.mem_followed.mpr ⟨h.1, mem_positions.mpr ?_⟩
  cases p with
  | indirect => exact h.2
  | data k => exact h.2.1

theorem numBlocks_le_maxfile {img : Image} {i : ℕ} :
    numBlocks img i ≤ MAXFILE ↔ inodeSize img i ≤ MAXFILE * BSIZE := by
  unfold numBlocks n_blocks
  show _ ≤ 140 ↔ inodeSize img i ≤ 71680
  split <;> omega

/-- An accepted image is sound exactly when no in-use inode is larger than the format allows and
none uses block 1024. -/
theorem blocksSound_iff_of_main_ok (img : Image) (hn : ninodes img = NINODES)
    (h : main img = .ok ()) : BlocksSound img ↔ EdgeFree img := by
  obtain ⟨hr, hnd, hb⟩ := main_ok_claims hn h
  rw [allRefs_eq] at hr hnd hb
  have hinj : ∀ x ∈ followed img, ∀ y ∈ followed img,
      blockOf img x.1 x.2 = blockOf img y.1 y.2 → x = y :=
    fun x hx y hy he => List.inj_on_of_nodup_map hnd hx hy he
  have hrange : ∀ x ∈ followed img, 29 ≤ blockOf img x.1 x.2 ∧ blockOf img x.1 x.2 ≤ 1024 :=
    fun x hx => hr _ (List.mem_map.mpr ⟨x, hx, rfl⟩)
  constructor
  · intro hs
    refine ⟨fun i hi => ?_, fun i p hp => ?_⟩
    · -- a word behind the indirect block would be claimed without being a position of the format
      by_contra hlarge
      have hblocks : MAXFILE < numBlocks img i :=
        Nat.not_le.mp fun hle => hlarge (numBlocks_le_maxfile.mp hle)
      have hmem : (i, Position.data MAXFILE) ∈ followed img :=
        mem_followed.mpr ⟨hi, mem_positions.mpr hblocks⟩
      have hle : 29 ≤ blockOf img i (.data MAXFILE) ∧ blockOf img i (.data MAXFILE) ≤ 1024 :=
        hrange _ hmem
      have hbit := (hb (blockOf img i (.data MAXFILE)) (by omega)).mpr
        (.inr (List.mem_map.mpr ⟨_, hmem, rfl⟩))
      rcases (hs.marked _ (by omega)).mp hbit with h29 | ⟨j, p, hp, he⟩
      · omega
      · obtain ⟨rfl, rfl⟩ := Prod.mk.inj (hinj _ hp.mem_followed _ hmem he)
        exact Nat.lt_irrefl _ hp.2.2
    · have := (hs.inRegion i p hp).2
      omega
  · rintro ⟨hsize, hno⟩
    have hused : ∀ i p, (i, p) ∈ followed img → Used img i p := by
      intro i p hmem
      obtain ⟨hi, hp⟩ := mem_followed.mp hmem
      refine ⟨hi, ?_⟩
      have hp' := mem_positions.mp hp
      cases p with
      | indirect => exact hp'
      | data k => exact ⟨hp', Nat.lt_of_lt_of_le hp' (numBlocks_le_maxfile.mpr (hsize i hi))⟩
    refine ⟨?_, ?_, ?_⟩
    · intro i p j q hp hq he
      exact Prod.mk.inj (hinj _ hp.mem_followed _ hq.mem_followed he)
    · intro i p hp
      have hle := hrange _ hp.mem_followed
      have hne := hno i p hp
      simp only at hle
      omega
    · intro b hlt
      rw [hb b hlt]
      refine or_congr_right ⟨fun hmem => ?_, ?_⟩
      · obtain ⟨x, hx, rfl⟩ := List.mem_map.mp hmem
        exact ⟨x.1, x.2, hused _ _ hx, rfl⟩
      · rintro ⟨i, p, hp, rfl⟩
        exact List.mem_map.mpr ⟨_, hp.mem_followed, rfl⟩

/-! ## Two small images -/

/-- The byte at offset `i` of a block given by its non-zero bytes. -/
def bytes : List (ℕ × Byte) → ℕ → Byte
  | [], _ => 0
  | (k, b) :: l, i => bif Nat.beq i k then b else bytes l i

/-- An image of a root directory holding one file of one byte: the file's block is `256 * hi`, and
`mark` gives the bytes of the bitmap behind the third. -/
def oneFileImage (size hi : Byte) (mark : ℕ → Byte) : Image := fun off =>
  let i := off % BSIZE
  match off / BSIZE with
  | 1 => bytes [(1, 4), (4, 227), (5, 3), (8, 200)] i
  | 2 => bytes [(64, 1), (72, 48), (76, 29), (128, 2), (134, 1), (136, size), (141, hi)] i
  | 28 => bif Nat.blt i 3 then 255 else mark i
  | 29 => bytes [(0, 1), (2, 46), (16, 1), (18, 46), (19, 46), (32, 2), (34, 102)] i
  | _ => 0

/-- The file's block is 256. -/
def goodImage : Image := oneFileImage 1 1 (bytes [(3, 63), (32, 1)])

/-- The file's block is 1024. -/
def edgeImage : Image := oneFileImage 1 4 (bytes [(3, 63), (128, 1)])

/-- Both images have two inodes of one block each. -/
theorem used_oneFileImage {img : Image}
    (hin : ∀ i < NINODES, inodeType img i ≠ 0 → (i = 1 ∨ i = 2) ∧ numBlocks img i = 1)
    {i : ℕ} {p : Position} (h : Used img i p) : (i = 1 ∨ i = 2) ∧ p = .data 0 := by
  obtain ⟨hi, hn⟩ := hin i h.1.1 h.1.2
  refine ⟨hi, ?_⟩
  have hp := h.2
  rw [hn] at hp
  cases p with
  | indirect => exact absurd hp (by decide)
  | data k => rw [Nat.lt_one_iff.mp hp.1]

theorem goodImage_blocksSound : main goodImage = .ok () ∧ BlocksSound goodImage := by
  have hok : main goodImage = .ok () := by decide +kernel
  refine ⟨hok, (blocksSound_iff_of_main_ok goodImage (by decide +kernel) hok).mpr ⟨?_, ?_⟩⟩
  · have hsize : ∀ i < NINODES, inodeSize goodImage i ≤ MAXFILE * BSIZE := by decide +kernel
    exact fun i hi => hsize i hi.1
  · intro i p hp
    obtain ⟨rfl | rfl, rfl⟩ := used_oneFileImage (by decide +kernel) hp <;> decide +kernel

/-- `check_inode_addrs` accepts block 1024, which is behind the image. -/
theorem edgeImage_accepted :
    ninodes edgeImage = NINODES ∧ main edgeImage = .ok () ∧ ¬ BlocksSound edgeImage := by
  refine ⟨by decide +kernel, by decide +kernel, fun hs => ?_⟩
  have hused : Used edgeImage 2 (.data 0) :=
    ⟨⟨by decide, by decide +kernel⟩, by decide +kernel, by decide⟩
  have h1024 : blockOf edgeImage 2 (.data 0) = 1024 := by decide +kernel
  have := (hs.inRegion 2 _ hused).2
  omega

end IntroToOS.Fscheck

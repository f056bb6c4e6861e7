import IntroToOS.Mkfs.Layout

/-! # What iappend does

`iappend` works on a copy of the inode that it writes back at the end. `flush` is the disk with the
copy written back; in terms of it every turn of the loop takes the blocks that are missing and
writes one chunk.
-/

namespace IntroToOS.Mkfs
open Lib
open Fscheck (Image Position dinode positions n_blocks)
set_option autoImplicit false

def putInode (img : Image) (i : ℕ) (din : ℕ → Byte) : Image := fun x =>
  if dinode i ≤ x ∧ x < dinode i + 64 then din (x - dinode i) else img x

/-- The disk once `din` is written back. -/
def flush (s : Disk) (i : ℕ) (din : ℕ → Byte) : Disk := { s with img := putInode s.img i din }

section
variable {s : Disk} {f : Files} {owns : ℕ → Position → Prop} {place : ℕ → Position → ℕ}
  {i k : ℕ} {p : Position} {din : ℕ → Byte}

theorem putInode_in {img : Image} {x : ℕ} (hx : x < 64) :
    putInode img i din (dinode i + x) = din x := by
  rw [putInode, if_pos (by omega), Nat.add_sub_cancel_left]

theorem putInode_out {img : Image} {x : ℕ} (hx : x < dinode i ∨ dinode i + 64 ≤ x) :
    putInode img i din x = img x := if_neg (by omega)

theorem rsect_eq {sec : ℕ} (h : sec < 1024) :
    rsect s sec = some fun k => s.img (512 * sec + k) := by
  rw [rsect, if_pos (show sec < size from h)]
  simp only [Nat.mul_comm]

theorem dinode_split (i : ℕ) : 512 * i2b i + i % IPB * 64 = dinode i := by
  have h : i % 8 + 8 * (i / 8) = i := Nat.mod_add_div i 8
  show 512 * (i / 8 + 2) + i % 8 * 64 = 1024 + 64 * i
  omega

theorem i2b_lt (hi : i < 200) : i2b i < 1024 := by
  show i / 8 + 2 < 1024
  omega

theorem rinode_eq (hi : i < 200) : rinode s i = some fun k => s.img (dinode i + k) := by
  rw [rinode, rsect_eq (i2b_lt hi), ← dinode_split]
  simp only [Nat.add_assoc]
  rfl

theorem winode_eq (hi : i < 200) : winode s i din = some (flush s i din) := by
  rw [winode, rsect_eq (i2b_lt hi), flush]
  have himg : wsect s.img (i2b i) (fun k => if i % IPB * 64 ≤ k ∧ k < i % IPB * 64 + 64 then
      din (k - i % IPB * 64) else s.img (512 * i2b i + k)) = putInode s.img i din := by
    funext x
    have hsplit := dinode_split i
    have hmod : i % IPB < 8 := Nat.mod_lt i (by decide)
    unfold wsect putInode
    split
    · next hx =>
      dsimp only
      split
      · next hin => rw [if_pos (by omega)]; congr 1; omega
      · next hin => rw [if_neg (by omega)]; congr 1; omega
    · next hx => rw [if_neg (by omega)]
  exact congrArg (fun img => some { s with img := img }) himg

/-- A word of the copy stored is a word of the disk stored. -/
theorem flush_putU32 {x : ℕ} (hx : x + 4 ≤ 64) (v : BitVec 32) :
    flush s i (putU32 din x v) = { s with img := putU32 (flush s i din).img (dinode i + x) v } := by
  have himg : putInode s.img i (putU32 din x v) = putU32 (putInode s.img i din) (dinode i + x) v := by
    funext y
    unfold putInode putU32
    by_cases hin : dinode i ≤ y ∧ y < dinode i + 64
    · by_cases hw : x ≤ y - dinode i ∧ y - dinode i < x + 4
      · rw [if_pos hin, if_pos hw, if_pos (by omega)]
        congr 2
        omega
      · rw [if_pos hin, if_neg hw, if_neg (by omega)]
        exact (if_pos hin).symm
    · rw [if_neg hin, if_neg (by omega)]
      exact (if_neg hin).symm
  exact congrArg (fun img => ({ s with img := img } : Disk)) himg

/-- A data sector written before or after the copy. -/
theorem flush_wsect (s : Disk) (din : ℕ → Byte) {sec : ℕ} (hi : i < 200) (hsec : 29 ≤ sec)
    (buf : ℕ → Byte) :
    flush { s with img := wsect s.img sec buf } i din =
      { s with img := wsect (flush s i din).img sec buf } := by
  have hdi := dinode_eq i
  have himg : putInode (wsect s.img sec buf) i din = wsect (putInode s.img i din) sec buf := by
    funext y
    unfold putInode wsect
    by_cases hin : dinode i ≤ y ∧ y < dinode i + 64
    · rw [if_pos hin, if_neg (by omega)]
      exact (if_pos hin).symm
    · rw [if_neg hin]
      by_cases hw : sec * 512 ≤ y ∧ y < sec * 512 + 512
      · rw [if_pos hw, if_pos hw]
      · rw [if_neg hw, if_neg hw]
        exact (if_neg hin).symm
  exact congrArg (fun img => ({ s with img := img } : Disk)) himg

/-- A word of a sector stored is a word of the disk stored. -/
theorem wsect_putU32 (img : Image) {sec x : ℕ} (hx : x + 4 ≤ 512) (v : BitVec 32) :
    wsect img sec (putU32 (fun y => img (512 * sec + y)) x v) = putU32 img (512 * sec + x) v := by
  funext y
  unfold wsect putU32
  by_cases hin : sec * 512 ≤ y ∧ y < sec * 512 + 512
  · by_cases hw : x ≤ y - sec * 512 ∧ y - sec * 512 < x + 4
    · rw [if_pos hin, if_pos hw, if_pos (by omega)]
      congr 2
      omega
    · rw [if_pos hin, if_neg hw, if_neg (by omega)]
      exact congrArg img (by omega)
  · rw [if_neg hin, if_neg (by omega)]

theorem u32_flush {x : ℕ} (hx : x + 4 ≤ 64) :
    u32 (flush s i din).img (dinode i + x) = u32 din x :=
  u32_congr fun k hk => by rw [Nat.add_assoc]; exact putInode_in (by omega)

theorem flush_img_data (hi : i < 200) {x : ℕ} (hx : 14848 ≤ x) :
    (flush s i din).img x = s.img x := by
  have hdi := dinode_eq i
  exact putInode_out (by omega)

/-! ## Finding or taking a block -/

/-- A word is zero when its position has no block. -/
theorem Layout.word_eq_zero_iff (h : Layout s f owns place) (hi : i < 200)
    (hp : HasWord owns i p) : u32 s.img (loc place i p) = 0 ↔ ¬ owns i p := by
  refine ⟨fun h0 hown => ?_, fun hno => h.zero i p hi hno hp⟩
  have hrange := h.inRange i p hown
  have hhigh := h.high
  rw [h.word i p hown] at h0
  have := congrArg BitVec.toNat h0
  rw [BitVec.toNat_ofNat, Nat.mod_eq_of_lt (by omega)] at this
  have h29 : place i p = 0 := this
  omega

theorem Layout.word_toNat (h : Layout s f owns place) (hown : owns i p) :
    (u32 s.img (loc place i p)).toNat = place i p := by
  have hrange := h.inRange i p hown
  have hhigh := h.high
  rw [h.word i p hown, BitVec.toNat_ofNat, Nat.mod_eq_of_lt (by omega)]

/-- Position `p` of inode `i` has its block, which was there before or is the next free one. -/
def Got (owns owns' : ℕ → Position → Prop) (i : ℕ) (p : Position) (fb fb' : ℕ) : Prop :=
  owns i p ∧ owns' = owns ∧ fb' = fb ∨ ¬ owns i p ∧ owns' = ownsToo owns i p ∧ fb' = fb + 1

theorem Got.own {owns' : ℕ → Position → Prop} {fb fb' : ℕ} (h : Got owns owns' i p fb fb') :
    owns' i p := by
  obtain ⟨hown, rfl, -⟩ | ⟨-, rfl, -⟩ := h
  · exact hown
  · exact .inr ⟨rfl, rfl⟩

theorem getBlock_direct (h : Layout (flush s i din) f owns place) (hi : i < 200) (hk : k < 12)
    (hlen : ¬ owns i (.data k) → (f.bytes i).length ≤ 512 * k ∧ s.freeblock < 1024) :
    ∃ s' din' owns' place', getBlock s din k = some (s', din', place' i (.data k)) ∧
      Layout (flush s' i din') f owns' place' ∧
      Got owns owns' i (.data k) s.freeblock s'.freeblock := by
  have hword : HasWord owns i (.data k) := .inl hk
  have hloc : loc place i (.data k) = dinode i + addrOff k := by
    rw [loc, if_pos hk, addrOff, Nat.add_assoc]
  have hoff : addrOff k + 4 ≤ 64 := by unfold addrOff; omega
  have hread : u32 din (addrOff k) = u32 (flush s i din).img (loc place i (.data k)) := by
    rw [hloc, u32_flush hoff]
  rw [getBlock, if_pos (show k < Fscheck.NDIRECT from hk)]
  by_cases hown : owns i (.data k)
  · have hne : ¬ u32 din (addrOff k) = 0 := by
      rw [hread, h.word_eq_zero_iff hi hword]
      exact not_not.mpr hown
    refine ⟨s, din, owns, place, ?_, h, .inl ⟨hown, rfl, rfl⟩⟩
    rw [if_neg hne, hread, h.word_toNat hown]
  · obtain ⟨hl, hroom⟩ := hlen hown
    have heq : u32 din (addrOff k) = 0 := by
      rw [hread, h.word_eq_zero_iff hi hword]
      exact hown
    refine ⟨s.take, putU32 din (addrOff k) (BitVec.ofNat 32 s.freeblock), ownsToo owns i (.data k),
      placeToo (flush s i din) place i (.data k), ?_, ?_, .inr ⟨hown, rfl, rfl⟩⟩
    · rw [if_pos heq, placeToo_new]
      dsimp only
      rw [u32_putU32_ofNat (by omega)]
      rfl
    · have htake := h.takeBlock hi hown hword hroom fun l hl' => by
        obtain rfl := Position.data.inj hl'
        exact hl
      rw [flush_putU32 hoff]
      unfold takeBlock at htake
      rw [hloc] at htake
      exact htake

/-- The first half of the search through an indirect block. -/
theorem getIndirect (h : Layout (flush s i din) f owns place) (hi : i < 200)
    (hroom : ¬ owns i .indirect → s.freeblock < 1024) :
    ∃ s' din' owns' place', (if u32 din (addrOff 12) = 0 then
        putU32 din (addrOff 12) (BitVec.ofNat 32 s.freeblock) else din) = din' ∧
      (if u32 din (addrOff 12) = 0 then s.take else s) = s' ∧
      (u32 din' (addrOff 12)).toNat = place' i .indirect ∧
      Layout (flush s' i din') f owns' place' ∧
      Got owns owns' i .indirect s.freeblock s'.freeblock := by
  have hword : HasWord owns i .indirect := trivial
  have hread : u32 din (addrOff 12) = u32 (flush s i din).img (loc place i .indirect) :=
    (u32_flush (by decide)).symm
  by_cases hown : owns i .indirect
  · have hne : ¬ u32 din (addrOff 12) = 0 := by
      rw [hread, h.word_eq_zero_iff hi hword]
      exact not_not.mpr hown
    refine ⟨s, din, owns, place, if_neg hne, if_neg hne, ?_, h, .inl ⟨hown, rfl, rfl⟩⟩
    rw [hread, h.word_toNat hown]
  · have hroom := hroom hown
    have heq : u32 din (addrOff 12) = 0 := by
      rw [hread, h.word_eq_zero_iff hi hword]
      exact hown
    refine ⟨s.take, putU32 din (addrOff 12) (BitVec.ofNat 32 s.freeblock),
      ownsToo owns i .indirect, placeToo (flush s i din) place i .indirect, if_pos heq, if_pos heq,
      ?_, ?_, .inr ⟨hown, rfl, rfl⟩⟩
    · rw [placeToo_new, u32_putU32_ofNat (by omega)]
      rfl
    · have htake := h.takeBlock hi hown hword hroom fun l hl' => nomatch hl'
      rw [flush_putU32 (by decide)]
      exact htake

theorem getBlock_indirect (h : Layout (flush s i din) f owns place) (hi : i < 200)
    (h12 : 12 ≤ k) (hk : k < 140)
    (hroom : ¬ owns i .indirect → s.freeblock + 1 < 1024)
    (hlen : ¬ owns i (.data k) → (f.bytes i).length ≤ 512 * k ∧ s.freeblock < 1024) :
    ∃ s' din' owns₁ fb₁ owns' place', getBlock s din k = some (s', din', place' i (.data k)) ∧
      Layout (flush s' i din') f owns' place' ∧ Got owns owns₁ i .indirect s.freeblock fb₁ ∧
      Got owns₁ owns' i (.data k) fb₁ s'.freeblock := by
  obtain ⟨s₁, din₁, owns₁, place₁, hdin, hs, hind, h₁, hgot⟩ :=
    getIndirect h hi fun hno => by have := hroom hno; omega
  have hown₁ := hgot.own
  have hrange := h₁.inRange i _ hown₁
  have hhigh := h₁.high
  have hword : HasWord owns₁ i (.data k) := .inr ⟨hk, hown₁⟩
  have hloc : loc place₁ i (.data k) = 512 * place₁ i .indirect + 4 * (k - 12) := by
    rw [loc, if_neg (by omega)]
  have hsect : rsect s₁ (place₁ i .indirect) =
      some fun x => (flush s₁ i din₁).img (512 * place₁ i .indirect + x) := by
    rw [rsect_eq (by omega)]
    congr 1
    funext x
    exact (flush_img_data hi (by omega)).symm
  have hread : u32 (fun x => (flush s₁ i din₁).img (512 * place₁ i .indirect + x)) (4 * (k - 12)) =
      u32 (flush s₁ i din₁).img (loc place₁ i (.data k)) := by
    rw [hloc]
    exact u32_congr fun x _ => by rw [Nat.add_assoc]
  have hlen₁ : ¬ owns₁ i (.data k) → (f.bytes i).length ≤ 512 * k ∧ s₁.freeblock < 1024 := by
    intro hno
    obtain ⟨-, rfl, hfb⟩ | ⟨hnew, rfl, hfb⟩ := hgot
    · exact hfb ▸ hlen hno
    · have := hroom hnew
      exact ⟨(hlen fun hold => hno (.inl hold)).1, by omega⟩
  simp only [getBlock, if_neg (show ¬ k < Fscheck.NDIRECT from Nat.not_lt.mpr h12), hdin, hs, hind,
    hsect, Option.bind_eq_bind, Option.bind_some, hread]
  by_cases hown : owns₁ i (.data k)
  · have hne : ¬ u32 (flush s₁ i din₁).img (loc place₁ i (.data k)) = 0 := by
      rw [h₁.word_eq_zero_iff hi hword]
      exact not_not.mpr hown
    refine ⟨s₁, din₁, owns₁, s₁.freeblock, owns₁, place₁, ?_, h₁, hgot, .inl ⟨hown, rfl, rfl⟩⟩
    rw [if_neg hne, h₁.word_toNat hown]
    rfl
  · obtain ⟨hl, hroom₁⟩ := hlen₁ hown
    have heq : u32 (flush s₁ i din₁).img (loc place₁ i (.data k)) = 0 :=
      (h₁.word_eq_zero_iff hi hword).mpr hown
    have htake := h₁.takeBlock hi hown hword hroom₁ fun l hl' => by
      obtain rfl := Position.data.inj hl'
      exact hl
    refine ⟨{ s₁.take with img := wsect s₁.img (place₁ i .indirect) (putU32
      (fun x => (flush s₁ i din₁).img (512 * place₁ i .indirect + x)) (4 * (k - 12))
        (BitVec.ofNat 32 s₁.freeblock)) }, din₁, owns₁, s₁.freeblock, ownsToo owns₁ i (.data k),
      placeToo (flush s₁ i din₁) place₁ i (.data k), ?_, ?_, hgot, .inr ⟨hown, rfl, rfl⟩⟩
    · rw [if_pos heq, placeToo_new, u32_putU32_ofNat (by omega)]
      rfl
    · have hflush := flush_wsect s₁.take din₁ hi hrange.1 (putU32
        (fun x => (flush s₁ i din₁).img (512 * place₁ i .indirect + x)) (4 * (k - 12))
        (BitVec.ofNat 32 s₁.freeblock))
      have himg : (flush s₁.take i din₁).img = (flush s₁ i din₁).img := rfl
      rw [himg, wsect_putU32 _ (by omega), ← hloc] at hflush
      exact hflush ▸ htake

/-! ## One turn of the loop -/

/-- The positions that a file of its length uses. -/
def Owned (f : Files) (i : ℕ) (p : Position) : Prop := p ∈ positions (n_blocks (f.bytes i).length)

/-- The disk holds the files `f`, each in as many blocks as its bytes need. -/
def Rep (s : Disk) (f : Files) : Prop := ∃ place, Layout s f (Owned f) place

/-- The blocks of a file of `n` bytes, the indirect block included. -/
def blocksFor (n : ℕ) : ℕ := n_blocks n + if 12 < n_blocks n then 1 else 0

theorem n_blocks_eq (n : ℕ) : n_blocks n = (n + 511) / 512 := by
  unfold n_blocks
  split <;> omega

theorem blocksFor_mono {m n : ℕ} (h : m ≤ n) : blocksFor m ≤ blocksFor n := by
  have : n_blocks m ≤ n_blocks n := by
    rw [n_blocks_eq, n_blocks_eq]
    omega
  unfold blocksFor
  split <;> split <;> omega

theorem owned_indirect : Owned f i .indirect ↔ 12 < n_blocks (f.bytes i).length :=
  Fscheck.mem_positions

theorem owned_data : Owned f i (.data k) ↔ k < n_blocks (f.bytes i).length :=
  Fscheck.mem_positions

theorem length_append_bytes (f : Files) (i : ℕ) (p : List Byte) :
    ((f.append i p).bytes i).length = (f.bytes i).length + p.length := by
  rw [append_bytes_self, List.length_append]

/-- The chunk of a turn ends in the block in which the file ended. -/
theorem owned_append {p : List Byte} (hp : p ≠ []) (hfit : (f.bytes i).length % 512 + p.length ≤ 512)
    {q : Position} : Owned (f.append i p) i q ↔
      q ∈ positions ((f.bytes i).length / 512 + 1) := by
  have hpos := List.length_pos_iff.mpr hp
  have hn : n_blocks ((f.append i p).bytes i).length = (f.bytes i).length / 512 + 1 := by
    rw [length_append_bytes, n_blocks_eq]
    omega
  rw [Owned, hn]

theorem owned_append_of_ne {p : List Byte} {j : ℕ} (hj : j ≠ i) {q : Position} :
    Owned (f.append i p) j q ↔ Owned f j q := by
  rw [Owned, append_bytes_of_ne f p hj, Owned]

/-- Which positions the last turn's block adds. -/
theorem owned_append_eq {owns' : ℕ → Position → Prop} {p : List Byte} (hp : p ≠ [])
    (hfit : (f.bytes i).length % 512 + p.length ≤ 512)
    (hothers : ∀ j q, j ≠ i → (owns' j q ↔ Owned f j q))
    (hind : owns' i .indirect ↔ 12 ≤ (f.bytes i).length / 512)
    (hdata : ∀ l, owns' i (.data l) ↔ l ≤ (f.bytes i).length / 512) :
    owns' = Owned (f.append i p) := by
  funext j q
  by_cases hj : j = i
  · subst hj
    rw [owned_append hp hfit, Fscheck.mem_positions]
    cases q with
    | indirect => exact propext (hind.trans Nat.lt_succ_iff.symm)
    | data l => exact propext ((hdata l).trans Nat.lt_succ_iff.symm)
  · rw [owned_append_of_ne hj]
    exact propext (hothers j q hj)

theorem ownsToo_of_ne {j : ℕ} {q : Position} (hj : j ≠ i) : ownsToo owns i p j q ↔ owns j q :=
  or_iff_left fun h => hj h.1

theorem ownsToo_self {q : Position} : ownsToo owns i p i q ↔ owns i q ∨ q = p :=
  or_congr_right (and_iff_right rfl)

/-- The missing blocks of a turn: none, the next data block, or an indirect block before it. -/
theorem getBlock_spec (h : Layout (flush s i din) f (Owned f) place) (hi : i < 200)
    (hk : (f.bytes i).length / 512 < 140) {p : List Byte} (hp : p ≠ [])
    (hfit : (f.bytes i).length % 512 + p.length ≤ 512)
    (hroom : s.freeblock + blocksFor ((f.bytes i).length + p.length) ≤
      1024 + blocksFor (f.bytes i).length) :
    ∃ s' din' place', getBlock s din ((f.bytes i).length / 512) =
        some (s', din', place' i (.data ((f.bytes i).length / 512))) ∧
      Layout (flush s' i din') f (Owned (f.append i p)) place' ∧
      s'.freeblock + blocksFor (f.bytes i).length =
        s.freeblock + blocksFor ((f.bytes i).length + p.length) := by
  have hpos := List.length_pos_iff.mpr hp
  have hind : Owned f i .indirect ↔ 12 < n_blocks (f.bytes i).length := owned_indirect
  have hdata : ∀ l, Owned f i (.data l) ↔ l < n_blocks (f.bytes i).length := fun l => owned_data
  have hafter : n_blocks ((f.bytes i).length + p.length) = (f.bytes i).length / 512 + 1 := by
    rw [n_blocks_eq]
    omega
  unfold blocksFor at hroom ⊢
  rw [hafter] at hroom ⊢
  have hbefore : n_blocks (f.bytes i).length = (f.bytes i).length / 512 ∧
      (f.bytes i).length ≤ 512 * ((f.bytes i).length / 512) ∨
        n_blocks (f.bytes i).length = (f.bytes i).length / 512 + 1 := by
    rw [n_blocks_eq]
    omega
  have heq : ∀ owns' : ℕ → Position → Prop, (∀ j q, j ≠ i → (owns' j q ↔ Owned f j q)) →
      (owns' i .indirect ↔ 12 ≤ (f.bytes i).length / 512) →
      (∀ l, owns' i (.data l) ↔ l ≤ (f.bytes i).length / 512) → owns' = Owned (f.append i p) :=
    fun owns' => owned_append_eq hp hfit
  generalize (f.bytes i).length / 512 = k at *
  generalize n_blocks (f.bytes i).length = n at *
  by_cases h12 : k < 12
  · rcases hbefore with ⟨rfl, hlen⟩ | rfl
    · obtain ⟨s', din', owns', place', hget, hlay, ⟨hown, -⟩ | ⟨-, rfl, hfb⟩⟩ :=
        getBlock_direct h hi h12 fun hno => ⟨hlen, by
          rw [if_neg (by omega), if_neg (by omega)] at hroom
          omega⟩
      · rw [hdata] at hown
        omega
      · refine ⟨s', din', place', hget, ?_, ?_⟩
        · rw [← heq _ (fun j q hj => ownsToo_of_ne hj) ?_ fun l => ?_]
          · exact hlay
          · rw [ownsToo_self, hind]
            simp
            omega
          · rw [ownsToo_self, hdata]
            simp
            omega
        · rw [if_neg (by omega), if_neg (by omega)]
          omega
    · obtain ⟨s', din', owns', place', hget, hlay, ⟨-, rfl, hfb⟩ | ⟨hno, -⟩⟩ :=
        getBlock_direct h hi h12 fun hno => absurd ((hdata k).mpr (Nat.lt_succ_self k)) hno
      · refine ⟨s', din', place', hget, ?_, ?_⟩
        · rw [← heq _ (fun j q hj => Iff.rfl) ?_ fun l => ?_]
          · exact hlay
          · rw [hind]
            omega
          · rw [hdata]
            omega
        · rw [hfb]
      · exact absurd ((hdata k).mpr (Nat.lt_succ_self k)) hno
  · have h12 : 12 ≤ k := Nat.not_lt.mp h12
    rcases hbefore with ⟨rfl, hlen⟩ | rfl
    · have hroom' : s.freeblock + (if n = 12 then 2 else 1) ≤ 1024 := by
        rw [if_pos (by omega)] at hroom
        split at hroom <;> split <;> omega
      obtain ⟨s', din', owns₁, fb₁, owns', place', hget, hlay, hgot₁, hgot⟩ :=
        getBlock_indirect h hi h12 hk (fun hno => by
          rw [hind] at hno
          rw [if_pos (by omega)] at hroom'
          omega) fun _ => ⟨hlen, by split at hroom' <;> omega⟩
      have hdata₁ : ∀ l, owns₁ i (.data l) ↔ l < n := by
        intro l
        obtain ⟨-, rfl, -⟩ | ⟨-, rfl, -⟩ := hgot₁
        · exact hdata l
        · rw [ownsToo_self, hdata]
          simp
      obtain ⟨hown, -⟩ | ⟨-, rfl, hfb⟩ := hgot
      · rw [hdata₁] at hown
        omega
      · refine ⟨s', din', place', hget, ?_, ?_⟩
        · have hothers : ∀ j q, j ≠ i → (ownsToo owns₁ i (.data n) j q ↔ Owned f j q) := by
            intro j q hj
            rw [ownsToo_of_ne hj]
            obtain ⟨-, rfl, -⟩ | ⟨-, rfl, -⟩ := hgot₁
            · exact Iff.rfl
            · exact ownsToo_of_ne hj
          rw [← heq _ hothers ?_ fun l => ?_]
          · exact hlay
          · exact iff_of_true (.inl hgot₁.own) h12
          · rw [ownsToo_self, hdata₁]
            simp
            omega
        · rw [if_pos (show 12 < n + 1 by omega), hfb]
          obtain ⟨hown₁, -, hfb₁⟩ | ⟨hno₁, -, hfb₁⟩ := hgot₁
          · rw [if_pos (hind.mp hown₁), hfb₁]
            omega
          · rw [if_neg (fun hlt => hno₁ (hind.mpr hlt)), hfb₁]
            omega
    · obtain ⟨s', din', owns₁, fb₁, owns', place', hget, hlay, hgot₁, hgot⟩ :=
        getBlock_indirect h hi h12 hk (fun hno => absurd (hind.mpr (by omega)) hno)
          fun hno => absurd ((hdata k).mpr (Nat.lt_succ_self k)) hno
      obtain ⟨-, rfl, rfl⟩ | ⟨hno₁, -⟩ := hgot₁
      · obtain ⟨-, rfl, hfb⟩ | ⟨hno, -⟩ := hgot
        · refine ⟨s', din', place', hget, ?_, by rw [hfb]⟩
          rw [← heq _ (fun j q hj => Iff.rfl) ?_ fun l => ?_]
          · exact hlay
          · rw [hind]
            omega
          · rw [hdata]
            omega
        · exact absurd ((hdata k).mpr (Nat.lt_succ_self k)) hno
      · exact absurd (hind.mpr (by omega)) hno₁

/-- What a turn makes of the disk, with the copy of the inode written back. -/
theorem flush_bcopy {x : ℕ} (hi : i < 200) (hx : 29 ≤ x) (p : List Byte) (o : ℕ) :
    flush { s with img := wsect s.img x (bcopy p (fun y => s.img (512 * x + y)) o) } i din =
      { flush s i din with
        img := wsect (flush s i din).img x
          (bcopy p (fun y => (flush s i din).img (512 * x + y)) o) } := by
  have hbuf : (fun y => s.img (512 * x + y)) = fun y => (flush s i din).img (512 * x + y) := by
    funext y
    exact (flush_img_data hi (by omega)).symm
  rw [flush_wsect s din hi hx, hbuf]
  rfl

theorem wsect_bcopy_in (img : Image) {x o y : ℕ} {p : List Byte} (ho : o + p.length ≤ 512)
    (hy : y < p.length) :
    wsect img x (bcopy p (fun z => img (512 * x + z)) o) (512 * x + o + y) = p.getD y 0 := by
  rw [wsect, if_pos (by omega), bcopy, if_pos (by omega)]
  congr 1
  omega

theorem wsect_bcopy_out (img : Image) {x o y : ℕ} {p : List Byte}
    (hy : y < 512 * x + o ∨ 512 * x + o + p.length ≤ y) :
    wsect img x (bcopy p (fun z => img (512 * x + z)) o) y = img y := by
  unfold wsect bcopy
  split
  · next hin =>
    dsimp only
    rw [if_neg (by omega)]
    exact congrArg img (by omega)
  · rfl

theorem iappend_turn (h : Rep (flush s i din) f) (hi : i < 200) (hborn : i < f.next)
    (hk : (f.bytes i).length / 512 < 140) {p : List Byte} (hp : p ≠ [])
    (hfit : (f.bytes i).length % 512 + p.length ≤ 512)
    (hroom : s.freeblock + blocksFor ((f.bytes i).length + p.length) ≤
      1024 + blocksFor (f.bytes i).length) :
    ∃ s' din' x, getBlock s din ((f.bytes i).length / 512) = some (s', din', x) ∧
      rsect s' x = some (fun y => s'.img (512 * x + y)) ∧
      Rep (flush { s' with img := wsect s'.img x (bcopy p (fun y => s'.img (512 * x + y))
        ((f.bytes i).length % 512)) } i din') (f.append i p) ∧
      s'.freeblock + blocksFor (f.bytes i).length =
        s.freeblock + blocksFor ((f.bytes i).length + p.length) := by
  obtain ⟨place, h⟩ := h
  obtain ⟨s', din', place', hget, hlay, hfb⟩ := getBlock_spec h hi hk hp hfit hroom
  have hown : Owned (f.append i p) i (.data ((f.bytes i).length / 512)) :=
    (owned_append hp hfit).mpr (Fscheck.mem_positions.mpr (Nat.lt_succ_self _))
  have hrange := hlay.inRange i _ hown
  have hhigh := hlay.high
  refine ⟨s', din', _, hget, rsect_eq (by omega), ⟨place', ?_⟩, hfb⟩
  rw [flush_bcopy hi hrange.1]
  exact hlay.append hown (by omega) hfit hborn (fun y hy => wsect_bcopy_in _ hfit hy)
    fun y hy => wsect_bcopy_out _ hy

theorem append_nil (f : Files) (i : ℕ) : f.append i [] = f := by
  rw [Files.append, List.append_nil, Function.update_eq_self]

theorem append_append (f : Files) (i : ℕ) (p q : List Byte) :
    (f.append i p).append i q = f.append i (p ++ q) := by
  simp only [Files.append, Function.update_self, Function.update_idem, List.append_assoc]

/-- The loop of `iappend` writes all of `p`. -/
theorem iappendLoop_spec {n : ℕ} {p : List Byte} (hn : p.length ≤ n)
    (h : Rep (flush s i din) f) (hi : i < 200) (hborn : i < f.next)
    (hmax : (f.bytes i).length + p.length ≤ 140 * 512)
    (hroom : s.freeblock + blocksFor ((f.bytes i).length + p.length) ≤
      1024 + blocksFor (f.bytes i).length) :
    ∃ s' din', iappendLoop n s din (f.bytes i).length p =
        some (s', din', (f.bytes i).length + p.length) ∧
      Rep (flush s' i din') (f.append i p) ∧
      s'.freeblock + blocksFor (f.bytes i).length =
        s.freeblock + blocksFor ((f.bytes i).length + p.length) := by
  induction n generalizing s din p f with
  | zero =>
      obtain rfl : p = [] := List.eq_nil_of_length_eq_zero (by omega)
      exact ⟨s, din, rfl, (append_nil f i).symm ▸ h, rfl⟩
  | succ n ih =>
      by_cases hp : p = []
      · subst hp
        exact ⟨s, din, by rw [iappendLoop, if_pos rfl]; rfl, (append_nil f i).symm ▸ h, rfl⟩
      · have hpos := List.length_pos_iff.mpr hp
        obtain ⟨m, hm⟩ : ∃ m, m = min p.length
          (((f.bytes i).length / 512 + 1) * 512 - (f.bytes i).length) := ⟨_, rfl⟩
        have hlen : (p.take m).length = m := by
          rw [List.length_take]
          omega
        have hrest : (p.drop m).length = p.length - m := List.length_drop
        have hle : blocksFor ((f.bytes i).length + m) ≤ blocksFor ((f.bytes i).length + p.length) :=
          blocksFor_mono (by omega)
        have hne : p.take m ≠ [] := List.length_pos_iff.mp (by omega)
        have hk : (f.bytes i).length / 512 < 140 := by omega
        have hoff : (f.bytes i).length - (f.bytes i).length / 512 * 512 =
            (f.bytes i).length % 512 := by omega
        obtain ⟨s₁, din₁, x, hget, hread, hrep, hfb⟩ := iappend_turn h hi hborn hk hne
          (by omega) (by rw [hlen]; omega)
        have hlen₁ : ((f.append i (p.take m)).bytes i).length = (f.bytes i).length + m := by
          rw [length_append_bytes, hlen]
        obtain ⟨s', din', hloop, hrep', hfb'⟩ := ih (p := p.drop m) (by omega) hrep hborn (by omega) (by
          rw [hlen₁, hrest, show (f.bytes i).length + m + (p.length - m) =
            (f.bytes i).length + p.length by omega]
          show s₁.freeblock + _ ≤ _
          rw [hlen] at hfb
          omega)
        rw [hlen₁, hrest, show (f.bytes i).length + m + (p.length - m) =
            (f.bytes i).length + p.length by omega] at hloop hfb'
        rw [append_append, List.take_append_drop] at hrep'
        refine ⟨s', din', ?_, hrep', ?_⟩
        · rw [iappendLoop, if_neg hp]
          dsimp only
          rw [if_neg (show ¬ Fscheck.MAXFILE ≤ (f.bytes i).length / 512 from Nat.not_le.mpr hk), hget]
          simp only [Option.bind_eq_bind, Option.bind_some, hread, hoff, ← hm]
          exact hloop
        · have hfb'' : s'.freeblock + blocksFor ((f.bytes i).length + m) =
            s₁.freeblock + blocksFor ((f.bytes i).length + p.length) := hfb'
          rw [hlen] at hfb
          omega

/-! ## The calls -/

theorem flush_self (hdin : ∀ k < 64, din k = s.img (dinode i + k)) : flush s i din = s := by
  have himg : putInode s.img i din = s.img := by
    funext x
    unfold putInode
    split
    · next hx =>
      rw [hdin _ (by omega)]
      congr 1
      omega
    · rfl
  exact congrArg (fun img => ({ s with img := img } : Disk)) himg

theorem setSize_self (f : Files) (i : ℕ) : f.setSize i (f.size i) = f := by
  rw [Files.setSize, Function.update_eq_self]

/-- `iappend` adds `p` to the end of a file and takes the blocks that this needs. -/
theorem iappend_spec (h : Rep s f) (hi : i < 200) (hborn : i < f.next)
    (hsize : f.size i = (f.bytes i).length) {p : List Byte}
    (hmax : (f.bytes i).length + p.length ≤ 140 * 512)
    (hroom : s.freeblock + blocksFor ((f.bytes i).length + p.length) ≤
      1024 + blocksFor (f.bytes i).length) :
    ∃ s', iappend s i p = some s' ∧
      Rep s' ((f.append i p).setSize i ((f.bytes i).length + p.length)) ∧
      s'.freeblock + blocksFor (f.bytes i).length =
        s.freeblock + blocksFor ((f.bytes i).length + p.length) := by
  have hself : flush s i (fun k => s.img (dinode i + k)) = s := flush_self fun _ _ => rfl
  have hoff : (u32 (fun k => s.img (dinode i + k)) 8).toNat = (f.bytes i).length := by
    obtain ⟨place, h⟩ := h
    rw [← hsize, ← h.size i hi, Fscheck.inodeSize]
    exact congrArg BitVec.toNat (u32_congr fun k _ => by rw [Nat.add_assoc])
  obtain ⟨s', din', hloop, ⟨place, hrep⟩, hfb⟩ :=
    iappendLoop_spec (Nat.le_refl _) (hself.symm ▸ h) hi hborn hmax hroom
  refine ⟨flush s' i (putU32 din' 8 (BitVec.ofNat 32 ((f.bytes i).length + p.length))), ?_, ?_, hfb⟩
  · simp only [iappend, rinode_eq hi, Option.bind_eq_bind, Option.bind_some, hoff, hloop,
      winode_eq hi]
  · rw [flush_putU32 (by decide)]
    exact ⟨place, hrep.setSize hi hborn (by omega)⟩

/-- `ialloc` makes the next inode, an empty file. -/
theorem ialloc_spec (h : Rep s f) (hnext : f.next < 200) {type : ℕ} (htype : type < 2 ^ 16) :
    ∃ s', ialloc s type = some (s', f.next) ∧ Rep s' (f.create type) ∧
      s'.freeblock = s.freeblock := by
  obtain ⟨place, h⟩ := h
  have hno : ∀ p, ¬ Owned f f.next p := by
    intro p hp
    rw [Owned, (h.unborn f.next (Nat.le_refl _)).2.1, Fscheck.mem_positions] at hp
    cases p with
    | indirect => exact absurd hp (by decide)
    | data k => exact absurd hp (Nat.not_lt_zero k)
  refine ⟨flush { s with freeinode := s.freeinode + 1 } f.next (newInode type), ?_, ⟨place, ?_⟩, rfl⟩
  · have hw : winode { s with freeinode := s.freeinode + 1 } f.next (newInode type) = _ :=
      winode_eq hnext
    rw [← h.next] at hw ⊢
    exact congrArg (fun o : Option Disk => o.bind fun s' => some (s', s.freeinode)) hw
  · exact h.create hnext htype hno (fun k hk => putInode_in hk) fun x hx => putInode_out hx

/-- `fixSize` changes the size only. -/
theorem fixSize_spec (h : Rep s f) (hi : i < 200) (hborn : i < f.next)
    (hsize : f.size i < 2 ^ 31) :
    ∃ s', fixSize s i = some s' ∧ Rep s' (f.setSize i ((f.size i / 512 + 1) * 512)) ∧
      s'.freeblock = s.freeblock := by
  obtain ⟨place, h⟩ := h
  have hoff : (u32 (fun k => s.img (dinode i + k)) 8).toNat = f.size i := by
    rw [← h.size i hi, Fscheck.inodeSize]
    exact congrArg BitVec.toNat (u32_congr fun k _ => by rw [Nat.add_assoc])
  have hself : flush s i (fun k => s.img (dinode i + k)) = s := flush_self fun _ _ => rfl
  refine ⟨flush s i (putU32 (fun k => s.img (dinode i + k)) 8
    (BitVec.ofNat 32 ((f.size i / 512 + 1) * 512))), ?_, ⟨place, ?_⟩, rfl⟩
  · simp only [fixSize, rinode_eq hi, Option.bind_eq_bind, Option.bind_some, hoff, winode_eq hi]
  · rw [flush_putU32 (by decide), hself]
    exact h.setSize hi hborn (by omega)

theorem append_setSize (f : Files) (i n m : ℕ) (p q : List Byte) :
    (((f.append i p).setSize i n).append i q).setSize i m = (f.append i (p ++ q)).setSize i m := by
  simp only [Files.append, Files.setSize, Function.update_self, Function.update_idem,
    List.append_assoc]

/-- `copyFile` appends the whole content. -/
theorem copyFile_spec {n : ℕ} {p : List Byte} (hn : p.length ≤ n) (h : Rep s f) (hi : i < 200)
    (hborn : i < f.next) (hsize : f.size i = (f.bytes i).length)
    (hmax : (f.bytes i).length + p.length ≤ 140 * 512)
    (hroom : s.freeblock + blocksFor ((f.bytes i).length + p.length) ≤
      1024 + blocksFor (f.bytes i).length) :
    ∃ s', copyFile n s i p = some s' ∧
      Rep s' ((f.append i p).setSize i ((f.bytes i).length + p.length)) ∧
      s'.freeblock + blocksFor (f.bytes i).length =
        s.freeblock + blocksFor ((f.bytes i).length + p.length) := by
  have hnil : (f.append i []).setSize i ((f.bytes i).length + 0) = f := by
    rw [append_nil, Nat.add_zero, ← hsize, setSize_self]
  induction n generalizing s p f with
  | zero =>
      obtain rfl : p = [] := List.eq_nil_of_length_eq_zero (by omega)
      exact ⟨s, rfl, hnil.symm ▸ h, rfl⟩
  | succ n ih =>
      by_cases hp : p = []
      · subst hp
        exact ⟨s, by rw [copyFile, if_pos rfl], hnil.symm ▸ h, rfl⟩
      · have hpos := List.length_pos_iff.mpr hp
        have htake : (p.take 512).length + (p.drop 512).length = p.length := by
          rw [← List.length_append, List.take_append_drop]
        have hdrop : (p.drop 512).length = p.length - 512 := List.length_drop
        have hle : blocksFor ((f.bytes i).length + (p.take 512).length) ≤
            blocksFor ((f.bytes i).length + p.length) := blocksFor_mono (by omega)
        obtain ⟨s₁, happ, hrep, hfb⟩ := iappend_spec h hi hborn hsize (p := p.take 512)
          (by omega) (by omega)
        have hlen : (((f.append i (p.take 512)).setSize i
            ((f.bytes i).length + (p.take 512).length)).bytes i).length =
              (f.bytes i).length + (p.take 512).length := length_append_bytes f i _
        obtain ⟨s', hcopy, hrep', hfb'⟩ := ih (p := p.drop 512) (by omega) hrep hborn
          ((setSize_size_self _ _ _).trans hlen.symm) (by rw [hlen]; omega)
          (by rw [hlen, Nat.add_assoc, htake]; omega) (by
            rw [append_setSize, List.append_nil, hlen]
            rfl)
        rw [append_setSize, List.take_append_drop, hlen, Nat.add_assoc, htake] at hrep'
        rw [hlen, Nat.add_assoc, htake] at hfb'
        refine ⟨s', ?_, hrep', by omega⟩
        rw [copyFile, if_neg hp, happ]
        exact hcopy

end

end IntroToOS.Mkfs

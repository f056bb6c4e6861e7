import IntroToOS.CheckedFs.Bmap

/-! # Reading and writing

What `readi` and `writei` do to a sound file system. A file is its size and its bytes (`File`);
`File.read` and `File.write` say what the routines return and what becomes of it. The loops go
from block to block, so each is described by what one turn does to the range of bytes that is
left.
-/

namespace IntroToOS.CheckedFs
open Lib
set_option autoImplicit false

/-! ## Ranges of bytes -/

theorem chunk_pos (off : ℕ) {left : ℕ} (h : 0 < left) : 0 < chunk off left := by
  have hmod : off % 512 < 512 := Nat.mod_lt _ (by omega)
  show 0 < min left (512 - off % 512)
  omega

theorem chunk_le (off left : ℕ) : chunk off left ≤ left := Nat.min_le_left ..

theorem chunk_fits (off left : ℕ) : off % BSIZE + chunk off left ≤ BSIZE := by
  have hmod : off % 512 < 512 := Nat.mod_lt _ (by omega)
  show off % 512 + min left (512 - off % 512) ≤ 512
  omega

/-- A chunk stays in the block it starts in. -/
theorem div_of_chunk {off left k : ℕ} (hk : k < chunk off left) :
    (off + k) / BSIZE = off / BSIZE := by
  have hfit : off % 512 + chunk off left ≤ 512 := chunk_fits off left
  show (off + k) / 512 = off / 512
  omega

theorem mod_of_chunk {off left k : ℕ} (hk : k < chunk off left) :
    (off + k) % BSIZE = off % BSIZE + k := by
  have hfit : off % 512 + chunk off left ≤ 512 := chunk_fits off left
  show (off + k) % 512 = off % 512 + k
  omega

def slice (f : ℕ → Byte) (off n : ℕ) : List Byte := (List.range n).map fun k => f (off + k)

theorem slice_add (f : ℕ → Byte) (off m l : ℕ) :
    slice f off (m + l) = slice f off m ++ slice f (off + m) l := by
  simp [slice, List.range_add, Nat.add_assoc, Function.comp_def]

theorem patch_patch (f : ℕ → Byte) {off m left : ℕ} (src : ℕ → Byte) (h : m ≤ left) :
    patch (patch f off m src) (off + m) (left - m) (fun k => src (m + k)) =
      patch f off left src := by
  funext x
  unfold patch
  by_cases h1 : off + m ≤ x ∧ x < off + m + (left - m)
  · have h2 : off ≤ x ∧ x < off + left := by omega
    rw [if_pos h1, if_pos h2, show x - off = m + (x - (off + m)) by omega]
  · rw [if_neg h1]
    by_cases h2 : off ≤ x ∧ x < off + m
    · have h3 : off ≤ x ∧ x < off + left := by omega
      rw [if_pos h2, if_pos h3]
    · have h3 : ¬ (off ≤ x ∧ x < off + left) := by omega
      rw [if_neg h2, if_neg h3]

theorem patch_zero (f : ℕ → Byte) (off : ℕ) (src : ℕ → Byte) : patch f off 0 src = f := by
  funext x
  have : ¬ (off ≤ x ∧ x < off + 0) := by omega
  rw [patch, if_neg this]

/-! ## Files -/

structure File where
  size : ℕ
  byte : ℕ → Byte

def fileOf (s : Fs) (ip : Inode) : File := ⟨ip.size, fileByte s.block ip⟩

def File.read (f : File) (off n : ℕ) : ℤ × List Byte :=
  if f.size < off ∨ wraps off n then (-1, [])
  else
    let n := if f.size < off + n then f.size - off else n
    (n, slice f.byte off n)

/-- The number of bytes a write transfers: a file ends at `MAXFILE` blocks. -/
def clip (off n : ℕ) : ℕ := if MAXFILE * BSIZE < off + n then MAXFILE * BSIZE - off else n

/-- A write of a checked file sets the size to the end of the write, whatever it was before. -/
def File.write (checked : Bool) (f : File) (src : ℕ → Byte) (off n : ℕ) : File × ℤ :=
  if f.size < off ∨ wraps off n then (f, -1)
  else
    let n := clip off n
    (⟨if 0 < n ∧ (checked ∨ f.size < off + n) then off + n else f.size,
      patch f.byte off n src⟩, n)

/-! ## Reading -/

section
variable {i : ℕ} {s s' s'' : Fs} {ip ip' ip'' : Inode} {bn off n left : ℕ}

/-- Every byte of the range lies in an allocated block. -/
def Allocated (block : ℕ → ℕ → Byte) (ip : Inode) (off n : ℕ) : Prop :=
  ∀ o, off ≤ o → o < off + n → pointer block ip (.data (o / BSIZE)) ≠ 0

theorem Sound.allocated (h : Sound s (table s i ip)) (hi : ip.type ≠ 0) (hn : off + n ≤ ip.size) :
    Allocated s.block ip off n := by
  intro o _ h2
  have hcov := h.covered i (o / BSIZE)
  rw [table_self] at hcov
  have hle : o / BSIZE * BSIZE ≤ o := Nat.div_mul_le_self ..
  exact hcov hi (by omega)

theorem lt_MAXFILE_of_pointer {block : ℕ → ℕ → Byte} (hp : pointer block ip (.data bn) ≠ 0) :
    bn < MAXFILE := by
  rw [pointer_data] at hp
  split at hp
  · next hbn => exact Nat.lt_of_lt_of_le hbn (Nat.le_add_right ..)
  · split at hp
    · exact absurd rfl hp
    · next hz => exact Nat.not_le.mp fun hle => hz (.inr hle)

theorem fetch_checksum_eq (hp : pointer s.block ip (.data bn) ≠ 0) :
    fetch_checksum s ip bn = .ok (CH_GET_CHECKSUM (pointer s.block ip (.data bn))) := by
  have hmax : bn < 12 + 128 := lt_MAXFILE_of_pointer hp
  rw [pointer_data] at hp ⊢
  unfold fetch_checksum
  by_cases hbn : bn < NDIRECT
  · rw [if_pos hbn, if_pos hbn]
  · have hlt : bn - NDIRECT < NINDIRECT := by
      have hbn' : ¬ bn < 12 := hbn
      show bn - 12 < 128
      omega
    rw [if_neg hbn] at hp
    rw [if_neg hbn, if_neg hbn, if_pos hlt]
    split at hp
    · exact absurd rfl hp
    · next hz => rw [if_neg hz]

/-- The test of `readi` succeeds on a sound file system. -/
theorem checkBlock_eq (h : Sound s (table s i ip)) (hi : ip.type ≠ 0)
    (hp : pointer s.block ip (.data bn) ≠ 0) :
    checkBlock s ip (blockNo (pointer s.block ip (.data bn))) bn = .ok true := by
  unfold checkBlock
  by_cases hc : ip.type = T_CHECKED
  · have hsum := h.checked i bn
    rw [table_self, blockAt, table_self] at hsum
    rw [if_pos hc, fetch_checksum_eq hp, ok_bind,
      hsum hc ⟨by rwa [table_self], by rwa [table_self]⟩, decide_eq_true rfl]
  · rw [if_neg hc]

/-- Byte `o` of the file lies in an allocated block that passes the test. -/
def Readable (s : Fs) (ip : Inode) (o : ℕ) : Prop :=
  pointer s.block ip (.data (o / BSIZE)) ≠ 0 ∧
    checkBlock s ip (blockNo (pointer s.block ip (.data (o / BSIZE)))) (o / BSIZE) = .ok true

/-- The loop delivers a range of which every byte is readable. -/
theorem readLoop_of_readable {fuel : ℕ} (hfuel : left ≤ fuel)
    (hr : ∀ o, off ≤ o → o < off + left → Readable s ip o) (dst : List Byte) :
    readLoop fuel s ip off left dst =
      .ok (s, ip, true, dst ++ slice (fileByte s.block ip) off left) := by
  induction fuel generalizing off left dst with
  | zero =>
      obtain rfl := Nat.le_zero.mp hfuel
      simp [readLoop, slice]
  | succ fuel ih =>
      unfold readLoop
      by_cases hl : left = 0
      · subst hl
        simp [slice]
      · obtain ⟨hp, hcheck⟩ := hr off (Nat.le_refl _) (by omega)
        have hpos := chunk_pos off (Nat.pos_of_ne_zero hl)
        have hle := chunk_le off left
        -- the bytes of this turn
        have hbytes : (List.range (chunk off left)).map
            (fun k => s.block (blockNo (pointer s.block ip (.data (off / BSIZE))))
              (off % BSIZE + k)) = slice (fileByte s.block ip) off (chunk off left) := by
          refine List.map_congr_left fun k hk => ?_
          have hk := List.mem_range.mp hk
          rw [fileByte, div_of_chunk hk, mod_of_chunk hk, if_neg hp]
        rw [if_neg hl, bmap_of_allocated hp, ok_bind]
        simp only [hcheck, ok_bind, hbytes, if_true]
        rw [ih (by omega) fun o h1 h2 => hr o (by omega) (by omega), List.append_assoc,
          ← slice_add, Nat.add_sub_cancel' hle]

theorem readLoop_eq (h : Sound s (table s i ip)) (hi : ip.type ≠ 0) {fuel : ℕ}
    (hfuel : left ≤ fuel) (hal : Allocated s.block ip off left) (dst : List Byte) :
    readLoop fuel s ip off left dst =
      .ok (s, ip, true, dst ++ slice (fileByte s.block ip) off left) :=
  readLoop_of_readable hfuel (fun o h1 h2 => ⟨hal o h1 h2, checkBlock_eq h hi (hal o h1 h2)⟩) dst

/-- `readi` reads the file and changes nothing. -/
theorem readi_eq (h : Sound s (table s i ip)) (hi : ip.type ≠ 0) (hdev : ip.type ≠ T_DEV) :
    readi s ip off n = .ok (s, ip, (fileOf s ip).read off n) := by
  unfold readi File.read
  rw [if_neg hdev]
  by_cases hbad : ip.size < off ∨ wraps off n
  · rw [if_pos hbad, if_pos (show (fileOf s ip).size < off ∨ wraps off n from hbad)]
  · rw [if_neg hbad, if_neg (show ¬ ((fileOf s ip).size < off ∨ wraps off n) from hbad)]
    have hoff : off ≤ ip.size := Nat.not_lt.mp fun hlt => hbad (.inl hlt)
    have hin : off + (if ip.size < off + n then ip.size - off else n) ≤ ip.size := by
      split <;> omega
    simp only [readLoop_eq h hi (Nat.le_refl _) (h.allocated hi hin), ok_bind]
    rfl

/-! ## Storing one block -/

theorem pointer_setBlock {b : ℕ} {data : ℕ → Byte}
    (hb : ip.addrs NDIRECT ≠ 0 → blockNo (ip.addrs NDIRECT) ≠ b) (p : Position) :
    pointer (s.setBlock b data).block ip p = pointer s.block ip p := by
  cases p with
  | indirect => rfl
  | data k =>
      rw [pointer_data, pointer_data]
      by_cases h0 : ip.addrs NDIRECT = 0
      · have hz : ip.addrs NDIRECT = 0 ∨ MAXFILE ≤ k := .inl h0
        rw [if_pos hz, if_pos hz]
      · rw [show (s.setBlock b data).block (blockNo (ip.addrs NDIRECT)) =
          s.block (blockNo (ip.addrs NDIRECT)) from Function.update_of_ne (hb h0) ..]

/-- The effect of `storeChecksum`: the pointer at position `bn` gets the checksum `v`. -/
structure Stamps (i : ℕ) (s : Fs) (ip : Inode) (bn : ℕ) (v : Byte) (s' : Fs) (ip' : Inode) :
    Prop where
  rest : SameRest s s'
  bitmap : s'.bitmap = s.bitmap
  exhausted : s'.exhausted = s.exhausted
  addrs : ip' = { ip with addrs := ip'.addrs }
  indirect : ip'.addrs NDIRECT = ip.addrs NDIRECT
  here : blockNo (pointer s'.block ip' (.data bn)) = blockNo (pointer s.block ip (.data bn))
  checksum : CH_GET_CHECKSUM (pointer s'.block ip' (.data bn)) = v
  others : ∀ j q, (table s i ip j).type ≠ 0 → (j, q) ≠ (i, .data bn) →
    pointer s'.block (table s' i ip' j) q = pointer s.block (table s i ip j) q
  block : ∀ c, (ip.addrs NDIRECT ≠ 0 → c ≠ blockNo (ip.addrs NDIRECT)) → s'.block c = s.block c
  quiet : ip.type ≠ T_CHECKED → ip' = ip

theorem storeChecksum_spec (h : Sound s (table s i ip)) (hi : ip.type ≠ 0)
    (hp : pointer s.block ip (.data bn) ≠ 0) {data : ℕ → Byte}
    (hst : storeChecksum s ip bn data = .ok (s', ip')) :
    Stamps i s ip bn (if ip.type = T_CHECKED then calculate_checksum data BSIZE else 0) s' ip' := by
  have hmax : bn < 12 + 128 := lt_MAXFILE_of_pointer hp
  unfold storeChecksum at hst
  by_cases hc : ip.type = T_CHECKED
  · rw [if_pos hc] at hst ⊢
    unfold update_checksum at hst
    split at hst
    · -- a direct block: the pointer is in the inode
      next hbn =>
      obtain ⟨rfl, rfl⟩ := Prod.mk.inj (Except.ok.inj hst)
      have hptr : pointer s.block ip (.data bn) = ip.addrs bn := if_pos hbn
      exact {
        rest := .refl s
        bitmap := rfl
        exhausted := rfl
        addrs := rfl
        indirect := setAddr_of_ne ip _ (show 12 ≠ bn from Nat.ne_of_gt hbn)
        here := by rw [pointer_data, if_pos hbn, setAddr_self, blockNo_SET, hptr]
        checksum := by rw [pointer_data, if_pos hbn, setAddr_self, CH_GET_CHECKSUM_SET]
        others := by
          intro j q _ hne
          by_cases hj : j = i
          · subst hj
            rw [table_self, table_self]
            exact pointer_setAddr_of_ne _ hbn fun hq => hne (by rw [hq])
          · rw [table_of_ne hj, table_of_ne hj]
        block := fun _ _ => rfl
        quiet := fun hplain => absurd hc hplain }
    · next hbn =>
      have hlt : bn - NDIRECT < NINDIRECT := by
        have hbn' : ¬ bn < 12 := hbn
        show bn - 12 < 128
        omega
      have hsplit : bn = NDIRECT + (bn - NDIRECT) := by
        have hbn' : ¬ bn < 12 := hbn
        show bn = 12 + (bn - 12)
        omega
      have h0 : ip.addrs NDIRECT ≠ 0 := by
        intro h0
        rw [pointer_data, if_neg hbn, if_pos (.inl h0)] at hp
        exact hp rfl
      rw [if_pos hlt] at hst
      obtain ⟨rfl, rfl⟩ := Prod.mk.inj (Except.ok.inj hst)
      have hptr : pointer s.block ip (.data bn) =
          word (s.block (blockNo (ip.addrs NDIRECT))) (bn - NDIRECT) := by
        rw [hsplit, pointer_of_indirect _ h0 hlt, Nat.add_sub_cancel_left]
      have hptr' := pointer_setWord_self (s := s) h0 hlt
        (CH_SET_CHECKSUM (word (s.block (blockNo (ip.addrs NDIRECT))) (bn - NDIRECT))
          (calculate_checksum data BSIZE))
      rw [← hsplit] at hptr'
      exact {
        rest := ⟨rfl, rfl, rfl, rfl, rfl, rfl⟩
        bitmap := rfl
        exhausted := rfl
        addrs := rfl
        indirect := rfl
        here := by
          rw [hptr]
          exact (congrArg blockNo hptr').trans (blockNo_SET _ _)
        checksum := (congrArg CH_GET_CHECKSUM hptr').trans (CH_GET_CHECKSUM_SET _ _)
        others := by
          intro j q hj hne
          rw [hsplit] at hne
          exact pointer_setWord_of_ne h hi h0 _ hj hne
        block := fun c hcne => setWord_block_of_ne (hcne h0)
        quiet := fun hplain => absurd hc hplain }
  · rw [if_neg hc] at hst ⊢
    obtain ⟨rfl, rfl⟩ := Prod.mk.inj (Except.ok.inj hst)
    have hplain := h.plain i bn
    rw [table_self] at hplain
    exact {
      rest := .refl s
      bitmap := rfl
      exhausted := rfl
      addrs := rfl
      indirect := rfl
      here := rfl
      checksum := hplain hi hc
      others := fun _ _ _ _ => rfl
      block := fun _ _ => rfl
      quiet := fun _ => rfl }

/-- A data block is never an indirect block. -/
theorem Sound.indirect_ne {tbl : ℕ → Inode} (h : Sound s tbl) {k : ℕ}
    (hr : Reaches s tbl i (.data k)) {j : ℕ} (hj : (tbl j).type ≠ 0)
    (h0 : (tbl j).addrs NDIRECT ≠ 0) :
    blockNo ((tbl j).addrs NDIRECT) ≠ blockAt s tbl i (.data k) := by
  intro he
  have := (h.distinct j .indirect i (.data k) ⟨hj, h0⟩ hr he).2
  cases this

/-- Storing the checksum and then the block rewrites the block. -/
theorem Stamps.rewrites {data : ℕ → Byte} (h : Sound s (table s i ip)) (hi : ip.type ≠ 0)
    (hp : pointer s.block ip (.data bn) ≠ 0)
    (hst : Stamps i s ip bn (if ip.type = T_CHECKED then calculate_checksum data BSIZE else 0)
      s' ip') :
    Rewrites s (s'.setBlock (blockNo (pointer s.block ip (.data bn))) data) (table s i ip)
      (table (s'.setBlock (blockNo (pointer s.block ip (.data bn))) data) i ip') i bn data := by
  have hr : Reaches s (table s i ip) i (.data bn) := ⟨by rwa [table_self], by rwa [table_self]⟩
  have hB : blockAt s (table s i ip) i (.data bn) = blockNo (pointer s.block ip (.data bn)) := by
    rw [blockAt, table_self]
  rw [← hB]
  -- no inode in use has the block as its indirect block
  have hkeep : ∀ j q, (table s i ip j).type ≠ 0 →
      pointer (s'.setBlock (blockAt s (table s i ip) i (.data bn)) data).block
        (table s' i ip' j) q = pointer s'.block (table s' i ip' j) q := by
    intro j q hj
    have h12 : (table s' i ip' j).addrs NDIRECT = (table s i ip j).addrs NDIRECT := by
      by_cases hji : j = i
      · subst hji
        rw [table_self, table_self, hst.indirect]
      · rw [table_of_ne hji, table_of_ne hji, hst.rest.dinode]
    refine pointer_setBlock (fun h0 => ?_) q
    rw [h12] at h0 ⊢
    exact h.indirect_ne hr hj h0
  have hi' : (table s i ip i).type ≠ 0 := by rwa [table_self]
  have hself := hkeep i (.data bn) hi'
  rw [table_self] at hself
  -- the blocks that `storeChecksum` leaves alone
  have hold : ∀ c, (∀ q, Reaches s (table s i ip) i q → q = .indirect →
      c ≠ blockAt s (table s i ip) i q) → s'.block c = s.block c := by
    intro c hc
    refine hst.block c fun h0 => ?_
    have := hc .indirect ⟨hi', by rwa [table_self, pointer]⟩ rfl
    rwa [blockAt, table_self, pointer] at this
  exact {
    size := hst.rest.size
    ninodes := hst.rest.ninodes
    bitmap := hst.bitmap
    reached := hr
    here := by
      rw [blockAt, table_self]
      exact ((congrArg blockNo hself).trans hst.here).trans hB.symm
    checksum := by
      rw [table_self, table_self]
      exact (congrArg CH_GET_CHECKSUM hself).trans hst.checksum
    others := fun j q hj hne => (hkeep j q hj).trans (hst.others j q hj hne)
    kept := by
      intro j
      by_cases hji : j = i
      · subst hji
        rw [table_self, table_self, hst.addrs]
        exact ⟨rfl, rfl⟩
      · rw [table_of_ne hji, table_of_ne hji]
        exact ⟨congrArg (fun f => (f j).type) hst.rest.dinode,
          congrArg (fun f => (f j).size) hst.rest.dinode⟩
    block := Function.update_self ..
    data := by
      intro j l hj hne
      have hB' : blockAt s (table s i ip) j (.data l) ≠ blockAt s (table s i ip) i (.data bn) := by
        intro he
        obtain ⟨rfl, hl⟩ := h.distinct j _ i _ hj hr he
        exact hne (by rw [Position.data.inj hl])
      refine (Function.update_of_ne hB' ..).trans (hold _ fun q hq hind he => ?_)
      have := (h.distinct j _ i q hj hq he).2
      rw [hind] at this
      cases this
    clean := by
      intro c _ hfree
      have hcB : c ≠ blockAt s (table s i ip) i (.data bn) := (h.not_free hr hfree).symm
      refine (Function.update_of_ne hcB ..).trans (hold c fun q hq _ => ?_)
      exact (h.not_free hq hfree).symm }

end

end IntroToOS.CheckedFs

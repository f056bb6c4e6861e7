import IntroToOS.CheckedFs.Sound

/-! # Allocation

What `balloc` and `bmap` do to a sound file system while a call works on the in-core copy `ip` of
inode `i`: `bmap` attaches up to two blocks, so it keeps the file system sound and the contents of
every file as they are, and it gives back the block of the position.
-/

namespace IntroToOS.CheckedFs
open Lib
set_option autoImplicit false

theorem firstFree_eq_some {bm : ℕ → Bool} {n b c : ℕ} (h : firstFree bm n b = some c) :
    bm c = false := by
  induction n generalizing b with
  | zero => simp [firstFree] at h
  | succ n ih =>
      unfold firstFree at h
      split at h
      · exact ih h
      · next hb =>
        obtain rfl := Option.some.inj h
        simpa using hb

/-- The file system after `balloc` has marked block `b`. -/
def Fs.mark (s : Fs) (b : ℕ) : Fs := { s with bitmap := Function.update s.bitmap b true }

/-- While the disk is not exhausted, `balloc` marks a free block of the disk. -/
theorem balloc_spec {s s' : Fs} {a : Addr} (h : balloc s = .ok (s', a))
    (hex : s'.exhausted = false) :
    ∃ b < s.size, s.bitmap b = false ∧ a = BitVec.ofNat 32 b ∧ s' = s.mark b := by
  unfold balloc at h
  split at h
  · next b hb =>
    obtain ⟨rfl, rfl⟩ := Prod.mk.inj (Except.ok.inj h)
    obtain ⟨hex₀, hlt⟩ : s.exhausted = false ∧ b < s.size := by simpa using hex
    refine ⟨b, hlt, firstFree_eq_some hb, rfl, ?_⟩
    have : ¬ s.size ≤ b := by omega
    simp [Fs.mark, this]
  · cases h

/-! ## Working on one inode -/

/-- Everything but the bitmap and the blocks is the same. -/
structure SameRest (s s' : Fs) : Prop where
  size : s'.size = s.size
  ninodes : s'.ninodes = s.ninodes
  dinode : s'.dinode = s.dinode
  inode : s'.inode = s.inode
  devsw : s'.devsw = s.devsw
  freed : s'.freed = s.freed

theorem SameRest.refl (s : Fs) : SameRest s s := ⟨rfl, rfl, rfl, rfl, rfl, rfl⟩

theorem SameRest.trans {s t u : Fs} (h : SameRest s t) (h' : SameRest t u) : SameRest s u :=
  ⟨h'.size.trans h.size, h'.ninodes.trans h.ninodes, h'.dinode.trans h.dinode,
    h'.inode.trans h.inode, h'.devsw.trans h.devsw, h'.freed.trans h.freed⟩

/-- The working copy `ip` of inode `i` becomes `ip'`: only its pointers change, none of them is
lost, and the other files stay as they are. -/
structure Extends (i : ℕ) (s : Fs) (ip : Inode) (s' : Fs) (ip' : Inode) : Prop where
  sound : Sound s' (table s' i ip')
  rest : SameRest s s'
  addrs : ip' = { ip with addrs := ip'.addrs }
  alloc : ∀ k, pointer s.block ip (.data k) ≠ 0 → pointer s'.block ip' (.data k) ≠ 0
  others : ∀ j, j ≠ i → (s.dinode j).type ≠ 0 →
    fileByte s'.block (s.dinode j) = fileByte s.block (s.dinode j)

section
variable {i : ℕ} {s s' s'' : Fs} {ip ip' ip'' : Inode}

@[simp] theorem table_self (s : Fs) (i : ℕ) (ip : Inode) : table s i ip i = ip :=
  Function.update_self ..

theorem table_of_ne {j : ℕ} (h : j ≠ i) : table s i ip j = s.dinode j :=
  Function.update_of_ne h ..

theorem Extends.refl (h : Sound s (table s i ip)) : Extends i s ip s ip :=
  ⟨h, .refl s, rfl, fun _ hk => hk, fun _ _ _ => rfl⟩

theorem Extends.trans (h : Extends i s ip s' ip') (h' : Extends i s' ip' s'' ip'') :
    Extends i s ip s'' ip'' where
  sound := h'.sound
  rest := h.rest.trans h'.rest
  addrs := by
    rw [h'.addrs, h.addrs]
  alloc := fun k hk => h'.alloc k (h.alloc k hk)
  others := by
    intro j hj hu
    have h1 := h.others j hj hu
    have h2 := h'.others j hj (by rw [h.rest.dinode]; exact hu)
    rw [h.rest.dinode] at h2
    exact h2.trans h1

/-- The file itself keeps its bytes as well. -/
structure Keeps (i : ℕ) (s : Fs) (ip : Inode) (s' : Fs) (ip' : Inode) : Prop
    extends Extends i s ip s' ip' where
  file : fileByte s'.block ip' = fileByte s.block ip

theorem Keeps.refl (h : Sound s (table s i ip)) : Keeps i s ip s ip := ⟨.refl h, rfl⟩

theorem Keeps.trans (h : Keeps i s ip s' ip') (h' : Keeps i s' ip' s'' ip'') :
    Keeps i s ip s'' ip'' :=
  ⟨h.toExtends.trans h'.toExtends, h'.file.trans h.file⟩

theorem Extends.type (h : Extends i s ip s' ip') : ip'.type = ip.type := by rw [h.addrs]

theorem Extends.size (h : Extends i s ip s' ip') : ip'.size = ip.size := by rw [h.addrs]

/-- Attaching a block to the inode keeps everything. -/
theorem Attaches.keeps {p : Position} {b : ℕ} (h : Sound s (table s i ip))
    (ha : Attaches s s' (table s i ip) (table s' i ip') i p b) (hrest : SameRest s s')
    (haddrs : ip' = { ip with addrs := ip'.addrs }) : Keeps i s ip s' ip' where
  sound := h.attach ha
  rest := hrest
  addrs := haddrs
  alloc := by
    intro k hk
    have hi := ha.inUse
    rw [table_self] at hi
    have hr : Reaches s (table s i ip) i (.data k) := ⟨by rwa [table_self], by rwa [table_self]⟩
    have := ((ha.reaches_iff h).mpr (.inr hr)).ne_zero
    rwa [table_self] at this
  others := by
    intro j hj hu
    have := ha.fileByte_eq h (j := j) (by rwa [table_of_ne hj])
    rwa [table_of_ne hj, table_of_ne hj, hrest.dinode] at this
  file := by
    have := ha.fileByte_eq h ha.inUse
    rwa [table_self, table_self] at this

/-- The new block is reached. -/
theorem Attaches.ne_zero {p : Position} {b : ℕ} (h : Sound s (table s i ip))
    (ha : Attaches s s' (table s i ip) (table s' i ip') i p b) : pointer s'.block ip' p ≠ 0 := by
  have := ((ha.reaches_iff h).mpr (.inl rfl)).ne_zero
  rwa [table_self] at this

end

/-! ## The three allocations of `bmap` -/

section
variable {i : ℕ} {s : Fs} {ip : Inode} {b : ℕ}

@[simp] theorem setAddr_self (ip : Inode) (k : ℕ) (a : Addr) : (ip.setAddr k a).addrs k = a := by
  simp [Inode.setAddr]

theorem setAddr_of_ne (ip : Inode) {k l : ℕ} (a : Addr) (h : l ≠ k) :
    (ip.setAddr k a).addrs l = ip.addrs l := by
  simp [Inode.setAddr, h]

theorem pointer_data (block : ℕ → ℕ → Byte) (ip : Inode) (k : ℕ) : pointer block ip (.data k) =
    if k < NDIRECT then ip.addrs k
    else if ip.addrs NDIRECT = 0 ∨ MAXFILE ≤ k then 0
    else word (block (blockNo (ip.addrs NDIRECT))) (k - NDIRECT) := rfl

theorem pointer_setAddr_of_ne {block : ℕ → ℕ → Byte} {bn : ℕ} {q : Position} (a : Addr)
    (hbn : bn < NDIRECT) (hq : q ≠ .data bn) :
    pointer block (ip.setAddr bn a) q = pointer block ip q := by
  have hbn' : bn < 12 := hbn
  have h12 : (ip.setAddr bn a).addrs NDIRECT = ip.addrs NDIRECT :=
    setAddr_of_ne ip a (show 12 ≠ bn by omega)
  cases q with
  | indirect => exact h12
  | data k =>
      have hk : (ip.setAddr bn a).addrs k = ip.addrs k :=
        setAddr_of_ne ip a fun he => hq (by rw [he])
      rw [pointer_data, pointer_data, h12, hk]

theorem attaches_direct {bn : ℕ} (hi : ip.type ≠ 0) (hbn : bn < NDIRECT) (h0 : ip.addrs bn = 0)
    (hb : b < s.size) (hfree : s.bitmap b = false) :
    Attaches s (s.mark b) (table s i ip)
      (table (s.mark b) i (ip.setAddr bn (BitVec.ofNat 32 b))) i (.data bn) b where
  size := rfl
  ninodes := rfl
  free := hfree
  lt := hb
  bitmap := rfl
  inUse := by rwa [table_self]
  none := by rw [table_self, pointer, if_pos hbn, h0]
  here := by
    rw [table_self, pointer, if_pos hbn, setAddr_self]
  others := by
    intro j q _ hne
    by_cases hj : j = i
    · subst hj
      rw [table_self, table_self]
      exact pointer_setAddr_of_ne _ hbn fun hq => hne (by rw [hq])
    · rw [table_of_ne hj, table_of_ne hj]
      rfl
  kept := by
    intro j
    by_cases hj : j = i
    · subst hj
      rw [table_self, table_self]
      exact ⟨rfl, rfl⟩
    · rw [table_of_ne hj, table_of_ne hj]
      exact ⟨rfl, rfl⟩
  data := fun _ _ _ => rfl
  clean := fun _ _ => rfl

theorem attaches_indirect (h : Sound s (table s i ip)) (hi : ip.type ≠ 0)
    (h0 : ip.addrs NDIRECT = 0) (hb : b < s.size) (hfree : s.bitmap b = false) :
    Attaches s (s.mark b) (table s i ip)
      (table (s.mark b) i (ip.setAddr NDIRECT (BitVec.ofNat 32 b))) i .indirect b where
  size := rfl
  ninodes := rfl
  free := hfree
  lt := hb
  bitmap := rfl
  inUse := by rwa [table_self]
  none := by rw [table_self, pointer, h0]
  here := by
    rw [table_self, pointer, setAddr_self]
  others := by
    intro j q _ hne
    by_cases hj : j = i
    · subst hj
      rw [table_self, table_self]
      have h12 := setAddr_self ip NDIRECT (BitVec.ofNat 32 b)
      cases q with
      | indirect => exact absurd rfl hne
      | data k =>
          rw [pointer_data, pointer_data]
          by_cases hk : k < NDIRECT
          · rw [if_pos hk, if_pos hk]
            exact setAddr_of_ne ip _ (show k ≠ 12 from Nat.ne_of_lt hk)
          · -- the words of the new block are all zero
            have hzero : word ((s.mark b).block (blockNo (BitVec.ofNat 32 b))) (k - NDIRECT) = 0 := by
              rw [blockNo_ofNat (Nat.lt_of_lt_of_le hb h.fits)]
              have : (s.mark b).block b = fun _ => 0 := funext (h.clean b hb hfree)
              rw [this, word_zero]
            rw [if_neg hk, if_neg hk, h12, hzero, h0, ite_self]
            simp
    · rw [table_of_ne hj, table_of_ne hj]
      rfl
  kept := by
    intro j
    by_cases hj : j = i
    · subst hj
      rw [table_self, table_self]
      exact ⟨rfl, rfl⟩
    · rw [table_of_ne hj, table_of_ne hj]
      exact ⟨rfl, rfl⟩
  data := fun _ _ _ => rfl
  clean := fun _ _ => rfl

/-- The file system after word `j` of the block `bp` has been set. -/
def Fs.setWord (s : Fs) (bp j : ℕ) (w : Addr) : Fs := s.setBlock bp (putWord (s.block bp) j w)

theorem setWord_block_of_ne {bp j c : ℕ} {w : Addr} (hc : c ≠ bp) :
    (s.setWord bp j w).block c = s.block c := Function.update_of_ne hc ..

theorem setWord_block_self {bp j : ℕ} {w : Addr} :
    (s.setWord bp j w).block bp = putWord (s.block bp) j w := Function.update_self ..

/-- Setting a word of the indirect block of inode `i` changes one pointer. -/
theorem pointer_setWord_of_ne (h : Sound s (table s i ip)) (hi : ip.type ≠ 0)
    (h0 : ip.addrs NDIRECT ≠ 0) {bn : ℕ} (w : Addr) {j : ℕ} {q : Position}
    (hj : (table s i ip j).type ≠ 0) (hne : (j, q) ≠ (i, .data (NDIRECT + bn))) :
    pointer (s.setWord (blockNo (ip.addrs NDIRECT)) bn w).block (table s i ip j) q =
      pointer s.block (table s i ip j) q := by
  cases q with
  | indirect => rfl
  | data k =>
      rw [pointer_data, pointer_data]
      by_cases hk : k < NDIRECT
      · rw [if_pos hk, if_pos hk]
      · rw [if_neg hk, if_neg hk]
        by_cases hz : (table s i ip j).addrs NDIRECT = 0 ∨ MAXFILE ≤ k
        · rw [if_pos hz, if_pos hz]
        · rw [if_neg hz, if_neg hz]
          rw [not_or] at hz
          by_cases hji : j = i
          · subst hji
            rw [table_self, setWord_block_self]
            refine word_putWord_of_ne _ _ fun he => hne ?_
            have h12 : ¬ k < 12 := hk
            have he' : k - 12 = bn := he
            rw [show k = 12 + bn by omega]
          · have hreach : Reaches s (table s i ip) j .indirect := ⟨hj, hz.1⟩
            have hreach' : Reaches s (table s i ip) i .indirect :=
              ⟨by rwa [table_self], by rwa [table_self, pointer]⟩
            rw [setWord_block_of_ne]
            intro he
            refine hji (h.distinct j .indirect i .indirect hreach hreach' ?_).1
            rw [blockAt, blockAt, table_self]
            exact he

theorem pointer_setWord_self {bn : ℕ} (h0 : ip.addrs NDIRECT ≠ 0) (hbn : bn < NINDIRECT) (w : Addr) :
    pointer (s.setWord (blockNo (ip.addrs NDIRECT)) bn w).block ip (.data (NDIRECT + bn)) = w := by
  have hlt : bn < 128 := hbn
  have hk : ¬ NDIRECT + bn < NDIRECT := by omega
  have hz : ¬ (ip.addrs NDIRECT = 0 ∨ MAXFILE ≤ NDIRECT + bn) := by
    rintro (hz | hz)
    · exact h0 hz
    · have : (140 : ℕ) ≤ 12 + bn := hz
      omega
  rw [pointer, if_neg hk, if_neg hz, setWord_block_self, Nat.add_sub_cancel_left, word_putWord]

/-- The indirect block is none of the data blocks, and it is not free. -/
theorem setWord_block_data (h : Sound s (table s i ip)) (hi : ip.type ≠ 0)
    (h0 : ip.addrs NDIRECT ≠ 0) {bn : ℕ} (w : Addr) {j k : ℕ}
    (hr : Reaches s (table s i ip) j (.data k)) :
    (s.setWord (blockNo (ip.addrs NDIRECT)) bn w).block (blockAt s (table s i ip) j (.data k)) =
      s.block (blockAt s (table s i ip) j (.data k)) := by
  have hreach : Reaches s (table s i ip) i .indirect :=
    ⟨by rwa [table_self], by rwa [table_self, pointer]⟩
  refine setWord_block_of_ne fun he => ?_
  have hd := h.distinct j (.data k) i .indirect hr hreach (by
    rw [he, blockAt, table_self]
    rfl)
  exact absurd hd.2 (by simp)

theorem setWord_block_free (h : Sound s (table s i ip)) (hi : ip.type ≠ 0)
    (h0 : ip.addrs NDIRECT ≠ 0) {bn c : ℕ} (w : Addr) (hc : s.bitmap c = false) :
    (s.setWord (blockNo (ip.addrs NDIRECT)) bn w).block c = s.block c := by
  have hreach : Reaches s (table s i ip) i .indirect :=
    ⟨by rwa [table_self], by rwa [table_self, pointer]⟩
  refine setWord_block_of_ne fun he => ?_
  refine h.not_free hreach hc ?_
  rw [he, blockAt, table_self]
  rfl

theorem attaches_word (h : Sound s (table s i ip)) {bn : ℕ} (hi : ip.type ≠ 0)
    (h0 : ip.addrs NDIRECT ≠ 0) (hbn : bn < NINDIRECT)
    (hw : word (s.block (blockNo (ip.addrs NDIRECT))) bn = 0) (hb : b < s.size)
    (hfree : s.bitmap b = false) :
    Attaches s ((s.mark b).setWord (blockNo (ip.addrs NDIRECT)) bn (BitVec.ofNat 32 b))
      (table s i ip)
      (table ((s.mark b).setWord (blockNo (ip.addrs NDIRECT)) bn (BitVec.ofNat 32 b)) i ip) i
      (.data (NDIRECT + bn)) b where
  size := rfl
  ninodes := rfl
  free := hfree
  lt := hb
  bitmap := rfl
  inUse := by rwa [table_self]
  none := by
    have hk : ¬ NDIRECT + bn < NDIRECT := by omega
    rw [table_self, pointer, if_neg hk, Nat.add_sub_cancel_left, hw, ite_self]
  here := by
    rw [table_self]
    exact pointer_setWord_self h0 hbn _
  others := fun _ _ hj hne => pointer_setWord_of_ne h hi h0 _ hj hne
  kept := fun _ => ⟨rfl, rfl⟩
  data := fun _ _ hr => setWord_block_data h hi h0 _ hr
  clean := fun _ hc => setWord_block_free h hi h0 _ hc

end

/-! ## The block of a position -/

section
variable {i : ℕ} {s s' : Fs} {ip ip' : Inode} {bn b : ℕ}

theorem exhausted_of_balloc {a : Addr} (h : balloc s = .ok (s', a)) (hex : s'.exhausted = false) :
    s.exhausted = false := by
  obtain ⟨b, -, -, -, rfl⟩ := balloc_spec h hex
  exact hex

theorem bmapIndirect_spec (h : Sound s (table s i ip)) (hi : ip.type ≠ 0)
    (hb : bmapIndirect s ip = .ok (s', ip')) (hex : s'.exhausted = false) :
    Keeps i s ip s' ip' ∧ ip'.addrs NDIRECT ≠ 0 := by
  unfold bmapIndirect at hb
  split at hb
  · next h0 =>
    obtain ⟨⟨t, a⟩, hball, ht⟩ := bind_eq_ok.mp hb
    obtain ⟨rfl, rfl⟩ := Prod.mk.inj (Except.ok.inj ht)
    obtain ⟨b, hlt, hfree, rfl, rfl⟩ := balloc_spec hball hex
    have ha := attaches_indirect h hi h0 hlt hfree
    exact ⟨ha.keeps h ⟨rfl, rfl, rfl, rfl, rfl, rfl⟩ rfl, ha.ne_zero h⟩
  · next h0 =>
    obtain ⟨rfl, rfl⟩ := Prod.mk.inj (Except.ok.inj hb)
    exact ⟨.refl h, h0⟩

theorem pointer_of_indirect (block : ℕ → ℕ → Byte) (h0 : ip.addrs NDIRECT ≠ 0) {j : ℕ}
    (hj : j < NINDIRECT) : pointer block ip (.data (NDIRECT + j)) =
      word (block (blockNo (ip.addrs NDIRECT))) j := by
  have hj' : j < 128 := hj
  have hk : ¬ NDIRECT + j < NDIRECT := by omega
  have hz : ¬ (ip.addrs NDIRECT = 0 ∨ MAXFILE ≤ NDIRECT + j) := by
    rintro (hz | hz)
    · exact h0 hz
    · have : (140 : ℕ) ≤ 12 + j := hz
      omega
  rw [pointer_data, if_neg hk, if_neg hz, Nat.add_sub_cancel_left]

/-- `bmap` keeps all files as they are and returns the block that the position names afterwards. -/
theorem bmap_spec (h : Sound s (table s i ip)) (hi : ip.type ≠ 0)
    (hb : bmap s ip bn = .ok (s', ip', b)) (hex : s'.exhausted = false) :
    Keeps i s ip s' ip' ∧ bn < MAXFILE ∧ pointer s'.block ip' (.data bn) ≠ 0 ∧
      b = blockNo (pointer s'.block ip' (.data bn)) := by
  unfold bmap at hb
  split at hb
  · next hbn =>
    have hmax : bn < MAXFILE := Nat.lt_of_lt_of_le hbn (Nat.le_add_right ..)
    split at hb
    · next h0 =>
      obtain ⟨⟨t, a⟩, hball, ht⟩ := bind_eq_ok.mp hb
      obtain ⟨rfl, rfl, rfl⟩ := by simpa only [Except.ok.injEq, Prod.mk.injEq] using ht
      obtain ⟨c, hlt, hfree, rfl, rfl⟩ := balloc_spec hball hex
      have ha := attaches_direct (i := i) hi hbn h0 hlt hfree
      refine ⟨ha.keeps h ⟨rfl, rfl, rfl, rfl, rfl, rfl⟩ rfl, hmax, ha.ne_zero h, ?_⟩
      rw [pointer_data, if_pos hbn, setAddr_self]
    · next h0 =>
      obtain ⟨rfl, rfl, rfl⟩ := by simpa only [Except.ok.injEq, Prod.mk.injEq] using hb
      refine ⟨.refl h, hmax, ?_, ?_⟩ <;> rw [pointer_data, if_pos hbn]
      exact h0
  · next hbn =>
    split at hb
    · next hlt =>
      have hmax : bn < MAXFILE := by
        have h1 : ¬ bn < 12 := hbn
        have h2 : bn - 12 < 128 := hlt
        show bn < 12 + 128
        omega
      have hsplit : bn = NDIRECT + (bn - NDIRECT) := by
        have h1 : ¬ bn < 12 := hbn
        show bn = 12 + (bn - 12)
        omega
      obtain ⟨⟨t, iq⟩, hind, ht⟩ := bind_eq_ok.mp hb
      simp only at ht
      split at ht
      · next hw =>
        obtain ⟨⟨u, a⟩, hball, hu⟩ := bind_eq_ok.mp ht
        obtain ⟨rfl, rfl, rfl⟩ := by simpa only [Except.ok.injEq, Prod.mk.injEq] using hu
        obtain ⟨c, hc, hfree, rfl, rfl⟩ := balloc_spec hball hex
        obtain ⟨hkeeps, h12⟩ := bmapIndirect_spec h hi hind hex
        have hu : iq.type ≠ 0 := by rw [hkeeps.type]; exact hi
        have ha := attaches_word hkeeps.sound hu h12 hlt hw hc hfree
        rw [← hsplit] at ha
        refine ⟨hkeeps.trans (ha.keeps hkeeps.sound ⟨rfl, rfl, rfl, rfl, rfl, rfl⟩ rfl), hmax,
          ha.ne_zero hkeeps.sound, ?_⟩
        have hhere := ha.here
        rw [table_self] at hhere
        exact congrArg blockNo hhere.symm
      · next hw =>
        obtain ⟨rfl, rfl, rfl⟩ := by simpa only [Except.ok.injEq, Prod.mk.injEq] using ht
        obtain ⟨hkeeps, h12⟩ := bmapIndirect_spec h hi hind hex
        rw [hsplit, pointer_of_indirect _ h12 hlt, Nat.add_sub_cancel_left]
        rw [← hsplit]
        exact ⟨hkeeps, hmax, hw, rfl⟩
    · cases hb

/-- A block that is there is found, and nothing changes. -/
theorem bmap_of_allocated (hp : pointer s.block ip (.data bn) ≠ 0) :
    bmap s ip bn = .ok (s, ip, blockNo (pointer s.block ip (.data bn))) := by
  rw [pointer_data] at hp ⊢
  unfold bmap
  by_cases hbn : bn < NDIRECT
  · rw [if_pos hbn] at hp ⊢
    rw [if_neg hp]
    simp [hbn]
  · rw [if_neg hbn] at hp
    split at hp
    · exact absurd rfl hp
    · next hz =>
      rw [if_neg hbn, if_neg hbn, if_neg hz]
      rw [not_or] at hz
      have hlt : bn - NDIRECT < NINDIRECT := by
        have h1 : ¬ 12 + 128 ≤ bn := hz.2
        have h2 : ¬ bn < 12 := hbn
        show bn - 12 < 128
        omega
      have hind : bmapIndirect s ip = .ok (s, ip) := if_neg hz.1
      rw [if_pos hlt, hind, ok_bind]
      exact if_neg hp

end

end IntroToOS.CheckedFs

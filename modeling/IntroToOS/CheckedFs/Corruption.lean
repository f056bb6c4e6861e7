import IntroToOS.CheckedFs.Outcomes

/-! # A block that changes on the disk

The data block of a checked file is replaced on the disk by bytes with another checksum, and the
pointers stay as they are. A read that meets the block returns -1, also when it has delivered good
bytes before; a read that does not meet it is the same as before.
-/

namespace IntroToOS.CheckedFs
open Lib
set_option autoImplicit false

/-- A checked file whose stored checksums are correct: every block within its size is there, the
pointer carries the checksum of the block, and the block is not the one that holds the pointers. -/
structure Intact (s : Fs) (ip : Inode) : Prop where
  checked : ip.type = T_CHECKED
  covered : ∀ k, k * BSIZE < ip.size → pointer s.block ip (.data k) ≠ 0
  stored : ∀ k, k * BSIZE < ip.size → CH_GET_CHECKSUM (pointer s.block ip (.data k)) =
    calculate_checksum (s.block (blockNo (pointer s.block ip (.data k)))) BSIZE
  indirect : ∀ k, k * BSIZE < ip.size → ip.addrs NDIRECT ≠ 0 →
    blockNo (ip.addrs NDIRECT) ≠ blockNo (pointer s.block ip (.data k))

/-- The number of bytes that a read delivers. -/
def clipRead (size off n : ℕ) : ℕ :=
  if size < off ∨ wraps off n then 0 else if size < off + n then size - off else n

/-- The clipped range of a read includes a byte of block `b` of the disk. -/
def Includes (s : Fs) (ip : Inode) (off n b : ℕ) : Prop :=
  ∃ o, off ≤ o ∧ o < off + clipRead ip.size off n ∧
    blockNo (pointer s.block ip (.data (o / BSIZE))) = b

/-- Block `bn` of the file is replaced on the disk. -/
def corrupt (s : Fs) (ip : Inode) (bn : ℕ) (data : ℕ → Byte) : Fs :=
  s.setBlock (blockNo (pointer s.block ip (.data bn))) data

/-! ## Checksums of changed blocks -/

theorem calculate_checksum_succ (f : ℕ → Byte) (n : ℕ) :
    calculate_checksum f (n + 1) = calculate_checksum f n ^^^ f n := by
  rw [calculate_checksum, List.range_succ, List.map_append, xorBytes_append]
  simp [calculate_checksum, xorBytes]

theorem calculate_checksum_congr {f g : ℕ → Byte} {n : ℕ} (h : ∀ y < n, f y = g y) :
    calculate_checksum f n = calculate_checksum g n :=
  congrArg xorBytes (List.map_congr_left fun y hy => h y (List.mem_range.mp hy))

/-- Changing byte `x` changes the checksum by the exclusive or of the two bytes. -/
theorem checksum_of_change {f g : ℕ → Byte} {x n : ℕ} (hsame : ∀ y < n, y ≠ x → f y = g y)
    (hx : x < n) : calculate_checksum f n = calculate_checksum g n ^^^ (f x ^^^ g x) := by
  induction n with
  | zero => omega
  | succ n ih =>
      rw [calculate_checksum_succ, calculate_checksum_succ]
      by_cases hlast : x = n
      · subst hlast
        rw [calculate_checksum_congr fun y hy => hsame y (by omega) (by omega), BitVec.xor_assoc,
          ← BitVec.xor_assoc (g x), BitVec.xor_comm (g x), BitVec.xor_assoc (f x), BitVec.xor_self,
          BitVec.xor_zero]
      · rw [ih (fun y hy => hsame y (by omega)) (by omega), hsame n (by omega) (Ne.symm hlast),
          BitVec.xor_assoc, BitVec.xor_comm (f x ^^^ g x), ← BitVec.xor_assoc]

/-- Every change of exactly one byte changes the checksum. -/
theorem checksum_ne_of_change {f g : ℕ → Byte} {x : ℕ}
    (hsame : ∀ y < BSIZE, y ≠ x → f y = g y) (hx : x < BSIZE) (hne : f x ≠ g x) :
    calculate_checksum f BSIZE ≠ calculate_checksum g BSIZE := by
  intro he
  rw [checksum_of_change hsame hx] at he
  have hzero : f x ^^^ g x = 0#8 := by
    have := congrArg (calculate_checksum g BSIZE ^^^ ·) he
    simpa [← BitVec.xor_assoc] using this
  exact hne (BitVec.xor_eq_zero_iff.mp hzero)

/-! ## Reading -/

section
variable {s : Fs} {ip : Inode} {off n left k b o : ℕ} {data : ℕ → Byte}

/-- The test of a turn of the loop, for an allocated block of a checked file. -/
theorem checkBlock_checked (hc : ip.type = T_CHECKED)
    (hp : pointer s.block ip (.data k) ≠ 0) :
    checkBlock s ip (blockNo (pointer s.block ip (.data k))) k =
      .ok (decide (calculate_checksum (s.block (blockNo (pointer s.block ip (.data k)))) BSIZE =
        CH_GET_CHECKSUM (pointer s.block ip (.data k)))) := by
  rw [checkBlock, if_pos hc, fetch_checksum_eq hp, ok_bind]

/-- A byte of an allocated block that fails the test. -/
def Broken (s : Fs) (ip : Inode) (o : ℕ) : Prop :=
  pointer s.block ip (.data (o / BSIZE)) ≠ 0 ∧
    checkBlock s ip (blockNo (pointer s.block ip (.data (o / BSIZE)))) (o / BSIZE) = .ok false

/-- The loop ends without success when a byte of the range is broken, after the good ones. -/
theorem readLoop_of_broken {fuel : ℕ} (hfuel : left ≤ fuel)
    (hr : ∀ o, off ≤ o → o < off + left → Readable s ip o ∨ Broken s ip o)
    (hbad : ∃ o, off ≤ o ∧ o < off + left ∧ Broken s ip o) (dst : List Byte) :
    ∃ dst', readLoop fuel s ip off left dst = .ok (s, ip, false, dst') := by
  induction fuel generalizing off left dst with
  | zero =>
      obtain ⟨o, h1, h2, -⟩ := hbad
      omega
  | succ fuel ih =>
      obtain ⟨o, h1, h2, hbroken⟩ := hbad
      have hl : left ≠ 0 := by omega
      have hpos := chunk_pos off (Nat.pos_of_ne_zero hl)
      have hle := chunk_le off left
      unfold readLoop
      rw [if_neg hl]
      rcases hr off (Nat.le_refl off) (by omega) with ⟨hp, hcheck⟩ | ⟨hp, hcheck⟩
      · -- this turn is good, so the broken byte lies behind its chunk
        have hbehind : off + chunk off left ≤ o := by
          by_contra hin
          have hk : o - off < chunk off left := by omega
          have hdiv := div_of_chunk hk
          rw [Nat.add_sub_cancel' h1] at hdiv
          have hcheck' := hbroken.2
          rw [hdiv, hcheck] at hcheck'
          cases hcheck'
        rw [bmap_of_allocated hp, ok_bind]
        simp only [hcheck, ok_bind, if_true]
        exact ih (by omega) (fun o' h3 h4 => hr o' (by omega) (by omega))
          ⟨o, hbehind, by omega, hbroken⟩ _
      · rw [bmap_of_allocated hp, ok_bind]
        simp only [hcheck, ok_bind]
        exact ⟨dst, rfl⟩

theorem readi_checked (hc : ip.type = T_CHECKED) (hok : ¬ (ip.size < off ∨ wraps off n)) :
    readi s ip off n = (do
      let (t, jp, good, dst) ← readLoop (clipRead ip.size off n) s ip off (clipRead ip.size off n) []
      if good then .ok (t, jp, (clipRead ip.size off n : ℤ), dst) else .ok (t, jp, -1, dst)) := by
  have hdev : ip.type ≠ T_DEV := by
    rw [hc]
    decide
  rw [readi, if_neg hdev, if_neg hok, clipRead, if_neg hok]

theorem readi_of_readable (hc : ip.type = T_CHECKED) (hok : ¬ (ip.size < off ∨ wraps off n))
    (hr : ∀ o, off ≤ o → o < off + clipRead ip.size off n → Readable s ip o) :
    readi s ip off n = .ok (s, ip, clipRead ip.size off n,
      slice (fileByte s.block ip) off (clipRead ip.size off n)) := by
  rw [readi_checked hc hok, readLoop_of_readable (Nat.le_refl _) hr]
  rfl

theorem readi_of_broken (hc : ip.type = T_CHECKED) (hok : ¬ (ip.size < off ∨ wraps off n))
    (hr : ∀ o, off ≤ o → o < off + clipRead ip.size off n → Readable s ip o ∨ Broken s ip o)
    (hbad : ∃ o, off ≤ o ∧ o < off + clipRead ip.size off n ∧ Broken s ip o) :
    ∃ dst, readi s ip off n = .ok (s, ip, -1, dst) := by
  obtain ⟨dst, hloop⟩ := readLoop_of_broken (Nat.le_refl _) hr hbad []
  rw [readi_checked hc hok, hloop]
  exact ⟨dst, rfl⟩

theorem clipRead_le (size off n : ℕ) :
    clipRead size off n = 0 ∨ off + clipRead size off n ≤ size := by
  unfold clipRead
  split
  · exact .inl rfl
  · split <;> omega

/-- A byte of the clipped range lies in a block within the size. -/
theorem lt_size_of_clipRead (h1 : off ≤ o) (h2 : o < off + clipRead ip.size off n) :
    o / BSIZE * BSIZE < ip.size := by
  have hle : o / BSIZE * BSIZE ≤ o := Nat.div_mul_le_self ..
  rcases clipRead_le ip.size off n with h0 | h0 <;> omega

end

/-! ## The corrupted disk -/

section
variable {s : Fs} {ip : Inode} {off n left k b o bn : ℕ} {data : ℕ → Byte}

/-- The pointers of the file are those from before: the indirect block is not touched. -/
theorem Intact.pointer_eq (h : Intact s ip) (hbn : bn * BSIZE < ip.size) (data : ℕ → Byte)
    (p : Position) : pointer (corrupt s ip bn data).block ip p = pointer s.block ip p :=
  pointer_setBlock (h.indirect bn hbn) p

theorem corrupt_block_of_ne {c : ℕ} (hne : c ≠ blockNo (pointer s.block ip (.data bn))) :
    (corrupt s ip bn data).block c = s.block c := Function.update_of_ne hne ..

theorem corrupt_block_self :
    (corrupt s ip bn data).block (blockNo (pointer s.block ip (.data bn))) = data :=
  Function.update_self ..

theorem Intact.readable (h : Intact s ip) (hk : o / BSIZE * BSIZE < ip.size) : Readable s ip o := by
  refine ⟨h.covered _ hk, ?_⟩
  rw [checkBlock_checked h.checked (h.covered _ hk), h.stored _ hk, decide_eq_true rfl]

/-- A byte of another block passes the test on the corrupted disk as well. -/
theorem Intact.readable_of_ne (h : Intact s ip) (hbn : bn * BSIZE < ip.size) (data : ℕ → Byte)
    (hk : o / BSIZE * BSIZE < ip.size) (hne : blockNo (pointer s.block ip (.data (o / BSIZE))) ≠
      blockNo (pointer s.block ip (.data bn))) : Readable (corrupt s ip bn data) ip o := by
  have hp := h.pointer_eq hbn data (.data (o / BSIZE))
  have hcov := h.covered _ hk
  rw [← hp] at hcov
  refine ⟨hcov, ?_⟩
  rw [checkBlock_checked h.checked hcov, hp, corrupt_block_of_ne hne, h.stored _ hk,
    decide_eq_true rfl]

/-- A byte of the changed block fails it. -/
theorem Intact.broken (h : Intact s ip) (hbn : bn * BSIZE < ip.size)
    (hk : o / BSIZE * BSIZE < ip.size) (he : blockNo (pointer s.block ip (.data (o / BSIZE))) =
      blockNo (pointer s.block ip (.data bn)))
    (hsum : calculate_checksum data BSIZE ≠
      calculate_checksum (s.block (blockNo (pointer s.block ip (.data bn)))) BSIZE) :
    Broken (corrupt s ip bn data) ip o := by
  have hp := h.pointer_eq hbn data (.data (o / BSIZE))
  have hcov := h.covered _ hk
  rw [← hp] at hcov
  refine ⟨hcov, ?_⟩
  rw [checkBlock_checked h.checked hcov, hp, h.stored _ hk, he, corrupt_block_self,
    decide_eq_false hsum]

/-- A read that includes a byte of the changed block returns -1. -/
theorem Intact.readi_detects (h : Intact s ip) (hbn : bn * BSIZE < ip.size)
    (hsum : calculate_checksum data BSIZE ≠
      calculate_checksum (s.block (blockNo (pointer s.block ip (.data bn)))) BSIZE)
    (hin : Includes s ip off n (blockNo (pointer s.block ip (.data bn)))) :
    ∃ dst, readi (corrupt s ip bn data) ip off n = .ok (corrupt s ip bn data, ip, -1, dst) := by
  obtain ⟨o, h1, h2, he⟩ := hin
  have hok : ¬ (ip.size < off ∨ wraps off n) := by
    intro hbad
    rw [clipRead, if_pos hbad] at h2
    omega
  refine readi_of_broken h.checked hok (fun x h3 h4 => ?_)
    ⟨o, h1, h2, h.broken hbn (lt_size_of_clipRead h1 h2) he hsum⟩
  by_cases hx : blockNo (pointer s.block ip (.data (x / BSIZE))) =
      blockNo (pointer s.block ip (.data bn))
  · exact .inr (h.broken hbn (lt_size_of_clipRead h3 h4) hx hsum)
  · exact .inl (h.readable_of_ne hbn data (lt_size_of_clipRead h3 h4) hx)

/-- A read that includes no byte of it delivers what it delivered before. -/
theorem Intact.readi_same (h : Intact s ip) (hbn : bn * BSIZE < ip.size)
    (hout : ¬ Includes s ip off n (blockNo (pointer s.block ip (.data bn)))) :
    ∃ ret dst, readi s ip off n = .ok (s, ip, ret, dst) ∧
      readi (corrupt s ip bn data) ip off n = .ok (corrupt s ip bn data, ip, ret, dst) := by
  by_cases hbad : ip.size < off ∨ wraps off n
  · have hdev : ip.type ≠ T_DEV := by
      rw [h.checked]
      decide
    refine ⟨-1, [], ?_, ?_⟩ <;> rw [readi, if_neg hdev, if_pos hbad]
  · have hne : ∀ o, off ≤ o → o < off + clipRead ip.size off n →
        blockNo (pointer s.block ip (.data (o / BSIZE))) ≠
          blockNo (pointer s.block ip (.data bn)) := fun o h1 h2 he => hout ⟨o, h1, h2, he⟩
    -- the bytes of the range are those from before
    have hbytes : slice (fileByte (corrupt s ip bn data).block ip) off (clipRead ip.size off n) =
        slice (fileByte s.block ip) off (clipRead ip.size off n) := by
      refine List.map_congr_left fun k hk => ?_
      have hk := List.mem_range.mp hk
      rw [fileByte, fileByte, h.pointer_eq hbn,
        corrupt_block_of_ne (hne (off + k) (by omega) (by omega))]
    have hafter := readi_of_readable h.checked hbad fun o h1 h2 =>
      h.readable_of_ne hbn data (lt_size_of_clipRead h1 h2) (hne o h1 h2)
    rw [hbytes] at hafter
    exact ⟨_, _, readi_of_readable h.checked hbad fun o h1 h2 =>
      h.readable (lt_size_of_clipRead h1 h2), hafter⟩

/-- The checked files of a sound file system are intact. -/
theorem Sound.intact {i : ℕ} (h : Sound s (table s i ip)) (hc : ip.type = T_CHECKED) :
    Intact s ip := by
  have hi : ip.type ≠ 0 := by
    rw [hc]
    decide
  have hcov : ∀ k, k * BSIZE < ip.size → pointer s.block ip (.data k) ≠ 0 := by
    intro k hk
    have := h.covered i k
    rw [table_self] at this
    exact this hi hk
  have hreach : ∀ k, k * BSIZE < ip.size → Reaches s (table s i ip) i (.data k) := fun k hk =>
    ⟨by rwa [table_self], by rw [table_self]; exact hcov k hk⟩
  exact {
    checked := hc
    covered := hcov
    stored := by
      intro k hk
      have := h.checked i k
      rw [table_self, blockAt, table_self] at this
      exact this hc (hreach k hk)
    indirect := by
      intro k hk h0
      have := h.indirect_ne (hreach k hk) (j := i)
      rw [table_self, blockAt, table_self] at this
      exact this hi h0 }

/-- A data block of a checked file is replaced: changing one byte changes the checksum, and with
another checksum every read that includes a byte of the block fails and no other read differs. -/
theorem corruption_detected (h : Intact s ip) (hbn : bn * BSIZE < ip.size) (data : ℕ → Byte) :
    (∀ x < BSIZE, data x ≠ s.block (blockNo (pointer s.block ip (.data bn))) x →
      (∀ y < BSIZE, y ≠ x → data y = s.block (blockNo (pointer s.block ip (.data bn))) y) →
      calculate_checksum data BSIZE ≠
        calculate_checksum (s.block (blockNo (pointer s.block ip (.data bn)))) BSIZE) ∧
    (calculate_checksum data BSIZE ≠
        calculate_checksum (s.block (blockNo (pointer s.block ip (.data bn)))) BSIZE →
      ∀ off n : BitVec 32,
        (Includes s ip off.toNat n.toNat (blockNo (pointer s.block ip (.data bn))) →
          ∃ dst, readi (corrupt s ip bn data) ip off.toNat n.toNat =
            .ok (corrupt s ip bn data, ip, -1, dst)) ∧
        (¬ Includes s ip off.toNat n.toNat (blockNo (pointer s.block ip (.data bn))) →
          ∃ ret dst, readi s ip off.toNat n.toNat = .ok (s, ip, ret, dst) ∧
            readi (corrupt s ip bn data) ip off.toNat n.toNat =
              .ok (corrupt s ip bn data, ip, ret, dst))) :=
  ⟨fun _ hx hne hsame => checksum_ne_of_change hsame hx hne,
    fun hsum _ _ => ⟨fun hin => h.readi_detects hbn hsum hin, fun hout => h.readi_same hbn hout⟩⟩

end

/-- A checked file of 600 bytes. -/
def twoBlocks : List Call := [.create .checked 0 0, .writei 1 (fun _ => 7) 0 600]

/-- Its second block gets one byte: reading the file fails, reading the first block does not. -/
theorem twoBlocks_detected : ∃ t ip, play step twoBlocks emptyFs = some t ∧
    t.inode 1 = some ip ∧
    (∃ dst, readi (corrupt t ip 1 (fun x => if x = 0 then 1 else 0)) ip 0 600 =
      .ok (corrupt t ip 1 (fun x => if x = 0 then 1 else 0), ip, -1, dst)) ∧
    ∃ ret dst, readi t ip 0 512 = .ok (t, ip, ret, dst) ∧
      readi (corrupt t ip 1 (fun x => if x = 0 then 1 else 0)) ip 0 512 =
        .ok (corrupt t ip 1 (fun x => if x = 0 then 1 else 0), ip, ret, dst) := by
  have hrun : ((play step twoBlocks emptyFs).bind fun t => (t.inode 1).map fun ip =>
      (decide (ip.type = T_CHECKED ∧ ip.size = 600), decide (calculate_checksum
        (fun x => if x = 0 then 1 else 0) BSIZE ≠
          calculate_checksum (t.block (blockNo (pointer t.block ip (.data 1)))) BSIZE),
        decide (blockNo (pointer t.block ip (.data 0)) ≠
          blockNo (pointer t.block ip (.data 1))))) = some (true, true, true) := by
    decide +kernel
  have hok : PlayOk step KeepsAll twoBlocks emptyFs := by decide +kernel
  obtain ⟨t, ht, hip⟩ := Option.bind_eq_some_iff.mp hrun
  obtain ⟨ip, hip, hfacts⟩ := Option.map_eq_some_iff.mp hip
  obtain ⟨hfile, hfacts⟩ := Prod.mk.inj hfacts
  obtain ⟨hsum, hne⟩ := Prod.mk.inj hfacts
  obtain ⟨hc, hsize⟩ := of_decide_eq_true hfile
  have hvalid := valid_of_run emptyFs_initial.valid (.of_playOk hok ht)
  have hintact : Intact t ip := by
    refine Sound.intact (i := 1) ?_ hc
    rw [table_eq (hvalid.cached 1 ip hip).1]
    exact hvalid.sound
  have hsecond : 1 * BSIZE < ip.size := by
    rw [hsize]
    decide
  obtain ⟨-, hreads⟩ := corruption_detected hintact hsecond fun x => if x = 0 then 1 else 0
  have hreads := hreads (of_decide_eq_true hsum)
  refine ⟨t, ip, ht, hip, (hreads 0 600).1 ⟨512, by decide, ?_, rfl⟩, (hreads 0 512).2 ?_⟩
  · rw [hsize]
    decide
  · rintro ⟨o, -, h2, he⟩
    rw [hsize] at h2
    have h2' : o < 512 := h2
    have hdiv : o / BSIZE = 0 := Nat.div_eq_of_lt h2'
    rw [hdiv] at he
    exact of_decide_eq_true hne he

end IntroToOS.CheckedFs

import IntroToOS.CheckedFs.Disk
import IntroToOS.Lib.Fold

/-! # Pointers and what an inode reaches

A pointer is a block number in the low 24 bits and a checksum in the high 8 bits. `pointer s ip p`
is the pointer an inode holds at position `p`: in memory for the direct blocks and the indirect
block, in the indirect block on disk for the others.
-/

namespace IntroToOS.CheckedFs
open Lib
set_option autoImplicit false

/-! ## Checksum and address share a word -/

theorem CH_MASK_getLsbD (k : ℕ) (hk : k < 32) : CH_MASK.getLsbD k = decide (24 ≤ k) := by
  have h : ∀ k < 32, CH_MASK.getLsbD k = decide (24 ≤ k) := by decide
  exact h k hk

theorem CH_GET_ADDR_getLsbD (a : Addr) (k : ℕ) (hk : k < 32) :
    (CH_GET_ADDR a).getLsbD k = (a.getLsbD k && decide (k < 24)) := by
  rw [CH_GET_ADDR, BitVec.getLsbD_and, BitVec.getLsbD_not, CH_MASK_getLsbD k hk]
  by_cases h : k < 24
  · have : ¬ 24 ≤ k := by omega
    simp [h, hk, this]
  · have : 24 ≤ k := by omega
    simp [h, this]

theorem CH_SET_CHECKSUM_getLsbD (a : Addr) (v : Byte) (k : ℕ) (hk : k < 32) :
    (CH_SET_CHECKSUM a v).getLsbD k = if k < 24 then a.getLsbD k else v.getLsbD (k - 24) := by
  have hset : CH_SET_CHECKSUM a v = CH_GET_ADDR a ||| (v.setWidth 32 <<< 24) := rfl
  rw [hset, BitVec.getLsbD_or, CH_GET_ADDR_getLsbD a k hk, BitVec.getLsbD_shiftLeft,
    BitVec.getLsbD_setWidth]
  by_cases h : k < 24
  · simp [h]
  · have h8 : k - 24 < 32 := by omega
    simp [h, hk, h8]

theorem CH_GET_CHECKSUM_getLsbD (a : Addr) (k : ℕ) (hk : k < 8) :
    (CH_GET_CHECKSUM a).getLsbD k = a.getLsbD (24 + k) := by
  rw [CH_GET_CHECKSUM, BitVec.getLsbD_setWidth, BitVec.getLsbD_ushiftRight, BitVec.getLsbD_and,
    CH_MASK_getLsbD (24 + k) (by omega)]
  simp [hk]

@[simp] theorem CH_GET_ADDR_SET (a : Addr) (v : Byte) :
    CH_GET_ADDR (CH_SET_CHECKSUM a v) = CH_GET_ADDR a := by
  apply BitVec.eq_of_getLsbD_eq
  intro k hk
  rw [CH_GET_ADDR_getLsbD _ k hk, CH_GET_ADDR_getLsbD _ k hk, CH_SET_CHECKSUM_getLsbD _ _ k hk]
  by_cases h : k < 24 <;> simp [h]

@[simp] theorem CH_GET_CHECKSUM_SET (a : Addr) (v : Byte) :
    CH_GET_CHECKSUM (CH_SET_CHECKSUM a v) = v := by
  apply BitVec.eq_of_getLsbD_eq
  intro k hk
  have hlt : ¬ 24 + k < 24 := by omega
  rw [CH_GET_CHECKSUM_getLsbD _ k hk, CH_SET_CHECKSUM_getLsbD _ _ _ (by omega), if_neg hlt,
    Nat.add_sub_cancel_left]

/-- A pointer is its two parts. -/
theorem addr_ext {a b : Addr} (h : CH_GET_ADDR a = CH_GET_ADDR b)
    (h' : CH_GET_CHECKSUM a = CH_GET_CHECKSUM b) : a = b := by
  apply BitVec.eq_of_getLsbD_eq
  intro k hk
  by_cases hlt : k < 24
  · have := congrArg (fun x : Addr => x.getLsbD k) h
    simpa [CH_GET_ADDR_getLsbD _ k hk, hlt] using this
  · have := congrArg (fun x : Byte => x.getLsbD (k - 24)) h'
    simp only [CH_GET_CHECKSUM_getLsbD _ (k - 24) (by omega)] at this
    rwa [show 24 + (k - 24) = k by omega] at this

@[simp] theorem CH_GET_CHECKSUM_zero : CH_GET_CHECKSUM 0 = 0 := by decide

@[simp] theorem blockNo_zero : blockNo 0 = 0 := by decide

@[simp] theorem blockNo_SET (a : Addr) (v : Byte) : blockNo (CH_SET_CHECKSUM a v) = blockNo a := by
  rw [blockNo, CH_GET_ADDR_SET, blockNo]

theorem CH_GET_ADDR_ofNat {b : ℕ} (hb : b < 2 ^ 24) :
    CH_GET_ADDR (BitVec.ofNat 32 b) = BitVec.ofNat 32 b := by
  apply BitVec.eq_of_getLsbD_eq
  intro k hk
  rw [CH_GET_ADDR_getLsbD _ k hk, BitVec.getLsbD_ofNat]
  by_cases h : k < 24
  · simp [h]
  · have : b.testBit k = false :=
      Nat.testBit_lt_two_pow (Nat.lt_of_lt_of_le hb (Nat.pow_le_pow_right (by omega) (by omega)))
    simp [this]

theorem blockNo_ofNat {b : ℕ} (hb : b < 2 ^ 24) : blockNo (BitVec.ofNat 32 b) = b := by
  rw [blockNo, CH_GET_ADDR_ofNat hb, BitVec.toNat_ofNat, Nat.mod_eq_of_lt]
  omega

theorem CH_GET_CHECKSUM_ofNat {b : ℕ} (hb : b < 2 ^ 24) :
    CH_GET_CHECKSUM (BitVec.ofNat 32 b) = 0 := by
  apply BitVec.eq_of_getLsbD_eq
  intro k hk
  rw [CH_GET_CHECKSUM_getLsbD _ k hk, BitVec.getLsbD_ofNat]
  have : b.testBit (24 + k) = false :=
    Nat.testBit_lt_two_pow (Nat.lt_of_lt_of_le hb (Nat.pow_le_pow_right (by omega) (by omega)))
  simp [this]

/-- A pointer without a checksum is its block number. -/
theorem toNat_of_checksum_zero {a : Addr} (h : CH_GET_CHECKSUM a = 0) : a.toNat = blockNo a := by
  have hab : a = CH_GET_ADDR a := by
    refine addr_ext ?_ ?_
    · apply BitVec.eq_of_getLsbD_eq
      intro k hk
      rw [CH_GET_ADDR_getLsbD _ k hk, CH_GET_ADDR_getLsbD _ k hk, CH_GET_ADDR_getLsbD _ k hk]
      by_cases hlt : k < 24 <;> simp [hlt]
    · rw [h]
      apply BitVec.eq_of_getLsbD_eq
      intro k hk
      have hlt : ¬ 24 + k < 24 := by omega
      rw [CH_GET_CHECKSUM_getLsbD _ k hk, CH_GET_ADDR_getLsbD _ _ (by omega)]
      simp
  exact congrArg BitVec.toNat hab

theorem blockNo_lt (a : Addr) : blockNo a < 2 ^ 24 := by
  have hlow : ∀ k, 24 ≤ k → (CH_GET_ADDR a).toNat.testBit k = false := by
    intro k hk
    by_cases h32 : k < 32
    · have := CH_GET_ADDR_getLsbD a k h32
      have hn : ¬ k < 24 := by omega
      simpa [BitVec.getLsbD, hn] using this
    · exact Nat.testBit_lt_two_pow (Nat.lt_of_lt_of_le (CH_GET_ADDR a).isLt
        (Nat.pow_le_pow_right (by omega) (by omega)))
  exact Nat.lt_pow_two_of_testBit _ hlow

/-! ## Words of an indirect block -/

@[simp] theorem word_putWord (data : ℕ → Byte) (j : ℕ) (w : Addr) :
    word (putWord data j w) j = w := u32_putU32 data (4 * j) w

theorem word_putWord_of_ne (data : ℕ → Byte) {i j : ℕ} (w : Addr) (h : i ≠ j) :
    word (putWord data j w) i = word data i :=
  u32_putU32_of_disjoint data w (by omega)

theorem word_zero (j : ℕ) : word (fun _ => 0) j = 0 := by
  simp only [word, u32]
  decide

end IntroToOS.CheckedFs

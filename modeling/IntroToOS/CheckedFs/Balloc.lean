import IntroToOS.CheckedFs.Calls
import Mathlib.Data.Nat.Find

/-! # The search for a free block

`balloc` as its two loops stand in the source: the outer one goes over the blocks of the bitmap up
to the size of the disk, the inner one over all bits of a block, also those behind the disk. The
counter of the outer loop is an `int`. For every size a disk can have with 24-bit block numbers
this is `balloc`.
-/

namespace IntroToOS.CheckedFs
open Lib
set_option autoImplicit false

def INT_MAX : ℕ := 2 ^ 31 - 1

/-- An `int` can count whole blocks of the bitmap to its end. -/
theorem INT_MAX_succ : INT_MAX + 1 = 2 ^ 19 * BPB := by decide

/-- How the loops end; `overflow` is the addition to `b` that has no value in an `int`. -/
inductive Search
  | found (b : ℕ)
  | outOfBlocks
  | overflow
  deriving DecidableEq, Repr

/-- The outer loop from block `b` of the disk on. -/
def ballocLoop (bitmap : ℕ → Bool) (size b : ℕ) : Search :=
  if INT_MAX < b then .overflow
  else if b < size then
    match firstFree bitmap BPB b with
    | some x => .found x
    | none => ballocLoop bitmap size (b + BPB)
  else .outOfBlocks
termination_by INT_MAX + 1 - b
decreasing_by
  simp only [INT_MAX, BPB, BSIZE] at *
  omega

/-- `balloc` with its loops; there is no result when the counter overflows. -/
def ballocSearch (s : Fs) : Option (Kern (Fs × Addr)) :=
  match ballocLoop s.bitmap s.size 0 with
  | .found b => some (.ok ({ s with
      bitmap := Function.update s.bitmap b true
      exhausted := s.exhausted || s.size ≤ b }, BitVec.ofNat 32 b))
  | .outOfBlocks => some (panic .outOfBlocks s)
  | .overflow => none

/-! ## The inner loop -/

theorem firstFree_eq_none_iff {bm : ℕ → Bool} {n b : ℕ} :
    firstFree bm n b = none ↔ ∀ x, b ≤ x → x < b + n → bm x = true := by
  induction n generalizing b with
  | zero =>
      simp only [firstFree, true_iff]
      intro x h1 h2
      omega
  | succ n ih =>
      unfold firstFree
      by_cases hb : bm b = true
      · rw [if_pos hb, ih]
        constructor
        · intro h x h1 h2
          rcases Nat.eq_or_lt_of_le h1 with rfl | hlt
          · exact hb
          · exact h x hlt (by omega)
        · intro h x h1 h2
          exact h x (by omega) (by omega)
      · rw [if_neg hb]
        simp only [reduceCtorEq, false_iff]
        exact fun h => hb (h b (Nat.le_refl b) (by omega))

theorem firstFree_eq_some_of {bm : ℕ → Bool} {n b x : ℕ} (hle : b ≤ x) (hlt : x < b + n)
    (hfree : bm x = false) (hfirst : ∀ y, b ≤ y → y < x → bm y = true) :
    firstFree bm n b = some x := by
  induction n generalizing b with
  | zero => omega
  | succ n ih =>
      unfold firstFree
      rcases Nat.eq_or_lt_of_le hle with rfl | hbx
      · simp [hfree]
      · rw [if_pos (hfirst b (Nat.le_refl b) hbx)]
        exact ih hbx (by omega) fun y h1 h2 => hfirst y (by omega) h2

theorem firstFree_first {bm : ℕ → Bool} {n b x : ℕ} (h : firstFree bm n b = some x) :
    b ≤ x ∧ x < b + n ∧ ∀ y, b ≤ y → y < x → bm y = true := by
  induction n generalizing b with
  | zero => cases h
  | succ n ih =>
      unfold firstFree at h
      split at h
      · next hb =>
        obtain ⟨hle, hlt, hfirst⟩ := ih h
        refine ⟨by omega, by omega, fun y h1 h2 => ?_⟩
        rcases Nat.eq_or_lt_of_le h1 with rfl | h1
        · exact hb
        · exact hfirst y h1 h2
      · obtain rfl := Option.some.inj h
        exact ⟨Nat.le_refl b, by omega, fun y h1 h2 => absurd h1 (by omega)⟩

/-! ## The outer loop -/

section
variable {bm : ℕ → Bool} {size x : ℕ}

/-- Full blocks of the bitmap are passed over. -/
theorem ballocLoop_skip {k : ℕ} (hint : k * BPB ≤ INT_MAX + 1) (hsize : k * BPB < size + BPB)
    (hfull : ∀ y < k * BPB, bm y = true) :
    ballocLoop bm size 0 = ballocLoop bm size (k * BPB) := by
  induction k with
  | zero => rw [Nat.zero_mul]
  | succ k ih =>
      rw [Nat.succ_mul] at hint hsize hfull ⊢
      have hb : k * BPB < size := Nat.lt_of_add_lt_add_right hsize
      have hone : ballocLoop bm size (k * BPB) = ballocLoop bm size (k * BPB + BPB) := by
        have hlt : k * BPB < k * BPB + BPB := Nat.lt_add_of_pos_right (by decide)
        have hnot : ¬ INT_MAX < k * BPB :=
          Nat.not_lt.mpr (Nat.le_of_lt_succ (Nat.lt_of_lt_of_le hlt hint))
        rw [ballocLoop, if_neg hnot, if_pos hb,
          firstFree_eq_none_iff.mpr fun y _ h2 => hfull y h2]
      have hle : k * BPB ≤ k * BPB + BPB := Nat.le_add_right _ _
      rw [ih (Nat.le_trans hle hint) (Nat.lt_of_lt_of_le hb (Nat.le_add_right _ _))
        fun y hy => hfull y (Nat.lt_of_lt_of_le hy hle), hone]

/-- The first clear bit is found when its block of the bitmap starts within the disk. -/
theorem ballocLoop_found (hint : x ≤ INT_MAX) (hstart : x / BPB * BPB < size)
    (hfree : bm x = false) (hfirst : ∀ y < x, bm y = true) : ballocLoop bm size 0 = .found x := by
  have hle : x / BPB * BPB ≤ x := Nat.div_mul_le_self x BPB
  have hlt : x < x / BPB * BPB + BPB := Nat.lt_div_mul_add (by decide)
  have hnot : ¬ INT_MAX < x / BPB * BPB := by omega
  rw [ballocLoop_skip (k := x / BPB) (by omega) (by omega) fun y hy => hfirst y (by omega),
    ballocLoop, if_neg hnot, if_pos hstart, firstFree_eq_some_of hle hlt hfree fun y _ => hfirst y]

/-- A full disk whose size is a whole number of blocks of the bitmap. -/
theorem ballocLoop_outOfBlocks (hint : size ≤ INT_MAX) (hdvd : BPB ∣ size)
    (hfull : ∀ y < size, bm y = true) : ballocLoop bm size 0 = .outOfBlocks := by
  obtain ⟨k, rfl⟩ := hdvd
  rw [Nat.mul_comm] at hint hfull ⊢
  rw [ballocLoop_skip (k := k) (by omega) (Nat.lt_add_of_pos_right (by decide)) hfull, ballocLoop,
    if_neg (Nat.not_lt.mpr hint), if_neg (Nat.lt_irrefl _)]

/-- With every bit set that an `int` can name, the counter runs over. -/
theorem ballocLoop_overflow (hint : INT_MAX < size) (hfull : ∀ y ≤ INT_MAX, bm y = true) :
    ballocLoop bm size 0 = .overflow := by
  have hlast := INT_MAX_succ
  rw [ballocLoop_skip (k := 2 ^ 19) (by omega) (by omega) fun y hy => hfull y (by omega),
    ballocLoop, if_pos (by omega)]

/-- The blocks of the bitmap that the loop visits are those of `balloc`. -/
theorem ballocLoop_eq_firstFree (hint : size + BPB ≤ INT_MAX + 1) :
    ballocLoop bm size 0 = match firstFree bm ((size + BPB - 1) / BPB * BPB) 0 with
      | some x => .found x
      | none => .outOfBlocks := by
  have hup : (size + BPB - 1) / BPB * BPB ≤ size + BPB - 1 := Nat.div_mul_le_self ..
  have hge : size ≤ (size + BPB - 1) / BPB * BPB := by
    show size ≤ (size + 4096 - 1) / 4096 * 4096
    omega
  have hpos : 0 < BPB := by decide
  generalize hN : (size + BPB - 1) / BPB = N at hup hge
  cases hfind : firstFree bm (N * BPB) 0 with
  | none =>
      have hfull := firstFree_eq_none_iff.mp hfind
      have hskip : ballocLoop bm size 0 = ballocLoop bm size (N * BPB) :=
        ballocLoop_skip (by omega) (by omega) fun y hy => hfull y (Nat.zero_le y) (by omega)
      have hnot : ¬ INT_MAX < N * BPB := by omega
      rw [hskip, ballocLoop, if_neg hnot, if_neg (Nat.not_lt.mpr hge)]
  | some x =>
      obtain ⟨-, hlt, hfirst⟩ := firstFree_first hfind
      refine ballocLoop_found (by omega) ?_ (firstFree_eq_some hfind)
        fun y hy => hfirst y (Nat.zero_le y) hy
      -- the block of `x` is one of the blocks that start below the size
      have hxN : x / BPB < N := Nat.div_lt_of_lt_mul (by rw [Nat.mul_comm]; omega)
      rw [← hN] at hxN
      show x / 4096 * 4096 < size
      have hxN' : x / 4096 < (size + 4096 - 1) / 4096 := hxN
      omega

end

/-- As long as the counter is in range the loops compute `balloc`. -/
theorem ballocSearch_eq {s : Fs} (hint : s.size + BPB ≤ INT_MAX + 1) :
    ballocSearch s = some (balloc s) := by
  rw [ballocSearch, balloc, ballocLoop_eq_firstFree hint]
  cases firstFree s.bitmap ((s.size + BPB - 1) / BPB * BPB) 0 <;> rfl

/-! ## What a search is for -/

/-- `balloc` takes a free block of the disk when there is one and panics when there is none. -/
structure BallocRight (s : Fs) : Prop where
  panics : (∀ b < s.size, s.bitmap b = true) → ballocSearch s = some (panic .outOfBlocks s)
  takes : (∃ b < s.size, s.bitmap b = false) → ∃ b < s.size, s.bitmap b = false ∧
    ballocSearch s = some (.ok (s.mark b, BitVec.ofNat 32 b))

/-- The search ends at a free block that an `int` can name or at the end of the last block of the
bitmap, which is the end of the disk. -/
def SearchEnds (s : Fs) : Prop :=
  (∃ b < s.size, b ≤ INT_MAX ∧ s.bitmap b = false) ∨
    (∀ b < s.size, s.bitmap b = true) ∧ BPB ∣ s.size ∧ s.size ≤ INT_MAX

section
variable {s t : Fs}

theorem ballocSearch_found {b : ℕ} (h : ballocLoop s.bitmap s.size 0 = .found b) (hb : b < s.size) :
    ballocSearch s = some (.ok (s.mark b, BitVec.ofNat 32 b)) := by
  have hnot : ¬ s.size ≤ b := Nat.not_le.mpr hb
  simp [ballocSearch, h, Fs.mark, hnot]

/-- The first clear bit below a bound. -/
theorem exists_first_free {bm : ℕ → Bool} {b : ℕ} (hb : bm b = false) :
    ∃ x ≤ b, bm x = false ∧ ∀ y < x, bm y = true := by
  have hex : ∃ x, bm x = false := ⟨b, hb⟩
  refine ⟨Nat.find hex, Nat.find_min' hex hb, Nat.find_spec hex, fun y hy => ?_⟩
  simpa using Nat.find_min hex hy

theorem BallocRight.of_free {b : ℕ} (hb : b < s.size) (hint : b ≤ INT_MAX)
    (hfree : s.bitmap b = false) : BallocRight s where
  panics := fun hfull => by
    rw [hfull b hb] at hfree
    cases hfree
  takes := fun _ => by
    obtain ⟨x, hx, hxfree, hfirst⟩ := exists_first_free hfree
    have hstart : x / BPB * BPB < s.size :=
      Nat.lt_of_le_of_lt (Nat.div_mul_le_self ..) (Nat.lt_of_le_of_lt hx hb)
    have hloop := ballocLoop_found (Nat.le_trans hx hint) hstart hxfree hfirst
    exact ⟨x, by omega, hxfree, ballocSearch_found hloop (by omega)⟩

theorem ballocSearch_full (hfull : ∀ b < s.size, s.bitmap b = true) (hdvd : BPB ∣ s.size)
    (hint : s.size ≤ INT_MAX) : ballocSearch s = some (panic .outOfBlocks s) := by
  rw [ballocSearch, ballocLoop_outOfBlocks hint hdvd hfull]

/-- Behind a full disk that ends within a block of the bitmap there is a clear bit. -/
theorem ballocLoop_past (habove : ∀ b, s.size ≤ b → s.bitmap b = false)
    (hfull : ∀ b < s.size, s.bitmap b = true) (hdvd : ¬ BPB ∣ s.size) (hint : s.size ≤ INT_MAX) :
    ballocLoop s.bitmap s.size 0 = .found s.size := by
  refine ballocLoop_found hint (Nat.lt_of_le_of_ne (Nat.div_mul_le_self ..) fun he => hdvd ?_)
    (habove _ (Nat.le_refl _)) hfull
  exact ⟨s.size / BPB, by rw [Nat.mul_comm]; exact he.symm⟩

/-- `balloc` is right exactly when its search ends within the disk. -/
theorem ballocRight_iff (habove : ∀ b, s.size ≤ b → s.bitmap b = false) :
    BallocRight s ↔ SearchEnds s := by
  constructor
  · intro h
    by_cases hfree : ∃ b < s.size, b ≤ INT_MAX ∧ s.bitmap b = false
    · exact .inl hfree
    · have hset : ∀ b < s.size, b ≤ INT_MAX → s.bitmap b = true := fun b hb hi => by
        by_contra hne
        exact hfree ⟨b, hb, hi, by simpa using hne⟩
      by_cases hint : s.size ≤ INT_MAX
      · have hfull : ∀ b < s.size, s.bitmap b = true := fun b hb => hset b hb (by omega)
        refine .inr ⟨hfull, ?_, hint⟩
        by_contra hdvd
        have hpanic := h.panics hfull
        rw [ballocSearch, ballocLoop_past habove hfull hdvd hint] at hpanic
        cases Option.some.inj hpanic
      · -- the counter runs over, so there is no result at all
        have hover : ballocLoop s.bitmap s.size 0 = .overflow :=
          ballocLoop_overflow (by omega) fun b hb => hset b (by omega) hb
        have hnone : ballocSearch s = none := by rw [ballocSearch, hover]
        by_cases hclear : ∃ b < s.size, s.bitmap b = false
        · obtain ⟨_, _, _, hsome⟩ := h.takes hclear
          rw [hnone] at hsome
          cases hsome
        · have hsome := h.panics fun b hb => by
            by_contra hne
            exact hclear ⟨b, hb, by simpa using hne⟩
          rw [hnone] at hsome
          cases hsome
  · rintro (⟨b, hb, hint, hfree⟩ | ⟨hfull, hdvd, hint⟩)
    · exact .of_free hb hint hfree
    · refine ⟨fun _ => ballocSearch_full hfull hdvd hint, ?_⟩
      rintro ⟨b, hb, hfree⟩
      rw [hfull b hb] at hfree
      cases hfree

end

/-- A disk of 32 blocks on which nothing is free. -/
def fullFs : Fs where
  size := 32
  ninodes := 8
  bitmap b := b < 32
  dinode _ := {}
  block _ _ := 0

end IntroToOS.CheckedFs

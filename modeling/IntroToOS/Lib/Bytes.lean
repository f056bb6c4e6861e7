import Mathlib.Algebra.Order.Ring.Nat
import Mathlib.Logic.Function.Basic

/-! # Bytes, little-endian words and bit maps

A byte is a `BitVec 8` and a memory a function from addresses to bytes. `u16` and `u32` read a
little-endian word, `putU32` stores one. Bit `x` of a bit map is bit `x % 8` of its byte `x / 8`.
-/

namespace IntroToOS.Lib
set_option autoImplicit false

abbrev Byte := BitVec 8

def u16 (f : ℕ → Byte) (off : ℕ) : BitVec 16 := f (off + 1) ++ f off

def u32 (f : ℕ → Byte) (off : ℕ) : BitVec 32 := f (off + 3) ++ f (off + 2) ++ f (off + 1) ++ f off

/-- The word `w` stored at `off`. -/
def putU32 (f : ℕ → Byte) (off : ℕ) (w : BitVec 32) : ℕ → Byte := fun x =>
  if off ≤ x ∧ x < off + 4 then w.extractLsb' (8 * (x - off)) 8 else f x

theorem append_extract (w : BitVec 32) :
    w.extractLsb' 24 8 ++ w.extractLsb' 16 8 ++ w.extractLsb' 8 8 ++ w.extractLsb' 0 8 = w := by
  apply BitVec.eq_of_getLsbD_eq
  intro i hi
  simp only [BitVec.getLsbD_append, BitVec.getLsbD_extractLsb']
  split
  · next h => simp [h]
  · split
    · next h => simp only [h, decide_true, Bool.true_and]; congr 1; omega
    · split
      · next h => simp only [h, decide_true, Bool.true_and]; congr 1; omega
      · next h =>
        have : i - 8 - 8 - 8 < 8 := by omega
        simp only [this, decide_true, Bool.true_and]
        congr 1
        omega

theorem u32_putU32 (f : ℕ → Byte) (off : ℕ) (w : BitVec 32) : u32 (putU32 f off w) off = w := by
  have hb : ∀ k < 4, putU32 f off w (off + k) = w.extractLsb' (8 * k) 8 := by
    intro k hk
    have hin : off ≤ off + k ∧ off + k < off + 4 := by omega
    rw [putU32, if_pos hin, Nat.add_sub_cancel_left]
  rw [u32, hb 3 (by omega), hb 2 (by omega), hb 1 (by omega)]
  have h0 := hb 0 (by omega)
  rw [Nat.add_zero] at h0
  rw [h0]
  exact append_extract w

theorem putU32_of_not_mem (f : ℕ → Byte) {off x : ℕ} (w : BitVec 32)
    (h : x < off ∨ off + 4 ≤ x) : putU32 f off w x = f x := by
  rw [putU32, if_neg]
  omega

theorem u32_putU32_of_disjoint (f : ℕ → Byte) {off off' : ℕ} (w : BitVec 32)
    (h : off' + 4 ≤ off ∨ off + 4 ≤ off') : u32 (putU32 f off w) off' = u32 f off' := by
  unfold u32
  rw [putU32_of_not_mem f w (by omega), putU32_of_not_mem f w (by omega),
    putU32_of_not_mem f w (by omega), putU32_of_not_mem f w (by omega)]

/-- The half word `w` stored at `off`. -/
def putU16 (f : ℕ → Byte) (off : ℕ) (w : BitVec 16) : ℕ → Byte := fun x =>
  if x = off then w.extractLsb' 0 8 else if x = off + 1 then w.extractLsb' 8 8 else f x

theorem u16_putU16 (f : ℕ → Byte) (off : ℕ) (w : BitVec 16) : u16 (putU16 f off w) off = w := by
  have hlow : putU16 f off w off = w.extractLsb' 0 8 := if_pos rfl
  have hhigh : putU16 f off w (off + 1) = w.extractLsb' 8 8 := by
    rw [putU16, if_neg (Nat.succ_ne_self off), if_pos rfl]
  rw [u16, hlow, hhigh]
  apply BitVec.eq_of_getLsbD_eq
  intro i hi
  simp only [BitVec.getLsbD_append, BitVec.getLsbD_extractLsb']
  split
  · next h => simp [h]
  · next h =>
    have : i - 8 < 8 := by omega
    simp only [this, decide_true, Bool.true_and]
    congr 1
    omega

theorem putU16_of_not_mem (f : ℕ → Byte) {off x : ℕ} (w : BitVec 16)
    (h : x < off ∨ off + 2 ≤ x) : putU16 f off w x = f x := by
  rw [putU16, if_neg (by omega), if_neg (by omega)]

theorem u16_congr {f g : ℕ → Byte} {x y : ℕ} (h : ∀ k < 2, f (x + k) = g (y + k)) :
    u16 f x = u16 g y := by
  have h0 := h 0 (by omega)
  rw [u16, u16, h 1 (by omega), show f x = g y from h0]

theorem u32_congr {f g : ℕ → Byte} {x y : ℕ} (h : ∀ k < 4, f (x + k) = g (y + k)) :
    u32 f x = u32 g y := by
  have h0 := h 0 (by omega)
  rw [u32, u32, h 1 (by omega), h 2 (by omega), h 3 (by omega), show f x = g y from h0]

/-- The exclusive or of a list of bytes. -/
def xorBytes (l : List Byte) : Byte := l.foldl (· ^^^ ·) 0

theorem foldl_xor (l : List Byte) (b : Byte) : l.foldl (· ^^^ ·) b = b ^^^ xorBytes l := by
  induction l generalizing b with
  | nil => simp [xorBytes]
  | cons a l ih =>
      have hcons : xorBytes (a :: l) = a ^^^ xorBytes l := by
        rw [xorBytes, List.foldl_cons, ih (0 ^^^ a)]
        simp
      rw [List.foldl_cons, ih, hcons, BitVec.xor_assoc]

theorem xorBytes_append (l m : List Byte) : xorBytes (l ++ m) = xorBytes l ^^^ xorBytes m := by
  rw [xorBytes, List.foldl_append, foldl_xor]
  rfl

theorem xorBytes_flatMap {α : Type*} (l : List α) (f : α → List Byte) :
    xorBytes (l.flatMap f) = xorBytes (l.map fun a => xorBytes (f a)) := by
  induction l with
  | nil => rfl
  | cons a l ih =>
      rw [List.flatMap_cons, xorBytes_append, ih, List.map_cons, ← List.singleton_append,
        xorBytes_append]
      simp [xorBytes]

/-! ## Bit maps -/

def bit (f : ℕ → Byte) (x : ℕ) : Bool := (f (x / 8)).getLsbD (x % 8)

/-- `f[x / 8] &= ~(1 << x % 8)`. -/
def clearBit (f : ℕ → Byte) (x : ℕ) : ℕ → Byte :=
  Function.update f (x / 8) (f (x / 8) &&& ~~~ (1#8 <<< (x % 8)))

theorem bit_clearBit (f : ℕ → Byte) (x y : ℕ) :
    bit (clearBit f x) y = (bit f y && decide (y ≠ x)) := by
  have hx : x % 8 < 8 := Nat.mod_lt _ (by omega)
  have hy : y % 8 < 8 := Nat.mod_lt _ (by omega)
  unfold bit clearBit
  by_cases hxy : y / 8 = x / 8
  · rw [hxy, Function.update_self]
    by_cases hmod : y % 8 = x % 8
    · have : y = x := by omega
      simp [this, hx]
    · have hne : y ≠ x := by rintro rfl; exact hmod rfl
      have hone : (1#8 <<< (x % 8)).getLsbD (y % 8) = false := by
        simp only [BitVec.getLsbD_shiftLeft, hy, decide_true, Bool.true_and]
        by_cases hlt : y % 8 < x % 8
        · simp [hlt]
        · have : y % 8 - x % 8 ≠ 0 := by omega
          simp [hlt, BitVec.getLsbD_one, this]
      rw [BitVec.getLsbD_and, BitVec.getLsbD_not, hone]
      simp [hne, hy]
  · have hne : y ≠ x := by rintro rfl; exact hxy rfl
    rw [Function.update_of_ne hxy]
    simp [hne]

theorem bit_clearBits (f : ℕ → Byte) (l : List ℕ) (y : ℕ) :
    bit (l.foldl clearBit f) y = (bit f y && decide (y ∉ l)) := by
  induction l generalizing f with
  | nil => simp
  | cons x l ih =>
      rw [List.foldl_cons, ih, bit_clearBit, Bool.and_assoc]
      congr 1
      by_cases hyx : y = x <;> simp [hyx]

/-- `f[x / 8] |= 1 << x % 8`. -/
def setBit (f : ℕ → Byte) (x : ℕ) : ℕ → Byte :=
  Function.update f (x / 8) (f (x / 8) ||| 1#8 <<< (x % 8))

theorem bit_setBit (f : ℕ → Byte) (x y : ℕ) :
    bit (setBit f x) y = (bit f y || decide (y = x)) := by
  have hx : x % 8 < 8 := Nat.mod_lt _ (by omega)
  have hy : y % 8 < 8 := Nat.mod_lt _ (by omega)
  unfold bit setBit
  by_cases hxy : y / 8 = x / 8
  · rw [hxy, Function.update_self, BitVec.getLsbD_or]
    congr 1
    simp only [BitVec.getLsbD_shiftLeft, hy, decide_true, Bool.true_and, BitVec.getLsbD_one]
    by_cases hmod : y % 8 = x % 8
    · have : y = x := by omega
      simp [this]
    · have hne : y ≠ x := by rintro rfl; exact hmod rfl
      by_cases hlt : y % 8 < x % 8
      · simp [hlt, hne]
      · have : y % 8 - x % 8 ≠ 0 := by omega
        simp [this, hne]
  · have hne : y ≠ x := by rintro rfl; exact hxy rfl
    rw [Function.update_of_ne hxy]
    simp [hne]

theorem bit_setBits (f : ℕ → Byte) (l : List ℕ) (y : ℕ) :
    bit (l.foldl setBit f) y = (bit f y || decide (y ∈ l)) := by
  induction l generalizing f with
  | nil => simp
  | cons x l ih =>
      rw [List.foldl_cons, ih, bit_setBit, Bool.or_assoc]
      congr 1
      by_cases hyx : y = x <;> simp [hyx]

/-- A byte is zero when all its bits are. -/
theorem byte_eq_zero_iff (f : ℕ → Byte) (i : ℕ) :
    f i = 0#8 ↔ ∀ x, x / 8 = i → bit f x = false := by
  constructor
  · rintro h x rfl
    simp [bit, h]
  · intro h
    apply BitVec.eq_of_getLsbD_eq
    intro k hk
    have hx := h (8 * i + k) (by omega)
    have hmod : (8 * i + k) % 8 = k := by omega
    have hdiv : (8 * i + k) / 8 = i := by omega
    rw [bit, hmod, hdiv] at hx
    simpa using hx

end IntroToOS.Lib

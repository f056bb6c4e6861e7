import IntroToOS.Lib.Bytes
import Mathlib.Data.List.Basic

/-! # Formats read from the front

A `Codec` writes a value as a list and reads it back from the front of a longer list, in one way
only. Lists of a known length and pairs are read piece by piece. Two writings that start alike are
writings of one value (`Codec.inj`), so that a list of values is known from what it is written as.
-/

namespace IntroToOS.Lib
set_option autoImplicit false

variable {α β γ : Type*}

structure Codec (β α : Type*) where
  enc : α → List β
  take : List β → Option (α × List β)
  valid : α → Prop
  take_iff : ∀ bs a l, take bs = some (a, l) ↔ valid a ∧ bs = enc a ++ l

namespace Codec
variable (C : Codec β α) {a b : α} {as bs : List α} {l m : List β} {n : ℕ}

theorem take_enc (h : C.valid a) : C.take (C.enc a ++ l) = some (a, l) :=
  (C.take_iff _ a l).mpr ⟨h, rfl⟩

theorem inj (ha : C.valid a) (hb : C.valid b) (h : C.enc a ++ l = C.enc b ++ m) : a = b ∧ l = m := by
  have hab : some (a, l) = some (b, m) := by rw [← C.take_enc ha, h, C.take_enc hb]
  exact Prod.mk.inj (Option.some.inj hab)

/-- `n` values one after the other. -/
def takeMany : ℕ → List β → Option (List α × List β)
  | 0, bs => some ([], bs)
  | n + 1, bs =>
    (C.take bs).bind fun x => (takeMany n x.2).map fun y => (x.1 :: y.1, y.2)

theorem takeMany_iff (xs : List β) : C.takeMany n xs = some (as, l) ↔
    as.length = n ∧ (∀ a ∈ as, C.valid a) ∧ xs = as.flatMap C.enc ++ l := by
  induction n generalizing xs as with
  | zero =>
      simp only [takeMany, Option.some.injEq, Prod.mk.injEq]
      constructor
      · rintro ⟨rfl, rfl⟩
        exact ⟨rfl, by simp, rfl⟩
      · rintro ⟨hlen, -, rfl⟩
        obtain rfl := List.eq_nil_of_length_eq_zero hlen
        exact ⟨rfl, rfl⟩
  | succ n ih =>
      simp only [takeMany, Option.bind_eq_some_iff, Option.map_eq_some_iff, Prod.mk.injEq]
      constructor
      · rintro ⟨⟨a, xs'⟩, ha, ⟨as', l'⟩, has, rfl, rfl⟩
        obtain ⟨hva, rfl⟩ := (C.take_iff xs a xs').mp ha
        obtain ⟨hlen, hv, rfl⟩ := (ih xs').mp has
        refine ⟨by simp [hlen], ?_, by rw [List.flatMap_cons, List.append_assoc]⟩
        intro b hb
        rcases List.mem_cons.mp hb with rfl | hb
        · exact hva
        · exact hv b hb
      · rintro ⟨hlen, hv, rfl⟩
        cases as with
        | nil => simp at hlen
        | cons a as =>
            have htail : C.takeMany n (as.flatMap C.enc ++ l) = some (as, l) := (ih _).mpr
              ⟨by simpa using hlen, fun b hb => hv b (List.mem_cons_of_mem a hb), rfl⟩
            refine ⟨(a, as.flatMap C.enc ++ l), ?_, (as, l), htail, rfl, rfl⟩
            rw [List.flatMap_cons, List.append_assoc]
            exact C.take_enc (hv a List.mem_cons_self)

/-- Two lists of equally many values are equal when one is written as the front of the other. -/
theorem flatMap_inj (ha : ∀ a ∈ as, C.valid a) (hb : ∀ b ∈ bs, C.valid b)
    (hlen : as.length = bs.length) (h : as.flatMap C.enc ++ l = bs.flatMap C.enc ++ m) :
    as = bs ∧ l = m := by
  have htake : C.takeMany bs.length (as.flatMap C.enc ++ l) = some (as, l) :=
    (C.takeMany_iff _).mpr ⟨hlen, ha, rfl⟩
  rw [h, (C.takeMany_iff _).mpr ⟨rfl, hb, rfl⟩] at htake
  obtain ⟨has, hl⟩ := Prod.mk.inj (Option.some.inj htake)
  exact ⟨has.symm, hl.symm⟩

end Codec

/-! ## Words and the bytes of a memory -/

/-- The bytes of a word, the low one first. -/
def le32 (w : BitVec 32) : List Byte :=
  [w.extractLsb' 0 8, w.extractLsb' 8 8, w.extractLsb' 16 8, w.extractLsb' 24 8]

def takeWord : List Byte → Option (BitVec 32 × List Byte)
  | b₀ :: b₁ :: b₂ :: b₃ :: l => some (b₃ ++ b₂ ++ b₁ ++ b₀, l)
  | _ => none

@[simp] theorem length_le32 (w : BitVec 32) : (le32 w).length = 4 := rfl

theorem le32_append (b₀ b₁ b₂ b₃ : Byte) : le32 (b₃ ++ b₂ ++ b₁ ++ b₀) = [b₀, b₁, b₂, b₃] := by
  have hbyte : ∀ (b : Byte) (k : ℕ), (∀ i < 8, (b₃ ++ b₂ ++ b₁ ++ b₀).getLsbD (k + i) = b.getLsbD i) →
      (b₃ ++ b₂ ++ b₁ ++ b₀).extractLsb' k 8 = b := by
    intro b k h
    apply BitVec.eq_of_getLsbD_eq
    intro i hi
    rw [BitVec.getLsbD_extractLsb', h i hi]
    simp [hi]
  unfold le32
  rw [hbyte b₀ 0, hbyte b₁ 8, hbyte b₂ 16, hbyte b₃ 24]
  · intro i hi
    have h1 : 24 + i - 8 - 8 - 8 = i := by omega
    simp only [BitVec.getLsbD_append, h1]
    rw [if_neg (by omega), if_neg (by omega), if_neg (by omega)]
  · intro i hi
    have h1 : 16 + i - 8 - 8 = i := by omega
    simp only [BitVec.getLsbD_append, h1]
    rw [if_neg (by omega), if_neg (by omega), if_pos (by omega)]
  · intro i hi
    have h1 : 8 + i - 8 = i := by omega
    simp only [BitVec.getLsbD_append, h1]
    rw [if_neg (by omega), if_pos (by omega)]
  · intro i hi
    simp only [BitVec.getLsbD_append, Nat.zero_add]
    rw [if_pos (by omega)]

def wordCodec : Codec Byte (BitVec 32) where
  enc := le32
  take := takeWord
  valid := fun _ => True
  take_iff := by
    intro bs w l
    constructor
    · intro h
      match bs, h with
      | b₀ :: b₁ :: b₂ :: b₃ :: rest, h =>
          obtain ⟨rfl, rfl⟩ := Prod.mk.inj (Option.some.inj h)
          exact ⟨trivial, by rw [le32_append]; rfl⟩
    · rintro ⟨-, rfl⟩
      exact congrArg (fun v => some (v, l)) (append_extract w)

theorem le32_inj {v w : BitVec 32} (h : le32 v = le32 w) : v = w :=
  (wordCodec.inj (l := []) (m := []) trivial trivial (congrArg (· ++ []) h)).1

/-- The `n` bytes at `p`. -/
def bytesAt (mem : ℕ → Byte) (p n : ℕ) : List Byte := (List.range n).map fun i => mem (p + i)

@[simp] theorem length_bytesAt (mem : ℕ → Byte) (p n : ℕ) : (bytesAt mem p n).length = n := by
  simp [bytesAt]

theorem bytesAt_add (mem : ℕ → Byte) (p m n : ℕ) :
    bytesAt mem p (m + n) = bytesAt mem p m ++ bytesAt mem (p + m) n := by
  simp only [bytesAt, List.range_add, List.map_append, List.map_map]
  congr 1
  apply List.map_congr_left
  intro i _
  simp only [Function.comp_apply, Nat.add_assoc]

theorem le32_u32 (mem : ℕ → Byte) (p : ℕ) : le32 (u32 mem p) = bytesAt mem p 4 := by
  rw [u32, le32_append]
  rfl

/-- Bytes that start with a word are the word in memory. -/
theorem u32_eq_of_bytesAt {mem : ℕ → Byte} {p n : ℕ} {w : BitVec 32} {l : List Byte}
    (h : bytesAt mem p (4 + n) = le32 w ++ l) : u32 mem p = w ∧ bytesAt mem (p + 4) n = l := by
  rw [bytesAt_add] at h
  obtain ⟨h1, h2⟩ := List.append_inj h (by simp)
  exact ⟨le32_inj ((le32_u32 mem p).trans h1), h2⟩

end IntroToOS.Lib

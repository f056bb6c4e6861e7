import IntroToOS.Lib.Codec

/-! # Byte memory

Stores of byte strings into a memory of bytes, and what the loads of other addresses see of them.
An access is an address with a length.
-/

namespace IntroToOS.Lib
set_option autoImplicit false

abbrev Mem := ℕ → Byte

/-- The bytes `bs` are stored at `p`. -/
def storeAt (mem : Mem) (p : ℕ) (bs : List Byte) : Mem := fun x =>
  if p ≤ x then bs[x - p]?.getD (mem x) else mem x

def le64 (n : ℕ) : List Byte := le32 (.ofNat 32 n) ++ le32 (.ofNat 32 (n / 2 ^ 32))

def u64 (mem : Mem) (p : ℕ) : ℕ := (u32 mem p).toNat + 2 ^ 32 * (u32 mem (p + 4)).toNat

/-- The access `a` stays in the block of `size` bytes at `base`. -/
def Inside (base size : ℕ) (a : ℕ × ℕ) : Prop := ∀ k < a.2, base ≤ a.1 + k ∧ a.1 + k < base + size

variable {mem mem' : Mem} {p q n size x y : ℕ} {bs : List Byte}

theorem bytesAt_congr (h : ∀ k < n, mem (p + k) = mem' (q + k)) : bytesAt mem p n = bytesAt mem' q n := by
  unfold bytesAt
  apply List.map_congr_left
  intro k hk
  exact h k (List.mem_range.mp hk)

theorem getElem?_bytesAt (mem : Mem) (p : ℕ) {k : ℕ} (hk : k < n) :
    (bytesAt mem p n)[k]? = some (mem (p + k)) := by
  simp [bytesAt, hk]

theorem bytesAt_inj (h : bytesAt mem p n = bytesAt mem' q n) {k : ℕ} (hk : k < n) :
    mem (p + k) = mem' (q + k) := by
  have hget := congrArg (fun l => l[k]?) h
  rw [getElem?_bytesAt mem p hk, getElem?_bytesAt mem' q hk] at hget
  exact Option.some.inj hget

theorem u64_congr (h : ∀ k < 8, mem (p + k) = mem' (q + k)) : u64 mem p = u64 mem' q := by
  have hlow : u32 mem p = u32 mem' q := u32_congr fun k hk => h k (by omega)
  have hhigh : u32 mem (p + 4) = u32 mem' (q + 4) := by
    apply u32_congr
    intro k hk
    rw [Nat.add_assoc, Nat.add_assoc]
    exact h (4 + k) (by omega)
  rw [u64, u64, hlow, hhigh]

theorem length_le64 (n : ℕ) : (le64 n).length = 8 := rfl

theorem storeAt_same (mem : Mem) (p : ℕ) {bs : List Byte} {k : ℕ} {c : Byte} (hk : bs[k]? = some c) :
    storeAt mem p bs (p + k) = c := by
  unfold storeAt
  rw [if_pos (Nat.le_add_right ..), Nat.add_sub_cancel_left, hk, Option.getD_some]

theorem storeAt_other (mem : Mem) (h : x < p ∨ p + bs.length ≤ x) : storeAt mem p bs x = mem x := by
  unfold storeAt
  by_cases hx : p ≤ x
  · rw [if_pos hx, List.getElem?_eq_none (by omega), Option.getD_none]
  · rw [if_neg hx]

theorem bytesAt_storeAt (mem : Mem) (p : ℕ) (bs : List Byte) :
    bytesAt (storeAt mem p bs) p bs.length = bs := by
  apply List.ext_getElem (length_bytesAt ..)
  intro k _ hk
  simp only [bytesAt, List.getElem_map, List.getElem_range]
  exact storeAt_same mem p (List.getElem?_eq_getElem hk)

theorem u64_storeAt (mem : Mem) (p n : ℕ) : u64 (storeAt mem p (le64 n)) p = n % 2 ^ 64 := by
  have h : bytesAt (storeAt mem p (le64 n)) p (4 + 4) = le64 n := bytesAt_storeAt mem p (le64 n)
  obtain ⟨hlow, hrest⟩ := u32_eq_of_bytesAt h
  have hhigh := (u32_eq_of_bytesAt (n := 0) (l := []) (hrest.trans (List.append_nil _).symm)).1
  rw [u64, hlow, hhigh, BitVec.toNat_ofNat, BitVec.toNat_ofNat]
  omega

theorem inside_iff (hn : 0 < n) : Inside p size (q, n) ↔ p ≤ q ∧ q + n ≤ p + size := by
  constructor
  · intro h
    have hfirst := h 0 hn
    have hlast := h (n - 1) (Nat.sub_lt hn Nat.one_pos)
    dsimp only at hfirst hlast
    omega
  · intro h k hk
    dsimp only at hk ⊢
    omega

end IntroToOS.Lib

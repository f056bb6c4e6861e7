import IntroToOS.Lib.Bytes
import Mathlib.Data.Option.Basic

/-! # System-call arguments of Project3b

Translated from `Project3b/xv6/kernel/syscall.c`. A process has two regions of memory: the heap
below `sz` and the shared pages from `current_top` on. The checks look at the two ends of a buffer
only, and take `sz` itself for an address of the heap and `USERTOP` for none of the shared region;
the scan for the end of a string goes on with the shared region from its beginning
(`argptr_inside_iff`, `fetchstr_sound_iff`).

Addresses are below `2 ^ 32`, and what lies at an address is a function of it; what is read where
nothing is mapped is left open.
-/

namespace IntroToOS.SharedMemory
open Lib
set_option autoImplicit false

abbrev PGSIZE : ℕ := 4096

/-- End of the user address space. -/
abbrev USERTOP : ℕ := 0xA0000

def PGROUNDUP (sz : ℕ) : ℕ := (sz + PGSIZE - 1) / PGSIZE * PGSIZE

theorem le_PGROUNDUP (sz : ℕ) : sz ≤ PGROUNDUP sz := by
  show sz ≤ (sz + 4096 - 1) / 4096 * 4096
  omega

/-- The bounds of the two regions, `p->sz` and `p->spages_info.current_top`. -/
structure Regions where
  sz : ℕ
  current_top : ℕ
  apart : PGROUNDUP sz ≤ current_top
  top_le : current_top ≤ USERTOP

theorem Regions.sz_le (p : Regions) : p.sz ≤ p.current_top :=
  Nat.le_trans (le_PGROUNDUP p.sz) p.apart

def IS_INVALID_ADDRESS (addr : ℕ) (p : Regions) : Prop :=
  (p.sz < addr ∧ addr < p.current_top) ∨ USERTOP ≤ addr

instance (addr : ℕ) (p : Regions) : Decidable (IS_INVALID_ADDRESS addr p) :=
  inferInstanceAs (Decidable (_ ∨ _))

def fetchint (mem : ℕ → Byte) (p : Regions) (addr : ℕ) : Option (BitVec 32) :=
  if IS_INVALID_ADDRESS addr p ∨ IS_INVALID_ADDRESS ((addr + 4) % 2 ^ 32) p then none
  else some (u32 mem addr)

/-- The first zero among the `n` bytes from `s` on. -/
def scan (mem : ℕ → Byte) : ℕ → ℕ → Option ℕ
  | 0, _ => none
  | n + 1, s => if mem s = 0 then some s else scan mem n (s + 1)

/-- `*pp` and the length that is returned; `none` is `-1`. -/
def fetchstr (mem : ℕ → Byte) (p : Regions) (addr : ℕ) : Option (ℕ × ℕ) :=
  if IS_INVALID_ADDRESS addr p then none
  else
    match scan mem (p.sz - addr) addr with
    | some s => some (addr, s - addr)
    | none =>
      match scan mem (USERTOP - p.current_top) p.current_top with
      | some s => some (p.current_top, s - p.current_top)
      | none => none

/-- `esp` is `proc->tf->esp`. -/
def argint (mem : ℕ → Byte) (p : Regions) (esp n : ℕ) : Option (BitVec 32) :=
  fetchint mem p ((esp + 4 + 4 * n) % 2 ^ 32)

def argptr (mem : ℕ → Byte) (p : Regions) (esp n size : ℕ) : Option ℕ := do
  let i ← argint mem p esp n
  if IS_INVALID_ADDRESS i.toNat p ∨ IS_INVALID_ADDRESS ((i.toNat + size) % 2 ^ 32) p then none
  else some i.toNat

def argstr (mem : ℕ → Byte) (p : Regions) (esp n : ℕ) : Option (ℕ × ℕ) := do
  let addr ← argint mem p esp n
  fetchstr mem p addr.toNat

/-! ## Buffers -/

/-- The `n` bytes from `a` on lie in the heap, or they lie in the shared region. -/
def Inside (p : Regions) (a n : ℕ) : Prop :=
  (∀ i < n, a + i < p.sz) ∨ ∀ i < n, p.current_top ≤ a + i ∧ a + i < USERTOP

/-- Where the ends of a buffer mislead: it begins in the heap, or where the heap ends, and ends in
the shared region; or it ends where the user address space ends. -/
def Misjudged (p : Regions) (a n : ℕ) : Prop :=
  ((a ≤ p.sz ∧ a < p.current_top) ∧ (p.sz < a + n ∧ p.current_top ≤ a + n) ∧ a + n < USERTOP) ∨
    a + n = USERTOP ∧ (p.current_top ≤ a ∨ p.sz = USERTOP)

instance (p : Regions) (a n : ℕ) : Decidable (Misjudged p a n) :=
  inferInstanceAs (Decidable (_ ∨ _))

section
variable {mem : ℕ → Byte} {p : Regions} {a n : ℕ}

theorem inside_iff (hn : 0 < n) :
    Inside p a n ↔ a + n ≤ p.sz ∨ p.current_top ≤ a ∧ a + n ≤ USERTOP := by
  have hlast := fun h : ∀ i < n, a + i < p.sz => h (n - 1) (by omega)
  constructor
  · rintro (h | h)
    · have := hlast h
      exact .inl (by omega)
    · have h0 := h 0 hn
      have hl := h (n - 1) (by omega)
      exact .inr ⟨by omega, by omega⟩
  · rintro (h | ⟨h1, h2⟩)
    · exact .inl fun i hi => by omega
    · exact .inr fun i hi => ⟨by omega, by omega⟩

theorem not_invalid {x : ℕ} :
    ¬ IS_INVALID_ADDRESS x p ↔ (x ≤ p.sz ∨ p.current_top ≤ x) ∧ x < USERTOP := by
  unfold IS_INVALID_ADDRESS
  omega

/-- The test of the two ends is right exactly for the buffers that are not misjudged. -/
theorem ends_inside_iff (hn : 0 < n) (hsmall : n < 2 ^ 31) :
    (¬ (IS_INVALID_ADDRESS a p ∨ IS_INVALID_ADDRESS ((a + n) % 2 ^ 32) p) ↔ Inside p a n) ↔
      ¬ Misjudged p a n := by
  have hsz := p.sz_le
  have htop := p.top_le
  have hutop : USERTOP = 655360 := rfl
  rw [not_or, not_invalid, not_invalid, inside_iff hn]
  unfold Misjudged
  rw [hutop] at htop ⊢
  by_cases ha : a < 655360
  · rw [Nat.mod_eq_of_lt (by omega)]
    omega
  · omega

/-- `fetchint` and `argptr` accept a buffer exactly when all of it lies in one of the two regions,
for the buffers that are not misjudged and for no others. -/
theorem argptr_inside_iff (p : Regions) :
    (∀ mem a, ((fetchint mem p a).isSome ↔ Inside p a 4) ↔ ¬ Misjudged p a 4) ∧
      ∀ mem esp k i, argint mem p esp k = some i → ∀ n, 0 < n → n < 2 ^ 31 →
        (((argptr mem p esp k n).isSome ↔ Inside p i.toNat n) ↔ ¬ Misjudged p i.toNat n) := by
  constructor
  · intro mem a
    rw [← ends_inside_iff (by decide) (by decide), fetchint]
    split
    · next h => simp only [h, Option.isSome_none, Bool.false_eq_true, not_true_eq_false]
    · next h => simp only [h, Option.isSome_some, not_false_eq_true]
  · intro mem esp k i hi n hn hsmall
    rw [← ends_inside_iff hn hsmall, argptr, hi]
    simp only [Option.bind_eq_bind, Option.bind_some]
    split
    · next h => simp only [h, Option.isSome_none, Bool.false_eq_true, not_true_eq_false]
    · next h => simp only [h, Option.isSome_some, not_false_eq_true]

/-- A heap of one page and a shared page at the end of the address space. -/
def onePageEach : Regions where
  sz := 0x1000
  current_top := 0x9F000
  apart := by decide
  top_le := by decide

/-- Memory in which the word at 0 is `0x9F000`, so that it is the first argument for `esp = -4`. -/
def sharedPageArg : ℕ → Byte := putU32 (fun _ => 1) 0 0x9F000

theorem argptr_inside_onePageEach :
    ((fetchint sharedPageArg onePageEach 0).isSome ↔ Inside onePageEach 0 4) ∧
      ((argptr sharedPageArg onePageEach (2 ^ 32 - 4) 0 16).isSome ↔
        Inside onePageEach 0x9F000 16) :=
  ⟨((argptr_inside_iff onePageEach).1 sharedPageArg 0).mpr (by decide),
    ((argptr_inside_iff onePageEach).2 sharedPageArg (2 ^ 32 - 4) 0 0x9F000 (by decide) 16
      (by decide) (by decide)).mpr (by decide)⟩

/-- The last shared page is refused, and a buffer over the gap between the regions is accepted. -/
theorem argptr_misjudges :
    (Inside onePageEach 0x9F000 0x1000 ∧
      argptr sharedPageArg onePageEach (2 ^ 32 - 4) 0 0x1000 = none) ∧
    (argptr (putU32 (fun _ => 1) 0 0) onePageEach (2 ^ 32 - 4) 0 0x9F000 = some 0 ∧
      ¬ Inside onePageEach 0 0x9F000) := by
  refine ⟨⟨?_, by decide⟩, by decide, ?_⟩
  · exact (inside_iff (by decide)).mpr (.inr (by decide))
  · rw [inside_iff (by decide)]
    decide

/-! ## Strings -/

theorem scan_eq_some {n s e : ℕ} (h : scan mem n s = some e) :
    (s ≤ e ∧ e < s + n) ∧ mem e = 0 ∧ ∀ x, s ≤ x → x < e → mem x ≠ 0 := by
  induction n generalizing s with
  | zero => cases h
  | succ n ih =>
      rw [scan] at h
      split at h
      · next h0 =>
        obtain rfl : s = e := Option.some.inj h
        exact ⟨⟨Nat.le_refl s, by omega⟩, h0, fun x h1 h2 => by omega⟩
      · next h0 =>
        obtain ⟨hrange, he, hbefore⟩ := ih h
        refine ⟨by omega, he, fun x h1 h2 => ?_⟩
        rcases Nat.lt_or_eq_of_le h1 with h1 | rfl
        · exact hbefore x h1 h2
        · exact h0

theorem scan_eq_none {n s : ℕ} (h : scan mem n s = none) :
    ∀ x, s ≤ x → x < s + n → mem x ≠ 0 := by
  induction n generalizing s with
  | zero => intro x h1 h2; omega
  | succ n ih =>
      rw [scan] at h
      split at h
      · cases h
      · next h0 =>
        intro x h1 h2
        rcases Nat.lt_or_eq_of_le h1 with h1 | rfl
        · exact ih h x h1 (by omega)
        · exact h0

/-- A string of `len` characters begins at `a`. -/
def IsString (mem : ℕ → Byte) (a len : ℕ) : Prop :=
  mem (a + len) = 0 ∧ ∀ i < len, mem (a + i) ≠ 0

/-- What `fetchstr` finds is the string at the address, whole in one of the regions, and it finds
every such string. -/
structure FindsStrings (mem : ℕ → Byte) (p : Regions) (a : ℕ) : Prop where
  sound : ∀ s len, fetchstr mem p a = some (s, len) →
    s = a ∧ IsString mem a len ∧ Inside p a (len + 1)
  complete : ∀ len, IsString mem a len → Inside p a (len + 1) → (fetchstr mem p a).isSome

/-- The scan leaves the heap without a zero, or begins outside it, and finds one in the shared
region, which is not where it began. -/
def Restarts (mem : ℕ → Byte) (p : Regions) (a : ℕ) : Prop :=
  (¬ IS_INVALID_ADDRESS a p ∧ a ≠ p.current_top) ∧ (∀ x, a ≤ x → x < p.sz → mem x ≠ 0) ∧
    ∃ x, p.current_top ≤ x ∧ x < USERTOP ∧ mem x = 0

theorem fetchstr_sound_iff (mem : ℕ → Byte) (p : Regions) (a : ℕ) :
    FindsStrings mem p a ↔ ¬ Restarts mem p a := by
  have hsz := p.sz_le
  have htop := p.top_le
  by_cases hinv : IS_INVALID_ADDRESS a p
  · have hnone : fetchstr mem p a = none := if_pos hinv
    refine iff_of_true ⟨?_, ?_⟩ fun h => h.1.1 hinv
    · intro s len h
      rw [hnone] at h
      cases h
    · intro len _ hin
      rw [inside_iff (Nat.succ_pos len)] at hin
      unfold IS_INVALID_ADDRESS at hinv
      omega
  · have hvalid := not_invalid.mp hinv
    cases hheap : scan mem (p.sz - a) a with
    | some e =>
        -- the string ends in the heap
        obtain ⟨hrange, he, hbefore⟩ := scan_eq_some hheap
        have hfetch : fetchstr mem p a = some (a, e - a) := by
          rw [fetchstr, if_neg hinv, hheap]
        refine iff_of_true ⟨?_, ?_⟩ fun h => h.2.1 e hrange.1 (by omega) he
        · intro s len h
          rw [hfetch] at h
          cases h
          refine ⟨rfl, ⟨?_, fun i hi => hbefore _ (by omega) (by omega)⟩, .inl fun i hi => by omega⟩
          rw [Nat.add_sub_cancel' hrange.1]
          exact he
        · intro len _ _
          rw [hfetch]
          rfl
    | none =>
        have hheap' : ∀ x, a ≤ x → x < p.sz → mem x ≠ 0 :=
          fun x h1 h2 => scan_eq_none hheap x h1 (by omega)
        cases hshared : scan mem (USERTOP - p.current_top) p.current_top with
        | some e =>
            obtain ⟨hrange, he, hbefore⟩ := scan_eq_some hshared
            have hfetch : fetchstr mem p a = some (p.current_top, e - p.current_top) := by
              simp only [fetchstr, if_neg hinv, hheap, hshared]
            have hin : p.current_top ≤ e ∧ e < USERTOP := by omega
            constructor
            · intro h hre
              exact hre.1.2 (h.sound _ _ hfetch).1.symm
            · intro h
              have ha : a = p.current_top := by
                by_contra hne
                exact h ⟨⟨hinv, hne⟩, hheap', e, hin.1, hin.2, he⟩
              subst ha
              refine ⟨?_, fun len _ _ => by rw [hfetch]; rfl⟩
              intro s len h
              rw [hfetch] at h
              cases h
              refine ⟨rfl, ⟨?_, fun i hi => hbefore _ (by omega) (by omega)⟩,
                .inr fun i hi => by omega⟩
              rw [Nat.add_sub_cancel' hrange.1]
              exact he
        | none =>
            -- no zero in sight
            have hshared' : ∀ x, p.current_top ≤ x → x < USERTOP → mem x ≠ 0 :=
              fun x h1 h2 => scan_eq_none hshared x h1 (by omega)
            have hfetch : fetchstr mem p a = none := by
              simp only [fetchstr, if_neg hinv, hheap, hshared]
            refine iff_of_true ⟨?_, ?_⟩ fun ⟨_, _, x, h1, h2, h0⟩ => hshared' x h1 h2 h0
            · intro s len h
              rw [hfetch] at h
              cases h
            · intro len hstr hin
              rcases (inside_iff (Nat.succ_pos len)).mp hin with h | h
              · exact absurd hstr.1 (hheap' _ (by omega) (by omega))
              · exact absurd hstr.1 (hshared' _ (by omega) (by omega))

/-- The string `b` in the shared page, at its second byte, is returned from the first one on. -/
theorem fetchstr_restarts :
    fetchstr (fun x => if x = 0x9F002 then 0 else 98) onePageEach 0x9F001 = some (0x9F000, 2) ∧
      ¬ FindsStrings (fun x => if x = 0x9F002 then 0 else 98) onePageEach 0x9F001 := by
  have hfetch : fetchstr (fun x => if x = 0x9F002 then 0 else 98) onePageEach 0x9F001 =
    some (0x9F000, 2) := by decide
  exact ⟨hfetch, fun h => absurd (h.sound _ _ hfetch).1 (by decide)⟩

end

end IntroToOS.SharedMemory

import IntroToOS.Lib.Bytes

/-! # C strings

A `char` array of `cap` bytes, none of whose elements need have been written. Reading a string
stops at its zero byte, and fails at an element that was never written or lies behind the array;
writing one fails when it does not fit with its zero byte.
-/

namespace IntroToOS.Lib
set_option autoImplicit false

/-- The elements of an array, `none` where nothing has been written. -/
abbrev Chars := ℕ → Option Byte

def uninit : Chars := fun _ => none

/-- The string that starts at `i`, in at most `n` elements. -/
def strFrom (b : Chars) : ℕ → ℕ → Option (List Byte)
  | 0, _ => none
  | n + 1, i => (b i).bind fun c => if c = 0 then some [] else (strFrom b n (i + 1)).map (c :: ·)

def strAt (cap : ℕ) (b : Chars) (i : ℕ) : Option (List Byte) := strFrom b (cap - i) i

/-- The string `s` and its zero byte are written at the start of the array. -/
def putStr (cap : ℕ) (b : Chars) (s : List Byte) : Option Chars :=
  if s.length < cap then some fun x => if x ≤ s.length then (s ++ [0])[x]? else b x else none

/-- A string literal. -/
def chars (s : String) : List Byte := s.toList.map fun c => .ofNat 8 c.toNat

def tolower (c : Byte) : Byte := if 65 ≤ c.toNat ∧ c.toNat ≤ 90 then c + 32 else c

/-- `strcasecmp(s, t) == 0` -/
abbrev EqualFold (s t : List Byte) : Prop := s.map tolower = t.map tolower

def isspace (c : Byte) : Bool := c = 32 || (9 ≤ c.toNat && c.toNat ≤ 13)

/-- One `%s` of `sscanf`: the word and what is left of the input. -/
def scanWord (s : List Byte) : Option (List Byte × List Byte) :=
  if s.dropWhile isspace = [] then none
  else some ((s.dropWhile isspace).takeWhile (!isspace ·), (s.dropWhile isspace).dropWhile (!isspace ·))

/-- The words that `n` directives `%s` read. -/
def scanWords : ℕ → List Byte → List (List Byte)
  | 0, _ => []
  | n + 1, s =>
    match scanWord s with
    | none => []
    | some (w, rest) => w :: scanWords n rest

section
variable {cap n i : ℕ} {b : Chars} {s w rest : List Byte}

/-- The elements from `i` on hold `s` and a zero byte. -/
theorem strFrom_eq (hs : (0 : Byte) ∉ s) (hn : s.length < n)
    (hb : ∀ k ≤ s.length, b (i + k) = (s ++ [0])[k]?) : strFrom b n i = some s := by
  induction s generalizing n i with
  | nil =>
      obtain ⟨n, rfl⟩ : ∃ m, n = m + 1 := ⟨n - 1, by omega⟩
      rw [strFrom, show b i = some 0 from hb 0 (Nat.le_refl 0)]
      rfl
  | cons c s ih =>
      rw [List.length_cons] at hn hb
      obtain ⟨n, rfl⟩ : ∃ m, n = m + 1 := ⟨n - 1, by omega⟩
      rw [List.mem_cons, not_or] at hs
      have hrest : strFrom b n (i + 1) = some s := by
        refine ih hs.2 (by omega) fun k hk => ?_
        rw [Nat.add_assoc, Nat.add_comm 1, hb (k + 1) (by omega)]
        rfl
      rw [strFrom, show b i = some c from hb 0 (Nat.zero_le _), Option.bind_some, if_neg (Ne.symm hs.1), hrest]
      rfl

theorem putStr_eq (b : Chars) (h : s.length < cap) :
    putStr cap b s = some fun x => if x ≤ s.length then (s ++ [0])[x]? else b x := if_pos h

theorem putStr_none (b : Chars) (h : cap ≤ s.length) : putStr cap b s = none := if_neg (Nat.not_lt.mpr h)

/-- A string that was written is read back, from any of its characters on. -/
theorem strAt_putStr (hs : (0 : Byte) ∉ s) (hfit : s.length < cap) (hi : i ≤ s.length) :
    strAt cap (fun x => if x ≤ s.length then (s ++ [0])[x]? else b x) i = some (s.drop i) := by
  refine strFrom_eq (fun h => hs (List.mem_of_mem_drop h)) (by rw [List.length_drop]; omega) ?_
  intro k hk
  rw [List.length_drop] at hk
  rw [if_pos (by omega), ← List.getElem?_drop, List.drop_append_of_le_length hi]

theorem length_scanWord (h : scanWord s = some (w, rest)) : w.length + rest.length ≤ s.length := by
  unfold scanWord at h
  by_cases hs : s.dropWhile isspace = []
  · rw [if_pos hs] at h
    cases h
  · rw [if_neg hs] at h
    obtain ⟨rfl, rfl⟩ := Prod.mk.inj (Option.some.inj h)
    rw [← List.length_append, List.takeWhile_append_dropWhile]
    exact (List.dropWhile_sublist _).length_le

theorem scanWord_mem (h : scanWord s = some (w, rest)) :
    w ≠ [] ∧ (∀ c ∈ w, c ∈ s) ∧ ∀ c ∈ rest, c ∈ s := by
  unfold scanWord at h
  by_cases hs : s.dropWhile isspace = []
  · rw [if_pos hs] at h
    cases h
  · rw [if_neg hs] at h
    obtain ⟨rfl, rfl⟩ := Prod.mk.inj (Option.some.inj h)
    refine ⟨?_, fun c hc => ?_, fun c hc => ?_⟩
    · have hhead := List.head_dropWhile_not isspace hs
      obtain ⟨c, l, hl⟩ := List.exists_cons_of_ne_nil hs
      simp only [hl, List.head_cons] at hhead
      simp [hl, hhead]
    · exact (List.dropWhile_sublist _).subset ((List.takeWhile_sublist _).subset hc)
    · exact (List.dropWhile_sublist _).subset ((List.dropWhile_sublist _).subset hc)

/-- The words are not empty, and their characters are those of the input. -/
theorem scanWords_mem (h : w ∈ scanWords n s) : w ≠ [] ∧ w.length ≤ s.length ∧ ∀ c ∈ w, c ∈ s := by
  induction n generalizing s with
  | zero => cases h
  | succ n ih =>
      rw [scanWords] at h
      cases hword : scanWord s with
      | none =>
          rw [hword] at h
          cases h
      | some r =>
          obtain ⟨v, rest⟩ := r
          rw [hword] at h
          have hlen := length_scanWord hword
          obtain ⟨hne, hv, hrest⟩ := scanWord_mem hword
          obtain rfl | h := List.mem_cons.mp h
          · exact ⟨hne, by omega, hv⟩
          · obtain ⟨hw, hle, hmem⟩ := ih h
            exact ⟨hw, by omega, fun c hc => hrest c (hmem c hc)⟩

/-- The words together are no longer than the input. -/
theorem length_flatten_scanWords (n : ℕ) (s : List Byte) :
    (scanWords n s).flatten.length ≤ s.length := by
  induction n generalizing s with
  | zero => exact Nat.zero_le _
  | succ n ih =>
      rw [scanWords]
      cases hword : scanWord s with
      | none => exact Nat.zero_le _
      | some r =>
          have hlen : r.1.length + r.2.length ≤ s.length := length_scanWord hword
          have hrest := ih r.2
          rw [List.flatten_cons, List.length_append]
          omega

theorem length_scanWords_le (n : ℕ) (s : List Byte) : (scanWords n s).length ≤ n := by
  induction n generalizing s with
  | zero => exact Nat.le_refl 0
  | succ n ih =>
      rw [scanWords]
      cases scanWord s with
      | none => exact Nat.zero_le _
      | some r => exact Nat.succ_le_succ (ih r.2)

end

end IntroToOS.Lib

import IntroToOS.CheckedFs.Outcomes

/-! # Files as arrays of bytes

The purpose of `readi` and `writei`: a file is a list of bytes, a read returns a part of it and a
write replaces a part of it or extends it (`readBytes`, `writeBytes`). On plain files the calls of
the file system do just that, in any order and on any number of files (`contents_of_run`).
-/

namespace IntroToOS.CheckedFs
open Lib
set_option autoImplicit false

/-! ## Arrays -/

/-- `d` put into `a` at `off`; what it does not cover stays. -/
def splice {α : Type} (a : List α) (off : ℕ) (d : List α) : List α :=
  a.take off ++ d ++ a.drop (off + d.length)

@[simp] theorem length_slice (f : ℕ → Byte) (off n : ℕ) : (slice f off n).length = n := by
  simp [slice]

def readBytes (a : List Byte) (off n : ℕ) : ℤ × List Byte :=
  if a.length < off ∨ wraps off n then (-1, [])
  else
    let d := (a.drop off).take n
    (d.length, d)

/-- A file holds `MAXFILE` blocks: what a write has beyond them is dropped. -/
def writeBytes (a : List Byte) (src : ℕ → Byte) (off n : ℕ) : List Byte × ℤ :=
  if a.length < off ∨ wraps off n then (a, -1)
  else
    let d := (slice src 0 n).take (MAXFILE * BSIZE - off)
    (splice a off d, d.length)

def applyBytes (a : List Byte) : Op → List Byte × Reply
  | .writei src off n =>
    let (a, ret) := writeBytes a src off.toNat n.toNat
    (a, { ret })
  | .readi off n =>
    let (ret, dst) := readBytes a off.toNat n.toNat
    (a, { ret, dst })

/-- Calls on the files of a map from inode numbers to arrays. -/
def onBytes : List (ℕ × Op) → (ℕ → List Byte) → (ℕ → List Byte) × List Reply
  | [], a => (a, [])
  | c :: cs, a =>
    let (b, r) := applyBytes (a c.1) c.2
    let (a, rs) := onBytes cs (Function.update a c.1 b)
    (a, r :: rs)

/-! ## Calls on the disk -/

def replies : List (ℕ × Op) → Fs → Kern (Fs × List Reply)
  | [], s => .ok (s, [])
  | c :: cs, s => do
    let (s, r) ← call s (c.2.call c.1)
    let (s, rs) ← replies cs s
    .ok (s, r :: rs)

/-- No call meets a full disk. -/
def hasRoom : List (ℕ × Op) → Fs → Bool
  | [], s => !s.exhausted
  | c :: cs, s => !s.exhausted && match call s (c.2.call c.1) with
    | .ok (t, _) => hasRoom cs t
    | .error e => e.panic ≠ .outOfBlocks

def File.bytes (f : File) : List Byte := slice f.byte 0 f.size

/-- The array of inode `i`. -/
def contents (s : Fs) (i : ℕ) : List Byte := (fileOf s (s.dinode i)).bytes

/-! ## One file -/

section
variable {f g src : ℕ → Byte} {off n m size : ℕ}

theorem getElem?_slice (f : ℕ → Byte) (off n k : ℕ) :
    (slice f off n)[k]? = if k < n then some (f (off + k)) else none := by
  unfold slice
  split
  · next h => simp [h]
  · next h => simp [h]

theorem length_bytes (f : File) : f.bytes.length = f.size := length_slice ..

theorem drop_take_slice (f : ℕ → Byte) (h : off ≤ size) :
    ((slice f 0 size).drop off).take n = slice f off (if size < off + n then size - off else n) := by
  apply List.ext_getElem?
  intro k
  rw [List.getElem?_take, List.getElem?_drop, getElem?_slice, getElem?_slice, Nat.zero_add]
  by_cases hk : k < n ∧ off + k < size
  · obtain ⟨hn, hs⟩ := hk
    have hin : k < if size < off + n then size - off else n := by
      split <;> omega
    rw [if_pos hn, if_pos hs, if_pos hin]
  · have hout : ¬ k < if size < off + n then size - off else n := by
      split <;> omega
    rw [if_neg hout]
    split
    · exact if_neg fun hs => hk ⟨‹_›, hs⟩
    · rfl

/-- Patching a file is splicing its array. -/
theorem slice_patch (g src : ℕ → Byte) (h : off ≤ size) :
    slice (patch g off m src) 0 (max size (off + m)) = splice (slice g 0 size) off (slice src 0 m) := by
  apply List.ext_getElem?
  intro k
  rw [splice, List.append_assoc, getElem?_slice, Nat.zero_add]
  have hlen : ((slice g 0 size).take off).length = off := by
    rw [List.length_take, length_slice]
    omega
  by_cases hbefore : k < off
  · have hout : ¬ (off ≤ k ∧ k < off + m) := by omega
    rw [List.getElem?_append_left (by omega), List.getElem?_take, if_pos hbefore, getElem?_slice,
      Nat.zero_add, if_pos (by omega), if_pos (by omega), patch, if_neg hout]
  · rw [List.getElem?_append_right (by omega), hlen]
    by_cases hin : k < off + m
    · rw [List.getElem?_append_left (by rw [length_slice]; omega), getElem?_slice, Nat.zero_add,
        if_pos (by omega), if_pos (by omega), patch, if_pos (by omega)]
    · have hout : ¬ (off ≤ k ∧ k < off + m) := by omega
      have hk : off + m + (k - off - m) = k := by omega
      rw [List.getElem?_append_right (by rw [length_slice]; omega), length_slice,
        List.getElem?_drop, getElem?_slice, Nat.zero_add, patch, if_neg hout, hk]
      by_cases hs : k < size
      · rw [if_pos hs, if_pos (by omega)]
      · rw [if_neg hs, if_neg (by omega)]

theorem take_slice (src : ℕ → Byte) (h : off ≤ MAXFILE * BSIZE) :
    (slice src 0 n).take (MAXFILE * BSIZE - off) = slice src 0 (clip off n) := by
  have hle : clip off n = min (MAXFILE * BSIZE - off) n := by
    unfold clip
    split <;> omega
  apply List.ext_getElem?
  intro k
  rw [List.getElem?_take, getElem?_slice, getElem?_slice, hle]
  by_cases hk : k < MAXFILE * BSIZE - off
  · rw [if_pos hk]
    by_cases hn : k < n
    · rw [if_pos hn, if_pos (by omega)]
    · rw [if_neg hn, if_neg (by omega)]
  · rw [if_neg hk, if_neg (by omega)]

theorem read_bytes (f : File) : f.read off n = readBytes f.bytes off n := by
  unfold File.read readBytes
  rw [length_bytes]
  by_cases hbad : f.size < off ∨ wraps off n
  · rw [if_pos hbad, if_pos hbad]
  · rw [if_neg hbad, if_neg hbad]
    have hoff : off ≤ f.size := Nat.not_lt.mp fun hlt => hbad (.inl hlt)
    simp only [File.bytes, drop_take_slice f.byte hoff, length_slice]

theorem write_bytes (f : File) (hsize : f.size ≤ MAXFILE * BSIZE) (src : ℕ → Byte) (off n : ℕ) :
    ((f.write false src off n).1.bytes, (f.write false src off n).2) =
      writeBytes f.bytes src off n := by
  unfold File.write writeBytes
  rw [length_bytes]
  by_cases hbad : f.size < off ∨ wraps off n
  · rw [if_pos hbad, if_pos hbad]
  · rw [if_neg hbad, if_neg hbad]
    have hoff : off ≤ f.size := Nat.not_lt.mp fun hlt => hbad (.inl hlt)
    have hgrow : (if 0 < clip off n ∧ (false = true ∨ f.size < off + clip off n)
        then off + clip off n else f.size) = max f.size (off + clip off n) := by
      simp only [Bool.false_eq_true, false_or]
      split <;> omega
    simp only [take_slice src (Nat.le_trans hoff hsize), length_slice, hgrow, File.bytes,
      slice_patch f.byte src hoff]

end

/-! ## One call -/

section
variable {s t : Fs} {i j : ℕ} {op : Op} {r : Reply} {cs : List (ℕ × Op)}

theorem ilock_eq (h : Valid s) (hi : (s.dinode i).type ≠ 0) : ilock s i = .ok (s.dinode i) := by
  cases hc : s.inode i with
  | some ip => rw [ilock_of_cached hc, (h.cached i ip hc).1]
  | none => rw [ilock, hc]; exact if_neg hi

/-- What a call on a plain file does: its array changes as it should, and no other. -/
structure OnFile (s : Fs) (i : ℕ) (op : Op) (t : Fs) (r : Reply) : Prop where
  valid : Valid t
  array : applyBytes (contents s i) op = (contents t i, r)
  others : ∀ j, j ≠ i → (s.dinode j).type ≠ 0 → contents t j = contents s j
  type : ∀ j, (t.dinode j).type = (s.dinode j).type

theorem call_onFile (h : Valid s) (hfile : (s.dinode i).type = T_FILE)
    (hcall : call s (op.call i) = .ok (t, r)) (hex : t.exhausted = false) :
    OnFile s i op t r := by
  have hvalid : Valid t := by
    refine call_valid h hcall hex ?_
    cases op <;> rfl
  have hi : (s.dinode i).type ≠ 0 := by rw [hfile]; decide
  have hdev : (s.dinode i).type ≠ T_DEV := by rw [hfile]; decide
  have hplain : decide ((s.dinode i).type = T_CHECKED) = false := by rw [hfile]; rfl
  cases op with
  | writei src off n =>
      obtain ⟨ip, hl, hcall⟩ := bind_eq_ok.mp hcall
      obtain rfl : s.dinode i = ip := Except.ok.inj ((ilock_eq h hi).symm.trans hl)
      obtain ⟨⟨u, jp, ret⟩, hw, hcall⟩ := bind_eq_ok.mp hcall
      obtain ⟨rfl, rfl⟩ := Prod.mk.inj (Except.ok.inj hcall)
      obtain ⟨hu, hwrite⟩ := writei_spec h.sound rfl hi hdev hw hex
      have hd : ∀ j, ((u.setInode i jp).dinode j) = Function.update s.dinode i jp j :=
        congrFun hu.dinode
      refine ⟨hvalid, ?_, fun j hj hin => ?_, fun j => ?_⟩
      · have hbytes := write_bytes (fileOf s (s.dinode i)) (h.sound.size_le i hi) src off.toNat
          n.toNat
        rw [hplain] at hwrite
        rw [← hwrite] at hbytes
        have hc : contents (u.setInode i jp) i = (fileOf u jp).bytes := by
          rw [contents, hd, Function.update_self]
          rfl
        simp only [applyBytes, contents, ← hbytes]
        rw [← hc]
        rfl
      · rw [contents, contents, hd, Function.update_of_ne hj, ← hu.others j hj hin]
        rfl
      · rw [hd]
        by_cases hj : j = i
        · rw [hj, Function.update_self, hu.type]
        · rw [Function.update_of_ne hj]
  | readi off n =>
      obtain ⟨ip, hl, hcall⟩ := bind_eq_ok.mp hcall
      obtain rfl : s.dinode i = ip := Except.ok.inj ((ilock_eq h hi).symm.trans hl)
      obtain ⟨⟨u, jp, ret, dst⟩, hr, hcall⟩ := bind_eq_ok.mp hcall
      obtain ⟨rfl, rfl⟩ := Prod.mk.inj (Except.ok.inj hcall)
      have hsound : Sound s (table s i (s.dinode i)) := by
        rw [table_eq rfl]
        exact h.sound
      rw [readi_eq hsound hi hdev, read_bytes] at hr
      obtain ⟨rfl, rfl, hread⟩ := by simpa only [Except.ok.injEq, Prod.mk.injEq] using hr
      refine ⟨hvalid, ?_, fun _ _ _ => rfl, fun _ => rfl⟩
      simp only [applyBytes, contents, hread]
      rfl

/-- The only panic of a call on a file is that of a full disk. -/
theorem panic_of_file (h : Valid s) (hfile : (s.dinode i).type = T_FILE) {e : Halt}
    (hcall : call s (op.call i) = .error e) : e.panic = .outOfBlocks := by
  have hi : (s.dinode i).type ≠ 0 := by rw [hfile]; decide
  have hdev : (s.dinode i).type ≠ T_DEV := by rw [hfile]; decide
  cases op with
  | writei src off n =>
      rcases bind_eq_error.mp hcall with hl | ⟨ip, hl, hcall⟩
      · rw [ilock_eq h hi] at hl
        cases hl
      · obtain rfl : s.dinode i = ip := Except.ok.inj ((ilock_eq h hi).symm.trans hl)
        rcases bind_eq_error.mp hcall with hw | ⟨_, _, hcall⟩
        · exact panic_of_writei (h.sound.size_le i hi) hdev hw
        · cases hcall
  | readi off n =>
      rcases bind_eq_error.mp hcall with hl | ⟨ip, hl, hcall⟩
      · rw [ilock_eq h hi] at hl
        cases hl
      · obtain rfl : s.dinode i = ip := Except.ok.inj ((ilock_eq h hi).symm.trans hl)
        have hsound : Sound s (table s i (s.dinode i)) := by
          rw [table_eq rfl]
          exact h.sound
        rw [readi_eq hsound hi hdev] at hcall
        cases hcall

/-! ## Runs -/

theorem exhausted_of_hasRoom (h : hasRoom cs s) : s.exhausted = false := by
  cases cs with
  | nil => simpa [hasRoom] using h
  | cons c cs => simpa [hasRoom] using (Bool.and_eq_true_iff.mp h).1

/-- Arrays that agree with the files in use agree with them after a call as well. -/
theorem OnFile.agree (h : OnFile s i op t r) (hi : (s.dinode i).type ≠ 0) {a : ℕ → List Byte}
    (ha : ∀ j, (s.dinode j).type ≠ 0 → contents s j = a j) (hj : (t.dinode j).type ≠ 0) :
    contents t j = Function.update a i (applyBytes (a i) op).1 j := by
  by_cases hji : j = i
  · rw [hji, Function.update_self, ← ha i hi, h.array]
  · have hin : (s.dinode j).type ≠ 0 := by rwa [← h.type j]
    rw [Function.update_of_ne hji, h.others j hji hin, ha j hin]

theorem replies_eq (h : Valid s) (hfile : ∀ c ∈ cs, (s.dinode c.1).type = T_FILE)
    (hroom : hasRoom cs s) {a : ℕ → List Byte}
    (ha : ∀ j, (s.dinode j).type ≠ 0 → contents s j = a j) :
    ∃ t, replies cs s = .ok (t, (onBytes cs a).2) ∧
      ∀ j, (s.dinode j).type ≠ 0 → contents t j = (onBytes cs a).1 j := by
  induction cs generalizing s a with
  | nil => exact ⟨s, rfl, ha⟩
  | cons c cs ih =>
      have hc := hfile c (List.mem_cons_self ..)
      have hin : (s.dinode c.1).type ≠ 0 := by rw [hc]; decide
      have hrest := (Bool.and_eq_true_iff.mp hroom).2
      cases hres : call s (c.2.call c.1) with
      | error e =>
          rw [hres] at hrest
          exact absurd (panic_of_file h hc hres) (of_decide_eq_true hrest)
      | ok p =>
          obtain ⟨t, r⟩ := p
          rw [hres] at hrest
          have hon := call_onFile h hc hres (exhausted_of_hasRoom hrest)
          have hfile' : ∀ d ∈ cs, (t.dinode d.1).type = T_FILE := fun d hd => by
            rw [hon.type]
            exact hfile d (List.mem_cons_of_mem _ hd)
          obtain ⟨u, hu, hend⟩ := ih hon.valid hfile' hrest fun j hj => hon.agree hin ha hj
          have hreply : (applyBytes (a c.1) c.2).2 = r := by
            rw [← ha c.1 hin, hon.array]
          refine ⟨u, ?_, fun j hj => hend j ?_⟩
          · simp only [replies, hres, ok_bind, hu, onBytes, hreply]
          · rwa [hon.type j]

/-- The calls of a run answer as the arrays do, and the files in use end up as the arrays do. -/
theorem contents_of_run (h : Valid s) (hfile : ∀ c ∈ cs, (s.dinode c.1).type = T_FILE)
    (hroom : hasRoom cs s) :
    ∃ t, replies cs s = .ok (t, (onBytes cs (contents s)).2) ∧
      ∀ j, (s.dinode j).type ≠ 0 → contents t j = (onBytes cs (contents s)).1 j :=
  replies_eq h hfile hroom fun _ _ => rfl

end

/-- Two files, the first written twice with the second in between. -/
def twoFiles : Fs := fresh (fresh emptyFs 1 T_FILE) 2 T_FILE

def interleaved : List (ℕ × Op) :=
  [(1, .writei (fun _ => 7) 0 10), (2, .writei (fun _ => 9) 0 3), (1, .writei (fun _ => 8) 5 2),
    (1, .readi 4 4), (2, .readi 4 1)]

theorem twoFiles_valid : Valid twoFiles :=
  (emptyFs_initial.valid.fresh rfl (by decide) 0 0).fresh rfl (by decide) 0 0

theorem interleaved_contents : ∃ t, replies interleaved twoFiles =
      .ok (t, (onBytes interleaved (contents twoFiles)).2) ∧
    contents t 1 = [7, 7, 7, 7, 7, 8, 8, 7, 7, 7] ∧ contents t 2 = [9, 9, 9] := by
  have hroom : hasRoom interleaved twoFiles = true := by decide +kernel
  have hfile : ∀ c ∈ interleaved, (twoFiles.dinode c.1).type = T_FILE := by decide
  obtain ⟨t, ht, hend⟩ := contents_of_run twoFiles_valid hfile hroom
  refine ⟨t, ht, ?_, ?_⟩
  · rw [hend 1 (by decide)]
    decide +kernel
  · rw [hend 2 (by decide)]
    decide +kernel

end IntroToOS.CheckedFs

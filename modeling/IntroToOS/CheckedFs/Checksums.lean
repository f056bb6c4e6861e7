import IntroToOS.CheckedFs.Calls
import IntroToOS.Lib.Run

/-! # Checksums along every run

A file system that holds no checked files, no holes and no cached inodes (`Initial`) is valid. As long
as nothing is deleted and the disk has room it stays valid, and a valid file system is `Checksummed`.
-/

namespace IntroToOS.CheckedFs
open Lib
set_option autoImplicit false

/-- A file system without holes and without checked files, none of it in memory. Pointers carry
no checksums yet: they are the numbers of the blocks. -/
structure Initial (s : Fs) : Prop where
  fits : s.size ≤ 2 ^ 24
  range : ∀ i p, Reaches s s.dinode i p → dataStart s ≤ (pointer s.block (s.dinode i) p).toNat ∧
    (pointer s.block (s.dinode i) p).toNat < s.size
  distinct : ∀ i p j q, Reaches s s.dinode i p → Reaches s s.dinode j q →
    pointer s.block (s.dinode i) p = pointer s.block (s.dinode j) q → i = j ∧ p = q
  marked : ∀ b < s.size, s.bitmap b = true ↔ b < dataStart s ∨
    ∃ i p, Reaches s s.dinode i p ∧ (pointer s.block (s.dinode i) p).toNat = b
  clean : ∀ b < s.size, s.bitmap b = false → ∀ o, s.block b o = 0
  unchecked : ∀ i, (s.dinode i).type ≠ T_CHECKED
  size_le : ∀ i, (s.dinode i).type ≠ 0 → (s.dinode i).size ≤ MAXFILE * BSIZE
  covered : ∀ i k, (s.dinode i).type ≠ 0 → k * BSIZE < (s.dinode i).size →
    pointer s.block (s.dinode i) (.data k) ≠ 0
  cold : ∀ i, s.inode i = none

section
variable {s t : Fs}

theorem blockNo_eq_toNat {a : Addr} (h : a.toNat < 2 ^ 24) : blockNo a = a.toNat := by
  have := blockNo_ofNat h
  rwa [BitVec.ofNat_toNat, BitVec.setWidth_eq] at this

theorem checksum_eq_zero {a : Addr} (h : a.toNat < 2 ^ 24) : CH_GET_CHECKSUM a = 0 := by
  have := CH_GET_CHECKSUM_ofNat h
  rwa [BitVec.ofNat_toNat, BitVec.setWidth_eq] at this

theorem Initial.toNat_lt (h : Initial s) {i : ℕ} {p : Position} (hi : (s.dinode i).type ≠ 0) :
    (pointer s.block (s.dinode i) p).toNat < 2 ^ 24 := by
  by_cases h0 : pointer s.block (s.dinode i) p = 0
  · rw [h0]
    decide
  · exact Nat.lt_of_lt_of_le (h.range i p ⟨hi, h0⟩).2 h.fits

theorem Initial.blockAt_eq (h : Initial s) {i : ℕ} {p : Position} (hi : (s.dinode i).type ≠ 0) :
    blockAt s s.dinode i p = (pointer s.block (s.dinode i) p).toNat :=
  blockNo_eq_toNat (h.toNat_lt hi)

theorem Initial.sound (h : Initial s) : Sound s s.dinode where
  fits := h.fits
  range := by
    intro i p hr
    rw [h.blockAt_eq hr.inUse]
    exact h.range i p hr
  distinct := by
    intro i p j q hi hj he
    rw [h.blockAt_eq hi.inUse, h.blockAt_eq hj.inUse] at he
    exact h.distinct i p j q hi hj (BitVec.eq_of_toNat_eq he)
  marked := by
    intro b hb
    rw [h.marked b hb]
    refine or_congr_right (exists_congr fun i => exists_congr fun p => ?_)
    exact and_congr_right fun hr => by rw [h.blockAt_eq hr.inUse]
  clean := h.clean
  plainIndirect := fun i hi => checksum_eq_zero (h.toNat_lt (p := .indirect) hi)
  plain := fun i k hi _ => checksum_eq_zero (h.toNat_lt hi)
  checked := fun i _ hi => absurd hi (h.unchecked i)
  size_le := h.size_le
  covered := h.covered

theorem Initial.valid (h : Initial s) : Valid s where
  sound := h.sound
  cached := by
    intro i ip hip
    rw [h.cold i] at hip
    cases hip

/-! ## The checksum of a file -/

/-- The bytes of block `k` of a file, none when the block is not allocated. -/
def blockBytes (s : Fs) (ip : Inode) (k : ℕ) : List Byte :=
  if pointer s.block ip (.data k) = 0 then []
  else (List.range BSIZE).map (s.block (blockNo (pointer s.block ip (.data k))))

/-- All bytes of all data blocks of a file. -/
def allBytes (s : Fs) (ip : Inode) : List Byte := (List.range MAXFILE).flatMap (blockBytes s ip)

theorem calculate_file_checksum_eq (s : Fs) (ip : Inode) : calculate_file_checksum s ip =
    xorBytes ((List.range MAXFILE).map fun k => CH_GET_CHECKSUM (pointer s.block ip (.data k))) := by
  have hsplit : List.range MAXFILE =
      List.range NDIRECT ++ (List.range NINDIRECT).map (NDIRECT + ·) := List.range_add ..
  have hdirect : (List.range NDIRECT).map (fun k => CH_GET_CHECKSUM (pointer s.block ip (.data k))) =
      (List.range NDIRECT).map fun k => CH_GET_CHECKSUM (ip.addrs k) := by
    refine List.map_congr_left fun k hk => ?_
    rw [pointer_data, if_pos (List.mem_range.mp hk)]
  unfold calculate_file_checksum
  rw [hsplit, List.map_append, xorBytes_append, hdirect, List.map_map]
  by_cases h0 : ip.addrs NDIRECT = 0
  · have hnone : (List.range NINDIRECT).map
        ((fun k => CH_GET_CHECKSUM (pointer s.block ip (.data k))) ∘ (NDIRECT + ·)) =
        List.replicate NINDIRECT 0 := by
      rw [List.map_congr_left (g := fun _ => 0), List.map_const', List.length_range]
      intro k _
      have hk : ¬ NDIRECT + k < NDIRECT := by omega
      show CH_GET_CHECKSUM (pointer s.block ip (.data (NDIRECT + k))) = 0
      rw [pointer_data, if_neg hk, if_pos (.inl h0), CH_GET_CHECKSUM_zero]
    have hzero : xorBytes (List.replicate NINDIRECT 0) = 0#8 := by decide +kernel
    rw [if_pos h0, hnone, hzero, BitVec.xor_zero]
  · rw [if_neg h0]
    refine congrArg (xorBytes _ ^^^ ·) (congrArg xorBytes (List.map_congr_left fun k hk => ?_))
    show _ = CH_GET_CHECKSUM (pointer s.block ip (.data (NDIRECT + k)))
    rw [pointer_of_indirect _ h0 (List.mem_range.mp hk)]

/-- The checksum that `stati` reports is the checksum of all bytes of the file's blocks. -/
theorem Sound.calculate_file_checksum_eq {i : ℕ} (h : Sound s s.dinode)
    (hi : (s.dinode i).type = T_CHECKED) :
    calculate_file_checksum s (s.dinode i) = xorBytes (allBytes s (s.dinode i)) := by
  have hu : (s.dinode i).type ≠ 0 := by
    rw [hi]
    decide
  rw [CheckedFs.calculate_file_checksum_eq, allBytes, xorBytes_flatMap]
  congr 1
  refine List.map_congr_left fun k _ => ?_
  unfold blockBytes
  by_cases h0 : pointer s.block (s.dinode i) (.data k) = 0
  · rw [if_pos h0, h0, CH_GET_CHECKSUM_zero]
    rfl
  · rw [if_neg h0]
    exact h.checked i k hi ⟨hu, h0⟩

/-! ## Every reachable state -/

/-- The promise of the checksums. `named` says of which block the low 24 bits are the number: one
of the data region that is in use and that no other position names. -/
structure Checksummed (s : Fs) : Prop where
  stored : ∀ i k, (s.dinode i).type = T_CHECKED → pointer s.block (s.dinode i) (.data k) ≠ 0 →
    CH_GET_CHECKSUM (pointer s.block (s.dinode i) (.data k)) =
      calculate_checksum (s.block (blockAt s s.dinode i (.data k))) BSIZE
  named : ∀ i k, (s.dinode i).type = T_CHECKED → pointer s.block (s.dinode i) (.data k) ≠ 0 →
    dataStart s ≤ blockAt s s.dinode i (.data k) ∧ blockAt s s.dinode i (.data k) < s.size ∧
      s.bitmap (blockAt s s.dinode i (.data k)) = true ∧
      ∀ j q, Reaches s s.dinode j q → blockAt s s.dinode j q = blockAt s s.dinode i (.data k) →
        j = i ∧ q = .data k
  cached : ∀ i, ∀ ip ∈ s.inode i, ip = s.dinode i
  readable : ∀ i ip off n, ilock s i = .ok ip → ip.type = T_CHECKED → off ≤ ip.size →
    ¬ wraps off n → ∃ m dst, readi s ip off n = .ok (s, ip, (m : ℕ), dst) ∧ m = min n (ip.size - off)
  summed : ∀ i ip, ilock s i = .ok ip → ip.type = T_CHECKED →
    (stati s i ip).checksum = some (xorBytes (allBytes s ip))

theorem Valid.checksummed (h : Valid s) : Checksummed s where
  stored := by
    intro i k hi h0
    have hu : (s.dinode i).type ≠ 0 := by
      rw [hi]
      decide
    exact h.sound.checked i k hi ⟨hu, h0⟩
  named := by
    intro i k hi h0
    have hu : (s.dinode i).type ≠ 0 := by
      rw [hi]
      decide
    have hr : Reaches s s.dinode i (.data k) := ⟨hu, h0⟩
    obtain ⟨hlo, hhi⟩ := h.sound.range i _ hr
    exact ⟨hlo, hhi, (h.sound.marked _ hhi).mpr (.inr ⟨i, _, hr, rfl⟩),
      fun j q hj he => h.sound.distinct j q i _ hj hr he⟩
  cached := fun i ip hip => (h.cached i ip hip).1.symm
  readable := by
    intro i ip off n hl hi hoff hn
    obtain ⟨hd, hu⟩ := ilock_spec h hl
    have hsound : Sound s (table s i ip) := by
      rw [table_eq hd]
      exact h.sound
    have hdev : ip.type ≠ T_DEV := by
      rw [hi]
      decide
    have hok : ¬ ((fileOf s ip).size < off ∨ wraps off n) := by
      rintro (hlt | hwrap)
      · exact Nat.not_lt.mpr hoff hlt
      · exact hn hwrap
    rw [readi_eq hsound hu hdev, File.read, if_neg hok]
    refine ⟨_, _, rfl, ?_⟩
    show (if ip.size < off + n then ip.size - off else n) = min n (ip.size - off)
    split <;> omega
  summed := by
    intro i ip hl hi
    obtain ⟨rfl, -⟩ := ilock_spec h hl
    rw [stati, if_pos hi, h.sound.calculate_file_checksum_eq hi]

/-- Nothing is deleted, and `balloc` finds a block on the disk whenever it looks for one. -/
def KeepsAll (s : Fs) (a : Call) : Prop :=
  deletes s a = false ∧ ∀ t ∈ step s a, t.exhausted = false

instance (s : Fs) (a : Call) : Decidable (KeepsAll s a) := inferInstanceAs (Decidable (_ ∧ _))

theorem step_eq_some {a : Call} : step s a = some t ↔ ∃ r, call s a = .ok (t, r) := by
  unfold step
  cases call s a with
  | error e => simp [Except.toOption]
  | ok p => simp [Except.toOption, Prod.ext_iff]

theorem valid_of_run (h : Valid s) (hrun : Run step KeepsAll s t) : Valid t := by
  refine hrun.invariant h fun t a u hv hok hs => ?_
  obtain ⟨r, hc⟩ := step_eq_some.mp hs
  exact call_valid hv hc (hok.2 u hs) hok.1

/-- After every run of calls that delete nothing, every allocated block of a checked file has its
checksum in its pointer. -/
theorem checksummed_of_run (h : Initial s) (hrun : Run step KeepsAll s t) : Checksummed t :=
  (valid_of_run h.valid hrun).checksummed

end

/-! ## An empty disk -/

/-- A disk of 32 blocks, all of the data region free. -/
def emptyFs : Fs where
  size := 32
  ninodes := 8
  bitmap b := b < 5
  dinode _ := {}
  block _ _ := 0

theorem emptyFs_initial : Initial emptyFs where
  fits := by decide
  range := fun _ _ h => absurd rfl h.inUse
  distinct := fun _ _ _ _ h => absurd rfl h.inUse
  marked := by
    intro b _
    have hstart : dataStart emptyFs = 5 := by decide
    rw [hstart]
    simp only [emptyFs, decide_eq_true_iff]
    exact ⟨.inl, fun h => h.elim id fun ⟨_, _, hr, _⟩ => absurd rfl hr.inUse⟩
  clean := fun _ _ _ _ => rfl
  unchecked := fun _ => show 0 ≠ 4 by decide
  size_le := fun _ h => absurd rfl h
  covered := fun _ _ h => absurd rfl h
  cold := fun _ => rfl

/-- Two files; the checked one is written, partly overwritten and read. -/
def checkedCalls : List Call :=
  [.create .checked 0 0, .create .file 0 0, .writei 1 (fun x => BitVec.ofNat 8 x) 0 10,
    .writei 2 (fun _ => 7) 0 10, .writei 1 (fun _ => 255) 5 3, .readi 1 2 4, .stati 1]

theorem checkedCalls_checksummed :
    ∃ t, play step checkedCalls emptyFs = some t ∧ Checksummed t := by
  have hsome : (play step checkedCalls emptyFs).isSome = true := by decide +kernel
  have hok : PlayOk step KeepsAll checkedCalls emptyFs := by decide +kernel
  obtain ⟨t, ht⟩ := Option.isSome_iff_exists.mp hsome
  exact ⟨t, ht, checksummed_of_run emptyFs_initial (.of_playOk hok ht)⟩

end IntroToOS.CheckedFs

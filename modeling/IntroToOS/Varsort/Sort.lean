import IntroToOS.Lib.Codec
import Mathlib.Data.List.Perm.Basic
import Mathlib.Data.List.Sort

/-! # varsort

Translated from `Project1a/varsort.c`. A pointer is an offset from `mem_data->data`, where the rest
of the input file is read to; what lies there and beyond before that is arbitrary (`heap`). One call
of `read` or `write` moves at most `limit` bytes, `0x7ffff000` on Linux. Opening, `malloc` and
closing succeed. The output is right exactly when one `read` gets the whole file and no record is
too long for an `int` (`sorts_iff`).
-/

namespace IntroToOS.Varsort
open Lib
set_option autoImplicit false

/-- `rec_dataptr_t`. -/
structure RecDataptr where
  key : BitVec 32
  data_ints : BitVec 32
  data_ptr : ℕ

/-- The sizes in `mem_data_t`. -/
structure MemData where
  total_size : ℕ
  rarray_size : ℕ
  data_size : ℕ

def allocate_memory (size R : ℕ) : MemData :=
  let data_size := (size + 2 ^ 32 - 4) % 2 ^ 32
  let rarray_size := R * 16 % 2 ^ 32
  { total_size := (rarray_size + data_size) % 2 ^ 32, rarray_size, data_size }

/-- The buffer after `read(fd, buf, count)` at offset `off` of the file. -/
def read (limit : ℕ) (file : List Byte) (off count : ℕ) (buf : ℕ → Byte) : ℕ → Byte := fun a =>
  if a < min count limit then (file.drop off)[a]?.getD (buf a) else buf a

/-- The loop of `populate_record_array`; the eight bytes that are copied into `data_ptr` are
overwritten. -/
def populate_record_array (mem : ℕ → Byte) : ℕ → ℕ → List RecDataptr
  | 0, _ => []
  | R + 1, cur_rec_ptr =>
    ⟨u32 mem cur_rec_ptr, u32 mem (cur_rec_ptr + 4), cur_rec_ptr⟩ ::
      populate_record_array mem R (cur_rec_ptr + (8 + (u32 mem (cur_rec_ptr + 4)).toNat * 4))

def comparator (data1 data2 : RecDataptr) : ℤ := if data2.key.toNat < data1.key.toNat then 1 else 0

/-- What is asked of `qsort`. -/
structure QSort {α : Type} (compar : α → α → ℤ) where
  sort : List α → List α
  perm : ∀ base, (sort base).Perm base
  sorted : ∀ base, (sort base).IsChain fun a b => ¬ 0 < compar a b

/-- The result of `write(fd, buf, size)`, for an `int` that becomes a `size_t`. -/
def write (limit : ℕ) (size : ℤ) : ℤ :=
  if size % 2 ^ 64 < 2 ^ 63 then min (size % 2 ^ 64) limit else -1

/-- The loop of `write_sorted_data`: whether it gets to its end, and the output file. -/
def write_records (limit : ℕ) (mem : ℕ → Byte) : List RecDataptr → List Byte → Bool × List Byte
  | [], out => (true, out)
  | r :: rarray, out =>
    let size := (BitVec.ofNat 32 (r.data_ints.toNat * 4 + 8)).toInt
    let n := write limit size
    let out := out ++ bytesAt mem r.data_ptr n.toNat
    if n ≠ size then (false, out) else write_records limit mem rarray out

def write_sorted_data (limit : ℕ) (mem : ℕ → Byte) (R : BitVec 32) (rarray : List RecDataptr) :
    Bool × List Byte :=
  write_records limit mem rarray ((le32 R).take (write limit 4).toNat)

/-- The exit status and the output file. `none` when the array and the data do not fit into the
chunk that is allocated for them, or the loop over the records, on an `int`, is not the one that
`qsort` is asked to sort. -/
def main (limit : ℕ) (qsort : QSort comparator) (stack heap : ℕ → Byte) (file : List Byte) :
    Option (ℕ × List Byte) :=
  let size := file.length % 2 ^ 32
  let R := u32 (read limit file 0 4 stack) 0
  let mem_data := allocate_memory size R.toNat
  if R.toNat < 2 ^ 31 ∧ mem_data.rarray_size = R.toNat * 16 ∧
      mem_data.total_size = mem_data.rarray_size + mem_data.data_size then
    let data := read limit file (min 4 limit) mem_data.data_size heap
    let rarray := qsort.sort (populate_record_array data R.toNat 0)
    let (ok, out) := write_sorted_data limit data R rarray
    some (if ok then 0 else 1, out)
  else none

/-! ## The format of the files -/

structure Record where
  key : BitVec 32
  data : List (BitVec 32)

def Record.size (r : Record) : ℕ := 8 + 4 * r.data.length

def recordCodec : Codec Byte Record where
  enc := fun r => le32 r.key ++ (le32 (.ofNat 32 r.data.length) ++ r.data.flatMap le32)
  take := fun bs => (takeWord bs).bind fun key => (takeWord key.2).bind fun N =>
    (wordCodec.takeMany N.1.toNat N.2).map fun data => (⟨key.1, data.1⟩, data.2)
  valid := fun r => r.data.length < 2 ^ 32
  take_iff := by
    intro bs r l
    simp only [Option.bind_eq_some_iff, Option.map_eq_some_iff, Prod.mk.injEq]
    constructor
    · rintro ⟨⟨key, l₁⟩, hkey, ⟨N, l₂⟩, hN, ⟨data, l₃⟩, hdata, rfl, rfl⟩
      obtain ⟨-, rfl⟩ := (wordCodec.take_iff bs key l₁).mp hkey
      obtain ⟨-, rfl⟩ := (wordCodec.take_iff l₁ N l₂).mp hN
      obtain ⟨hlen, -, rfl⟩ := (wordCodec.takeMany_iff l₂).mp hdata
      refine ⟨by simpa only [hlen] using N.isLt, ?_⟩
      simp only [hlen, BitVec.ofNat_toNat, BitVec.setWidth_eq, List.append_assoc]
      rfl
    · rintro ⟨hv, rfl⟩
      refine ⟨(r.key, le32 (.ofNat 32 r.data.length) ++ r.data.flatMap le32 ++ l), ?_,
        (.ofNat 32 r.data.length, r.data.flatMap le32 ++ l), ?_, (r.data, l), ?_, rfl, rfl⟩
      · rw [List.append_assoc]
        exact wordCodec.take_enc trivial
      · rw [List.append_assoc]
        exact wordCodec.take_enc trivial
      · refine (wordCodec.takeMany_iff _).mpr ⟨?_, fun _ _ => trivial, rfl⟩
        rw [BitVec.toNat_ofNat, Nat.mod_eq_of_lt hv]

/-- A count, as many records, and nothing after them. -/
def decode (bs : List Byte) : Option (List Record) :=
  (takeWord bs).bind fun R => (recordCodec.takeMany R.1.toNat R.2).bind fun rs =>
    if rs.2 = [] then some rs.1 else none

/-- The output file holds the records of the input file in the order of their keys. -/
structure Sorted (rs : List Record) (out : List Byte) : Prop where
  sorted : ∃ rs', decode out = some rs' ∧ rs'.length = rs.length ∧ rs'.Perm rs ∧
    rs'.Pairwise fun r r' => r.key.toNat ≤ r'.key.toNat

section
variable {mem : ℕ → Byte} {p limit : ℕ} {r : Record} {rs : List Record} {out : List Byte}

theorem decode_eq_some {bs : List Byte} : decode bs = some rs ↔
    rs.length < 2 ^ 32 ∧ (∀ r ∈ rs, r.data.length < 2 ^ 32) ∧
      bs = le32 (.ofNat 32 rs.length) ++ rs.flatMap recordCodec.enc := by
  simp only [decode, Option.bind_eq_some_iff, Option.ite_none_right_eq_some, Option.some.injEq]
  constructor
  · rintro ⟨⟨R, l⟩, hR, ⟨rs', l'⟩, hrs, rfl, rfl⟩
    obtain ⟨-, rfl⟩ := (wordCodec.take_iff bs R l).mp hR
    obtain ⟨hlen, hv, rfl⟩ := (recordCodec.takeMany_iff l).mp hrs
    refine ⟨hlen ▸ R.isLt, hv, ?_⟩
    simp only [hlen, BitVec.ofNat_toNat, BitVec.setWidth_eq, List.append_nil]
    rfl
  · rintro ⟨hlen, hv, rfl⟩
    refine ⟨(.ofNat 32 rs.length, _), wordCodec.take_enc trivial, (rs, []), ?_, rfl, rfl⟩
    refine (recordCodec.takeMany_iff _).mpr ⟨?_, hv, (List.append_nil _).symm⟩
    rw [BitVec.toNat_ofNat, Nat.mod_eq_of_lt hlen]

theorem length_flatMap_le32 (l : List (BitVec 32)) : (l.flatMap le32).length = 4 * l.length := by
  induction l with
  | nil => rfl
  | cons w l ih =>
      rw [List.flatMap_cons, List.length_append, ih, length_le32, List.length_cons]
      omega

@[simp] theorem length_enc (r : Record) : (recordCodec.enc r).length = r.size := by
  simp only [recordCodec, List.length_append, length_le32, length_flatMap_le32, Record.size]
  omega

/-! ## The record array -/

/-- An element of the array stands for a record that lies in memory. -/
structure Points (mem : ℕ → Byte) (e : RecDataptr) (r : Record) : Prop where
  key : e.key = r.key
  data_ints : e.data_ints = .ofNat 32 r.data.length
  bytes : bytesAt mem e.data_ptr r.size = recordCodec.enc r

theorem populate_points (hv : ∀ r ∈ rs, r.data.length < 2 ^ 32)
    (h : bytesAt mem p (rs.flatMap recordCodec.enc).length = rs.flatMap recordCodec.enc) :
    List.Forall₂ (Points mem) (populate_record_array mem rs.length p) rs := by
  induction rs generalizing p with
  | nil => exact .nil
  | cons r rs ih =>
      rw [List.flatMap_cons, List.length_append, length_enc, bytesAt_add] at h
      obtain ⟨hr, hrest⟩ := List.append_inj h (by simp)
      have hsize : r.size = 4 + (4 + 4 * r.data.length) := by
        unfold Record.size
        omega
      have hkey := u32_eq_of_bytesAt (hsize ▸ hr : bytesAt mem p (4 + (4 + 4 * r.data.length)) = _)
      have hN := u32_eq_of_bytesAt hkey.2
      have hlen : (u32 mem (p + 4)).toNat = r.data.length := by
        rw [hN.1, BitVec.toNat_ofNat, Nat.mod_eq_of_lt (hv r List.mem_cons_self)]
      refine .cons ⟨hkey.1, hN.1, hr⟩ ?_
      have hnext : p + (8 + r.data.length * 4) = p + r.size := by
        unfold Record.size
        omega
      rw [hlen, hnext]
      exact ih (fun r' hr' => hv r' (List.mem_cons_of_mem r hr')) hrest

/-! ## Writing -/

/-- The `int` that a record's size becomes, and what `write` makes of it. -/
theorem write_size {n : ℕ} (hn : n < 2 ^ 32) (h4 : n % 4 = 0) :
    n < 2 ^ 31 ∧ (BitVec.ofNat 32 n).toInt = n ∧ write limit n = (min n limit : ℕ) ∨
      2 ^ 31 ≤ n ∧ (BitVec.ofNat 32 n).toInt ≠ -1 ∧
        write limit (BitVec.ofNat 32 n).toInt = -1 := by
  have htoInt : (BitVec.ofNat 32 n).toInt = if 2 * n < 2 ^ 32 then (n : ℤ) else n - 2 ^ 32 := by
    rw [BitVec.toInt_eq_toNat_cond, BitVec.toNat_ofNat, Nat.mod_eq_of_lt hn]
    rfl
  by_cases h : n < 2 ^ 31
  · refine .inl ⟨h, by rw [htoInt, if_pos (by omega)], ?_⟩
    have hmod : (n : ℤ) % 2 ^ 64 = n := by omega
    unfold write
    rw [hmod, if_pos (by omega)]
    omega
  · have hneg : (BitVec.ofNat 32 n).toInt = n - 2 ^ 32 := by rw [htoInt, if_neg (by omega)]
    refine .inr ⟨by omega, by omega, ?_⟩
    unfold write
    rw [hneg, if_neg (by omega)]

theorem write_records_spec {l : List RecDataptr} (h : List.Forall₂ (Points mem) l rs)
    (hv : ∀ r ∈ rs, r.size < 2 ^ 32) (out : List Byte) : ∃ ok X t,
      write_records limit mem l out = (ok, out ++ X) ∧ X ++ t = rs.flatMap recordCodec.enc ∧
        (ok = true ↔ ∀ r ∈ rs, r.size < 2 ^ 31 ∧ r.size ≤ limit) ∧ (ok = true ↔ t = []) := by
  induction h generalizing out with
  | nil => exact ⟨true, [], [], by simp [write_records], rfl, by simp, by simp⟩
  | @cons e r l rs he _ ih =>
      have hsize := hv r List.mem_cons_self
      have hint : e.data_ints.toNat * 4 + 8 = r.size := by
        rw [he.data_ints, BitVec.toNat_ofNat, Nat.mod_eq_of_lt]
        · unfold Record.size
          omega
        · unfold Record.size at hsize
          omega
      have hstop : ∀ n : ℕ, n < r.size → ∃ t, bytesAt mem e.data_ptr n ++ t =
          (r :: rs).flatMap recordCodec.enc ∧ t ≠ [] := by
        intro n hn
        obtain ⟨k, hk⟩ := Nat.exists_eq_add_of_lt hn
        have hb := he.bytes
        rw [show r.size = n + (k + 1) by omega, bytesAt_add] at hb
        refine ⟨bytesAt mem (e.data_ptr + n) (k + 1) ++ rs.flatMap recordCodec.enc, ?_, ?_⟩
        · rw [List.flatMap_cons, ← hb, List.append_assoc]
        · intro hnil
          have := congrArg List.length hnil
          simp at this
      unfold write_records
      simp only [hint]
      have h4 : r.size % 4 = 0 := by
        unfold Record.size
        omega
      rcases write_size hsize h4 with ⟨hlt, htoInt, hw⟩ | ⟨hge, hne, hw⟩
      · rw [htoInt, hw]
        by_cases hlim : r.size ≤ limit
        · rw [Nat.min_eq_left hlim, if_neg (not_not.mpr rfl), Int.toNat_natCast, he.bytes]
          obtain ⟨ok, X, t, hrun, hX, hok, ht⟩ :=
            ih (fun r' hr' => hv r' (List.mem_cons_of_mem r hr')) (out ++ recordCodec.enc r)
          refine ⟨ok, recordCodec.enc r ++ X, t, by rw [hrun, List.append_assoc], ?_, ?_, ht⟩
          · rw [List.append_assoc, hX, List.flatMap_cons]
          · rw [hok, List.forall_mem_cons]
            exact ⟨fun h => ⟨⟨hlt, hlim⟩, h⟩, fun h => h.2⟩
        · obtain ⟨t, ht, hne⟩ := hstop limit (by omega)
          rw [Nat.min_eq_right (by omega), if_pos (by omega), Int.toNat_natCast]
          refine ⟨false, _, t, rfl, ht, ?_, by simp [hne]⟩
          simp only [Bool.false_eq_true, false_iff]
          exact fun h => hlim (h r List.mem_cons_self).2
      · obtain ⟨t, ht, hnil⟩ := hstop 0 (by omega)
        rw [hw, if_pos (Ne.symm hne)]
        refine ⟨false, _, t, rfl, ht, ?_, by simp [hnil]⟩
        simp only [Bool.false_eq_true, false_iff]
        exact fun h => absurd (h r List.mem_cons_self).1 (by omega)

/-! ## Runs -/

theorem bytesAt_read {file : List Byte} {off count n : ℕ} {buf : ℕ → Byte}
    (hn : n ≤ min count limit) (hfile : n ≤ (file.drop off).length) :
    bytesAt (read limit file off count buf) 0 n = (file.drop off).take n := by
  apply List.ext_getElem
  · rw [length_bytesAt, List.length_take, Nat.min_eq_left hfile]
  · intro i h1 h2
    rw [length_bytesAt] at h1
    have hi : (file.drop off)[i]? = some (file.drop off)[i] := List.getElem?_eq_getElem (by omega)
    simp only [bytesAt, List.getElem_map, List.getElem_range, Nat.zero_add, List.getElem_take, read]
    rw [if_pos (by omega), hi, Option.getD_some]

theorem forall₂_key {l : List RecDataptr} (h : List.Forall₂ (Points mem) l rs) :
    l.map RecDataptr.key = rs.map Record.key := by
  induction h with
  | nil => rfl
  | cons he _ ih => rw [List.map_cons, List.map_cons, he.key, ih]

/-- What is written when the records lie in memory. -/
theorem write_sorted_spec (qsort : QSort comparator) (hlimit : 4 ≤ limit)
    (hv : ∀ r ∈ rs, r.size < 2 ^ 32)
    (hmem : bytesAt mem 0 (rs.flatMap recordCodec.enc).length = rs.flatMap recordCodec.enc)
    (R : BitVec 32) : ∃ (rs' : List Record) (ok : Bool) (X t : List Byte),
      rs'.Perm rs ∧ (rs'.Pairwise fun r r' => r.key.toNat ≤ r'.key.toNat) ∧
        write_sorted_data limit mem R (qsort.sort (populate_record_array mem rs.length 0)) =
          (ok, le32 R ++ X) ∧ X ++ t = rs'.flatMap recordCodec.enc ∧
        (ok = true ↔ ∀ r ∈ rs, r.size < 2 ^ 31 ∧ r.size ≤ limit) ∧ (ok = true ↔ t = []) := by
  have hlen : ∀ r ∈ rs, r.data.length < 2 ^ 32 := by
    intro r hr
    have := hv r hr
    unfold Record.size at this
    omega
  have hpoints := populate_points hlen hmem
  obtain ⟨rs', hpoints', hperm⟩ := List.perm_comp_forall₂ (qsort.perm _) hpoints
  have hsorted : rs'.Pairwise fun r r' => r.key.toNat ≤ r'.key.toNat := by
    have hchain := (qsort.sorted (populate_record_array mem rs.length 0)).imp
      (S := fun a b => a.key.toNat ≤ b.key.toNat) fun a b hab => by
        unfold comparator at hab
        split at hab <;> omega
    have htrans : IsTrans RecDataptr fun a b => a.key.toNat ≤ b.key.toNat :=
      ⟨fun _ _ _ => Nat.le_trans⟩
    have hpair := List.isChain_iff_pairwise.mp hchain
    have hmap := forall₂_key hpoints'
    rw [← List.pairwise_map (f := RecDataptr.key) (R := fun k k' => k.toNat ≤ k'.toNat), hmap] at hpair
    exact (List.pairwise_map (f := Record.key) (R := fun k k' => k.toNat ≤ k'.toNat)).mp hpair
  have hfour : (write limit 4).toNat = 4 := by
    unfold write
    rw [if_pos (by omega)]
    omega
  obtain ⟨ok, X, t, hrun, hX, hok, ht⟩ := write_records_spec hpoints'
    (fun r hr => hv r (hperm.subset hr)) (le32 R)
  refine ⟨rs', ok, X, t, hperm, hsorted, ?_, hX, ?_, ht⟩
  · unfold write_sorted_data
    rw [hfour]
    exact hrun
  · rw [hok]
    exact ⟨fun h r hr => h r (hperm.symm.subset hr), fun h r hr => h r (hperm.subset hr)⟩

/-- The data that `main` sorts. -/
def loaded (limit : ℕ) (heap : ℕ → Byte) (file : List Byte) : ℕ → Byte :=
  read limit file 4 (file.length - 4) heap

/-- With the sizes that the claim allows no 32-bit sum wraps. -/
theorem main_eq {file : List Byte} (qsort : QSort comparator) (stack heap : ℕ → Byte)
    (hlimit : 4 ≤ limit) (hfile : decode file = some rs) (hR : rs.length < 2 ^ 31)
    (hsize : rs.length * 16 + file.length < 2 ^ 32) :
    main limit qsort stack heap file =
      let res := write_sorted_data limit (loaded limit heap file) (.ofNat 32 rs.length)
        (qsort.sort (populate_record_array (loaded limit heap file) rs.length 0))
      some (if res.1 then 0 else 1, res.2) := by
  obtain ⟨hlen, -, hbytes⟩ := decode_eq_some.mp hfile
  have h4 : 4 ≤ file.length := by
    rw [hbytes, List.length_append, length_le32]
    omega
  have hcount : u32 (read limit file 0 4 stack) 0 = .ofNat 32 rs.length := by
    apply le32_inj
    rw [le32_u32, bytesAt_read (by omega) (by simpa using h4), List.drop_zero, hbytes,
      List.take_left' (length_le32 _)]
  have htoNat : (BitVec.ofNat 32 rs.length).toNat = rs.length := by
    rw [BitVec.toNat_ofNat, Nat.mod_eq_of_lt hlen]
  have hdata : (file.length % 2 ^ 32 + 2 ^ 32 - 4) % 2 ^ 32 = file.length - 4 := by omega
  have hrarray : rs.length * 16 % 2 ^ 32 = rs.length * 16 := by omega
  have htotal : (rs.length * 16 + (file.length - 4)) % 2 ^ 32 =
      rs.length * 16 + (file.length - 4) := by omega
  simp only [main, hcount, htoNat, allocate_memory, hdata, hrarray, htotal, Nat.min_eq_left hlimit]
  rw [if_pos ⟨hR, trivial, trivial⟩]
  rfl

/-- When the records `rs` lie in the memory that is sorted, the output is right for them only, and
only when each of them can be written. -/
theorem sorted_loaded_iff {file : List Byte} {rs₀ : List Record} (qsort : QSort comparator)
    (stack heap : ℕ → Byte) (hlimit : 4 ≤ limit) (hfile : decode file = some rs₀)
    (hR : rs₀.length < 2 ^ 31) (hsize : rs₀.length * 16 + file.length < 2 ^ 32)
    (hlen : rs.length = rs₀.length) (hv : ∀ r ∈ rs, r.size < 2 ^ 32)
    (hmem : bytesAt (loaded limit heap file) 0 (rs.flatMap recordCodec.enc).length =
      rs.flatMap recordCodec.enc) :
    (∃ status out, main limit qsort stack heap file = some (status, out) ∧ Sorted rs₀ out) ↔
      rs.Perm rs₀ ∧ ∀ r ∈ rs, r.size < 2 ^ 31 ∧ r.size ≤ limit := by
  obtain ⟨rs', ok, X, t, hperm, hsorted, hrun, hX, hok, ht⟩ :=
    write_sorted_spec qsort hlimit hv hmem (.ofNat 32 rs.length)
  have hmain := main_eq qsort stack heap hlimit hfile hR hsize
  rw [← hlen, hrun] at hmain
  have hlen' : ∀ r ∈ rs', r.data.length < 2 ^ 32 := by
    intro r hr
    have := hv r (hperm.subset hr)
    unfold Record.size at this
    omega
  constructor
  · rintro ⟨status, out, hout, ⟨ws, hdecode, hwslen, hwsperm, -⟩⟩
    rw [hmain] at hout
    obtain ⟨-, rfl⟩ := Prod.mk.inj (Option.some.inj hout)
    obtain ⟨-, hwv, hbytes⟩ := decode_eq_some.mp hdecode
    rw [hwslen, ← hlen] at hbytes
    have hXws : X = ws.flatMap recordCodec.enc := List.append_cancel_left hbytes
    obtain ⟨rfl, rfl⟩ := recordCodec.flatMap_inj (l := t) (m := []) hwv hlen'
      (by rw [hwslen, ← hlen, hperm.length_eq]) (by rw [← hXws, hX, List.append_nil])
    exact ⟨hperm.symm.trans hwsperm, hok.mp (ht.mpr rfl)⟩
  · rintro ⟨hrs, hall⟩
    obtain rfl := ht.mp (hok.mpr hall)
    refine ⟨_, _, hmain, ⟨rs', ?_, ?_, hperm.trans hrs, hsorted⟩⟩
    · rw [List.append_nil] at hX
      rw [decode_eq_some, hX, hperm.length_eq]
      exact ⟨by omega, hlen', rfl⟩
    · rw [hperm.length_eq, hlen]

/-! ## Short reads -/

/-- A record that is written like `r` up to its last byte. -/
theorem exists_altered (hr : r.size < 2 ^ 32) : ∃ r', r' ≠ r ∧ r'.size < 2 ^ 32 ∧
    (recordCodec.enc r').take (r.size - 1) = (recordCodec.enc r).take (r.size - 1) := by
  obtain ⟨key, data⟩ := r
  rcases List.eq_nil_or_concat data with rfl | ⟨d, w, rfl⟩
  · -- the last byte is the high one of the count, which becomes `2 ^ 29`
    refine ⟨⟨key, List.replicate (2 ^ 29) 0⟩, ?_, ?_, ?_⟩
    · intro h
      have := congrArg List.length (congrArg Record.data h)
      rw [List.length_replicate] at this
      exact absurd this (by simp)
    · simp only [Record.size, List.length_replicate]
      omega
    · simp only [recordCodec, List.length_replicate]
      rfl
  · simp only [List.concat_eq_append] at hr ⊢
    refine ⟨⟨key, d ++ [w ^^^ 0x80000000#32]⟩, ?_, ?_, ?_⟩
    · intro h
      have hw := List.append_cancel_left (congrArg Record.data h)
      have hbit := congrArg (fun v : BitVec 32 => v.getLsbD 31) (List.cons.inj hw).1
      simp at hbit
    · simpa [Record.size] using hr
    · have hthree : (le32 (w ^^^ 0x80000000#32)).take 3 = (le32 w).take 3 := by
        have hxor : ∀ k, (0x80000000#32).extractLsb' k 8 = 0#8 →
            (w ^^^ 0x80000000#32).extractLsb' k 8 = w.extractLsb' k 8 := by
          intro k hk
          rw [BitVec.extractLsb'_xor, hk, BitVec.xor_zero]
        simp only [le32, List.take_succ_cons, List.take_zero]
        rw [hxor 0 (by decide), hxor 8 (by decide), hxor 16 (by decide)]
      have henc : ∀ v, recordCodec.enc ⟨key, d ++ [v]⟩ = (le32 key ++
          (le32 (.ofNat 32 (d.length + 1)) ++ d.flatMap le32)) ++ le32 v := by
        intro v
        simp [recordCodec]
      have hlen : Record.size ⟨key, d ++ [w]⟩ - 1 = (le32 key ++
          (le32 (.ofNat 32 (d.length + 1)) ++ d.flatMap le32)).length + 3 := by
        simp only [Record.size, List.length_append, length_le32, length_flatMap_le32,
          List.length_singleton]
        omega
      rw [henc, henc, hlen, List.take_length_add_append, List.take_length_add_append, hthree]

theorem size_le_flatMap (h : r ∈ rs) : r.size ≤ (rs.flatMap recordCodec.enc).length := by
  rw [← length_enc r]
  exact List.Sublist.length_le (List.sublist_flatten_of_mem (List.mem_map_of_mem h))

/-- A file whose data one `read` does not get as a whole is sorted wrong for some contents of the
heap: the last record is not the one that was read. -/
theorem exists_heap_wrong {file : List Byte} (qsort : QSort comparator) (stack : ℕ → Byte)
    (hlimit : 4 ≤ limit) (hfile : decode file = some rs) (hR : rs.length < 2 ^ 31)
    (hsize : rs.length * 16 + file.length < 2 ^ 32) (hshort : limit < file.length - 4) :
    ∃ heap, ¬ ∃ status out, main limit qsort stack heap file = some (status, out) ∧ Sorted rs out := by
  obtain ⟨-, hlen, hbytes⟩ := decode_eq_some.mp hfile
  have hbody : file.drop 4 = rs.flatMap recordCodec.enc := by
    rw [hbytes, List.drop_left' (length_le32 _)]
  have hbodylen : (rs.flatMap recordCodec.enc).length = file.length - 4 := by
    rw [← hbody, List.length_drop]
  rcases List.eq_nil_or_concat rs with rfl | ⟨init, r, rfl⟩
  · simp only [List.flatMap_nil, List.length_nil] at hbodylen
    omega
  simp only [List.concat_eq_append] at *
  have hle : ∀ r' ∈ init ++ [r], r'.size < 2 ^ 32 := by
    intro r' hr'
    have := size_le_flatMap hr'
    omega
  obtain ⟨r', hne, hr', htake⟩ := exists_altered (hle r (by simp))
  have hrsize : 8 ≤ r.size := by
    unfold Record.size
    omega
  -- the two lists of records are written alike up to the last byte
  have hsame : ∀ a, a < limit → ((init ++ [r']).flatMap recordCodec.enc)[a]? =
      ((init ++ [r]).flatMap recordCodec.enc)[a]? := by
    intro a ha
    rw [← hbodylen, List.flatMap_append, List.length_append] at hshort
    simp only [List.flatMap_append, List.flatMap_singleton] at hshort ⊢
    rw [length_enc] at hshort
    by_cases hinit : a < (init.flatMap recordCodec.enc).length
    · rw [List.getElem?_append_left hinit, List.getElem?_append_left hinit]
    · rw [List.getElem?_append_right (by omega), List.getElem?_append_right (by omega)]
      have hlast : a - (init.flatMap recordCodec.enc).length < r.size - 1 := by omega
      rw [← List.getElem?_take_of_lt hlast, htake, List.getElem?_take_of_lt hlast]
  refine ⟨fun a => ((init ++ [r']).flatMap recordCodec.enc)[a]?.getD 0, ?_⟩
  have hcount : (init ++ [r']).length = (init ++ [r]).length := by simp
  rw [sorted_loaded_iff qsort stack _ hlimit hfile hR hsize hcount]
  · rintro ⟨hperm, -⟩
    have := (List.perm_append_left_iff init).mp hperm
    exact hne (List.singleton_perm_singleton.mp this)
  · intro q hq
    rcases List.mem_append.mp hq with hq | hq
    · exact hle q (List.mem_append_left _ hq)
    · exact List.mem_singleton.mp hq ▸ hr'
  · apply List.ext_getElem?
    intro a
    by_cases ha : a < ((init ++ [r']).flatMap recordCodec.enc).length
    · rw [List.getElem?_eq_getElem (by simpa using ha), List.getElem?_eq_getElem ha]
      simp only [bytesAt, List.getElem_map, List.getElem_range, Nat.zero_add, loaded, read, hbody]
      rw [Nat.min_eq_right (by omega)]
      split
      · next hlt => rw [← hsame a hlt, List.getElem?_eq_getElem ha, Option.getD_some]
      · rw [List.getElem?_eq_getElem ha, Option.getD_some]
    · rw [List.getElem?_eq_none (by simpa using ha), List.getElem?_eq_none (by omega)]

/-- When one `read` gets the data as a whole. -/
theorem sorted_whole_iff {file : List Byte} (qsort : QSort comparator) (stack heap : ℕ → Byte)
    (hlimit : 4 ≤ limit) (hfile : decode file = some rs) (hR : rs.length < 2 ^ 31)
    (hsize : rs.length * 16 + file.length < 2 ^ 32) (hwhole : file.length - 4 ≤ limit) :
    (∃ status out, main limit qsort stack heap file = some (status, out) ∧ Sorted rs out) ↔
      ∀ r ∈ rs, r.size < 2 ^ 31 := by
  obtain ⟨-, hlen, hbytes⟩ := decode_eq_some.mp hfile
  have hbody : file.drop 4 = rs.flatMap recordCodec.enc := by
    rw [hbytes, List.drop_left' (length_le32 _)]
  have hbodylen : (rs.flatMap recordCodec.enc).length = file.length - 4 := by
    rw [← hbody, List.length_drop]
  have hle : ∀ r ∈ rs, r.size ≤ file.length - 4 := fun r hr => hbodylen ▸ size_le_flatMap hr
  rw [sorted_loaded_iff qsort stack heap hlimit hfile hR hsize rfl]
  · constructor
    · exact fun h r hr => (h.2 r hr).1
    · exact fun h => ⟨.refl rs, fun r hr => ⟨h r hr, (hle r hr).trans hwhole⟩⟩
  · intro r hr
    have := hle r hr
    omega
  · unfold loaded
    rw [bytesAt_read (by omega) (by rw [hbody]), hbody, List.take_length]

/-- `varsort` writes the records of every well-formed file in order, whatever the heap holds,
exactly when one `read` gets the data as a whole and the size of every record fits an `int`. -/
theorem sorts_iff {file : List Byte} (qsort : QSort comparator) (stack : ℕ → Byte)
    (hlimit : 4 ≤ limit) (hfile : decode file = some rs) (hR : rs.length < 2 ^ 31)
    (hsize : rs.length * 16 + file.length < 2 ^ 32) :
    (∀ heap, ∃ status out, main limit qsort stack heap file = some (status, out) ∧ Sorted rs out) ↔
      file.length - 4 ≤ limit ∧ ∀ r ∈ rs, r.size < 2 ^ 31 := by
  by_cases hwhole : file.length - 4 ≤ limit
  · simp only [sorted_whole_iff qsort stack _ hlimit hfile hR hsize hwhole, hwhole, true_and,
      forall_const]
  · obtain ⟨heap, hwrong⟩ :=
      exists_heap_wrong qsort stack hlimit hfile hR hsize (Nat.lt_of_not_le hwhole)
    exact iff_of_false (fun h => hwrong (h heap)) fun h => hwhole h.1

/-- A sort that keeps what is asked of `qsort`. -/
def insertionSort : QSort comparator where
  sort := List.insertionSort fun a b => a.key.toNat ≤ b.key.toNat
  perm := List.perm_insertionSort _
  sorted := by
    intro base
    have htotal : Std.Total fun a b : RecDataptr => a.key.toNat ≤ b.key.toNat :=
      ⟨fun _ _ => Nat.le_total _ _⟩
    have htrans : IsTrans RecDataptr fun a b => a.key.toNat ≤ b.key.toNat :=
      ⟨fun _ _ _ => Nat.le_trans⟩
    refine (List.isChain_iff_pairwise.mpr (List.pairwise_insertionSort _ base)).imp ?_
    intro a b hab
    unfold comparator
    rw [if_neg (Nat.not_lt.mpr hab)]
    exact Int.lt_irrefl 0

/-- A record of two words, and one of none before it in the order of keys. -/
def twoRecords : List Record := [⟨7, [1, 2]⟩, ⟨3, []⟩]

def encode (rs : List Record) : List Byte := le32 (.ofNat 32 rs.length) ++ rs.flatMap recordCodec.enc

theorem twoRecords_sorted : decode (encode twoRecords) = some twoRecords ∧
    ∀ heap, ∃ status out, main 0x7ffff000 insertionSort (fun _ => 0) heap
      (encode twoRecords) = some (status, out) ∧ Sorted twoRecords out := by
  have hdecode : decode (encode twoRecords) = some twoRecords :=
    decode_eq_some.mpr ⟨by decide, by decide, rfl⟩
  exact ⟨hdecode, (sorts_iff insertionSort _ (by decide) hdecode (by decide) (by decide)).mpr
    ⟨by decide, by decide⟩⟩

/-- One record of `N` words. -/
def longRecord (N : ℕ) : List Record := [⟨0, List.replicate N 0⟩]

theorem longRecord_encoded {N : ℕ} (hN : N < 2 ^ 32) :
    decode (encode (longRecord N)) = some (longRecord N) ∧
      (encode (longRecord N)).length = 12 + 4 * N ∧ ∀ r ∈ longRecord N, r.size = 8 + 4 * N := by
  have hsize : ∀ r ∈ longRecord N, r.size = 8 + 4 * N := by
    intro r hr
    rw [List.mem_singleton.mp hr, Record.size, List.length_replicate]
  refine ⟨decode_eq_some.mpr ⟨Nat.one_lt_two_pow (by omega), fun r hr => ?_, rfl⟩, ?_, hsize⟩
  · have := hsize r hr
    unfold Record.size at this
    omega
  · rw [encode, List.length_append, length_le32, longRecord, List.flatMap_singleton, length_enc,
      hsize _ (List.mem_singleton.mpr rfl)]
    omega

/-- On Linux a file with a record of `2 ^ 29` words is not read as a whole, and where it is the
record is too long for an `int`. -/
theorem longRecord_fails : decode (encode (longRecord (2 ^ 29))) = some (longRecord (2 ^ 29)) ∧
    (longRecord (2 ^ 29)).length * 16 + (encode (longRecord (2 ^ 29))).length < 2 ^ 32 ∧
    (∃ heap, ¬ ∃ status out, main 0x7ffff000 insertionSort (fun _ => 0) heap
      (encode (longRecord (2 ^ 29))) = some (status, out) ∧ Sorted (longRecord (2 ^ 29)) out) ∧
    ∀ heap, ¬ ∃ status out, main (2 ^ 63) insertionSort (fun _ => 0) heap
      (encode (longRecord (2 ^ 29))) = some (status, out) ∧ Sorted (longRecord (2 ^ 29)) out := by
  obtain ⟨N, hN⟩ : ∃ N, N = 2 ^ 29 := ⟨_, rfl⟩
  rw [← hN]
  obtain ⟨hdecode, hlen, hsize⟩ := longRecord_encoded (N := N) (by omega)
  have hone : (longRecord N).length = 1 := rfl
  have hR : (longRecord N).length < 2 ^ 31 := by omega
  have hfits : (longRecord N).length * 16 + (encode (longRecord N)).length < 2 ^ 32 := by omega
  refine ⟨hdecode, hfits, ?_, fun heap => ?_⟩
  · exact exists_heap_wrong insertionSort _ (by omega) hdecode hR hfits (by omega)
  · rw [sorted_whole_iff insertionSort _ heap (by omega) hdecode hR hfits (by omega)]
    intro h
    have hmem : ⟨0, List.replicate N 0⟩ ∈ longRecord N := List.mem_singleton.mpr rfl
    have hlt := h _ hmem
    rw [hsize _ hmem] at hlt
    omega

end

end IntroToOS.Varsort

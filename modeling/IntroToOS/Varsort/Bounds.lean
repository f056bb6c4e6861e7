import IntroToOS.Lib.Memory
import IntroToOS.Varsort.Sort

/-! # The accesses of varsort to its block

Translated from `Project1a/varsort.c`, with the block that `malloc` returns at the address `base`
of a memory of bytes. `populate_record_array` and `write_sorted_data` list their accesses through
`rarray`, the record pointer and `data_ptr`. `qsort` is given a comparator that is not one, so its
result may be any order of the array; where the array is larger than the block its result may be
anything. The numbers that `write` returns are arbitrary, but it moves no more than `limit` bytes
and nothing for a negative size. Reading succeeds, and so does `malloc`; else the program exits.
-/

namespace IntroToOS.Varsort.Bounds
open Lib
set_option autoImplicit false

/-- The loop of `populate_record_array` from `i` on, and its accesses. -/
def populate_record_array (rarray : ℕ) : ℕ → ℕ → ℕ → Mem → Mem × List (ℕ × ℕ)
  | 0, _, _, mem => (mem, [])
  | n + 1, i, cur_rec_ptr, mem =>
    let mem := storeAt mem (rarray + 16 * i) (bytesAt mem cur_rec_ptr 16)
    let mem := storeAt mem (rarray + 16 * i + 8) (le64 cur_rec_ptr)
    let rest := populate_record_array rarray n (i + 1)
      (cur_rec_ptr + (8 + (u32 mem (cur_rec_ptr + 4)).toNat * 4)) mem
    (rest.1, (cur_rec_ptr, 16) :: (rarray + 16 * i, 16) :: (rarray + 16 * i + 8, 8) ::
      (cur_rec_ptr + 4, 4) :: rest.2)

/-- The length in bytes, an `int`, of a record with `data_ints` words. -/
def recordSize (data_ints : BitVec 32) : ℤ := (BitVec.ofNat 32 (data_ints.toNat * 4 + 8)).toInt

/-- The loop of `write_sorted_data` from `i` on; `result i` is what the `i`th `write` returns. -/
def write_sorted_data (limit rarray : ℕ) (mem : Mem) (result : ℕ → ℤ) : ℕ → ℕ → List (ℕ × ℕ)
  | 0, _ => []
  | n + 1, i =>
    let size := recordSize (u32 mem (rarray + 16 * i + 4))
    (rarray + 16 * i + 4, 4) :: (rarray + 16 * i + 8, 8) ::
      (u64 mem (rarray + 16 * i + 8), (min size limit).toNat) ::
      if result i = size then write_sorted_data limit rarray mem result n (i + 1) else []

/-- `mem'` may be the memory after `qsort` on `R` elements at `base`. -/
def Qsort (base R size : ℕ) (mem mem' : Mem) : Prop :=
  16 * R ≤ size → (∀ x, x < base ∨ base + 16 * R ≤ x → mem' x = mem x) ∧
    ∃ σ : Equiv.Perm (Fin R), ∀ i : Fin R,
      bytesAt mem' (base + 16 * i) 16 = bytesAt mem (base + 16 * σ i) 16

section
variable (limit : ℕ) (stack heap : Mem) (base : ℕ) (file : List Byte)

/-- `file->R` -/
def count : ℕ := (u32 (read limit file 0 4 stack) 0).toNat

def memData : MemData := allocate_memory (file.length % 2 ^ 32) (count limit stack file)

/-- The bytes from `mem_data->data` on, after the second `read`. -/
def records : Mem :=
  read limit file (min 4 limit) (memData limit stack file).data_size fun a =>
    heap (base + (memData limit stack file).rarray_size + a)

/-- The memory after the second `read`. -/
def readData : Mem := fun x =>
  if base + (memData limit stack file).rarray_size ≤ x then
    records limit stack heap base file (x - (base + (memData limit stack file).rarray_size))
  else heap x

/-- The memory after `populate_record_array`, and its accesses. The loop is on an `int`. -/
def populated : Mem × List (ℕ × ℕ) :=
  populate_record_array base (if count limit stack file < 2 ^ 31 then count limit stack file else 0) 0
    (base + (memData limit stack file).rarray_size) (readData limit stack heap base file)

/-- All accesses stay in the block, whatever `qsort` and `write` do. -/
def InBounds : Prop :=
  ∀ mem' result, Qsort base (count limit stack file) (memData limit stack file).total_size
      (populated limit stack heap base file).1 mem' →
    ∀ a ∈ (populated limit stack heap base file).2 ++
        write_sorted_data limit base mem' result (count limit stack file) 0,
      Inside base (memData limit stack file).total_size a

end

/-- Where the `i`th record starts in the data. -/
def start (data : Mem) : ℕ → ℕ
  | 0 => 0
  | i + 1 => start data i + (8 + (u32 data (start data i + 4)).toNat * 4)

/-! ## The two loops -/

section
variable {rarray base limit n i j R size : ℕ} {mem mem' data : Mem} {result : ℕ → ℤ} {a : ℕ × ℕ}

/-- Every element of the array is written, wherever it lies. -/
theorem mem_populate_of_lt (cur_rec_ptr : ℕ) (hi : i ≤ j) (hj : j < i + n) :
    (rarray + 16 * j, 16) ∈ (populate_record_array rarray n i cur_rec_ptr mem).2 := by
  induction n generalizing i cur_rec_ptr mem with
  | zero => omega
  | succ n ih =>
      rw [populate_record_array]
      by_cases hij : i = j
      · subst hij
        simp
      · simp only [List.mem_cons]
        exact .inr (.inr (.inr (.inr (ih _ (by omega) (by omega)))))

/-- The accesses for the `j`th record, which starts at `p`. -/
def recordAccesses (rarray j p : ℕ) : List (ℕ × ℕ) :=
  [(p, 16), (rarray + 16 * j, 16), (rarray + 16 * j + 8, 8), (p + 4, 4)]

/-- With the array before the data, the loop leaves in each element the length of its record and
its address, and makes four accesses for it. -/
theorem populate_spec {base₀ : ℕ} (rarray n i : ℕ) (hdata : ∀ a, mem (base₀ + a) = data a)
    (hapart : rarray + 16 * (i + n) ≤ base₀) :
    let res := populate_record_array rarray n i (base₀ + start data i) mem
    (∀ x, x < rarray + 16 * i ∨ rarray + 16 * (i + n) ≤ x → res.1 x = mem x) ∧
      (∀ j, i ≤ j → j < i + n → u32 res.1 (rarray + 16 * j + 4) = u32 data (start data j + 4) ∧
        u64 res.1 (rarray + 16 * j + 8) = (base₀ + start data j) % 2 ^ 64) ∧
      ∀ a, a ∈ res.2 ↔ ∃ j, i ≤ j ∧ j < i + n ∧ a ∈ recordAccesses rarray j (base₀ + start data j) := by
  induction n generalizing i mem with
  | zero =>
      refine ⟨fun x _ => rfl, fun j hi hj => absurd hj (by omega), fun a => ?_⟩
      rw [populate_record_array]
      constructor
      · intro ha
        cases ha
      · rintro ⟨j, hi, hj, -⟩
        omega
  | succ n ih =>
      -- the memory after the turn: the element is written, the rest is as it was
      obtain ⟨mem₁, hmem₁⟩ : ∃ mem₁, mem₁ = storeAt (storeAt mem (rarray + 16 * i)
        (bytesAt mem (base₀ + start data i) 16)) (rarray + 16 * i + 8)
        (le64 (base₀ + start data i)) := ⟨_, rfl⟩
      have hlow : ∀ x, x < rarray + 16 * i + 8 → mem₁ x = storeAt mem (rarray + 16 * i)
          (bytesAt mem (base₀ + start data i) 16) x := by
        intro x hx
        rw [hmem₁]
        exact storeAt_other _ (.inl hx)
      have hother : ∀ x, x < rarray + 16 * i ∨ rarray + 16 * i + 16 ≤ x → mem₁ x = mem x := by
        intro x hx
        rw [hmem₁, storeAt_other, storeAt_other]
        · rw [length_bytesAt]
          exact hx
        · rw [length_le64]
          omega
      have hdata₁ : ∀ a, mem₁ (base₀ + a) = data a := by
        intro a
        rw [hother _ (by omega), hdata]
      have hints : u32 mem₁ (rarray + 16 * i + 4) = u32 data (start data i + 4) := by
        apply u32_congr
        intro k hk
        have hcopy := getElem?_bytesAt mem (base₀ + start data i) (show 4 + k < 16 by omega)
        rw [hlow _ (by omega), Nat.add_assoc (rarray + 16 * i), storeAt_same _ _ hcopy,
          Nat.add_assoc base₀, hdata, Nat.add_assoc]
      have hptr : u64 mem₁ (rarray + 16 * i + 8) = (base₀ + start data i) % 2 ^ 64 := by
        rw [hmem₁]
        exact u64_storeAt ..
      have hnext : base₀ + start data i + (8 + (u32 mem₁ (base₀ + start data i + 4)).toNat * 4) =
          base₀ + start data (i + 1) := by
        have hcur : u32 mem₁ (base₀ + start data i + 4) = u32 data (start data i + 4) := by
          apply u32_congr
          intro k _
          rw [Nat.add_assoc base₀, Nat.add_assoc base₀, hdata₁]
        rw [hcur, start]
        omega
      obtain ⟨hframe, helem, haccess⟩ := ih (i := i + 1) hdata₁ (by omega)
      rw [populate_record_array]
      dsimp only
      rw [← hmem₁, hnext]
      refine ⟨fun x hx => ?_, fun j hi hj => ?_, fun a => ?_⟩
      · rw [hframe x (by omega), hother x (by omega)]
      · by_cases hij : i = j
        · subst hij
          rw [← hints, ← hptr]
          refine ⟨u32_congr fun k hk => ?_, u64_congr fun k hk => ?_⟩
          · exact hframe _ (by omega)
          · exact hframe _ (by omega)
        · exact helem j (by omega) (by omega)
      · simp only [List.mem_cons, haccess]
        constructor
        · rintro (ha | ha | ha | ha | ⟨j, hi, hj, ha⟩)
          · exact ⟨i, le_refl i, by omega, by simp [recordAccesses, ha]⟩
          · exact ⟨i, le_refl i, by omega, by simp [recordAccesses, ha]⟩
          · exact ⟨i, le_refl i, by omega, by simp [recordAccesses, ha]⟩
          · exact ⟨i, le_refl i, by omega, by simp [recordAccesses, ha]⟩
          · exact ⟨j, by omega, by omega, ha⟩
        · rintro ⟨j, hi, hj, ha⟩
          by_cases hij : i = j
          · subst hij
            simp only [recordAccesses, List.mem_cons, List.not_mem_nil, or_false] at ha
            tauto
          · exact .inr (.inr (.inr (.inr ⟨j, by omega, by omega, ha⟩)))

/-- The accesses of the loop that writes are those for some element. -/
theorem mem_write (h : a ∈ write_sorted_data limit rarray mem result n i) :
    ∃ j, i ≤ j ∧ j < i + n ∧ (a = (rarray + 16 * j + 4, 4) ∨ a = (rarray + 16 * j + 8, 8) ∨
      a = (u64 mem (rarray + 16 * j + 8),
        (min (recordSize (u32 mem (rarray + 16 * j + 4))) limit).toNat)) := by
  induction n generalizing i with
  | zero => cases h
  | succ n ih =>
      rw [write_sorted_data] at h
      simp only [List.mem_cons] at h
      obtain h | h | h | h := h
      · exact ⟨i, le_refl i, by omega, .inl h⟩
      · exact ⟨i, le_refl i, by omega, .inr (.inl h)⟩
      · exact ⟨i, le_refl i, by omega, .inr (.inr h)⟩
      · by_cases hresult : result i = recordSize (u32 mem (rarray + 16 * i + 4))
        · rw [if_pos hresult] at h
          obtain ⟨j, hi, hj, ha⟩ := ih h
          exact ⟨j, by omega, by omega, ha⟩
        · rw [if_neg hresult] at h
          cases h

/-- `qsort` may leave the array in any order. -/
theorem exists_qsort (base size : ℕ) (mem : Mem) (σ : Equiv.Perm (Fin R)) : ∃ mem', Qsort base R size mem mem' ∧
    ∀ i : Fin R, bytesAt mem' (base + 16 * i) 16 = bytesAt mem (base + 16 * σ i) 16 := by
  let mem' : Mem := fun x =>
    if h : base ≤ x ∧ x < base + 16 * R then
      mem (base + 16 * σ ⟨(x - base) / 16, by omega⟩ + (x - base) % 16)
    else mem x
  have hmem' : ∀ i : Fin R, bytesAt mem' (base + 16 * i) 16 = bytesAt mem (base + 16 * σ i) 16 := by
    intro i
    apply bytesAt_congr
    intro k hk
    have hi := i.isLt
    have hdiv : (base + 16 * ↑i + k - base) / 16 = ↑i := by omega
    have hmod : (base + 16 * ↑i + k - base) % 16 = k := by omega
    dsimp only [mem']
    rw [dif_pos ⟨by omega, by omega⟩, hmod]
    have hfin : (⟨(base + 16 * ↑i + k - base) / 16, by omega⟩ : Fin R) = i := Fin.ext hdiv
    rw [hfin]
  refine ⟨mem', fun _ => ⟨fun x hx => ?_, σ, hmem'⟩, hmem'⟩
  exact dif_neg (by omega)

end

/-! ## When all accesses stay in the block -/

section
variable {limit base i : ℕ} {stack heap : Mem} {file : List Byte}

theorem memData_eq (h : count limit stack file * 16 + (memData limit stack file).data_size < 2 ^ 32) :
    (memData limit stack file).rarray_size = 16 * count limit stack file ∧
      (memData limit stack file).total_size =
        16 * count limit stack file + (memData limit stack file).data_size := by
  simp only [memData, allocate_memory] at h ⊢
  omega

/-- With no sum that wraps, the data begins where the array ends. -/
theorem readData_records (heap : Mem) (base : ℕ) (hfit : (memData limit stack file).rarray_size = 16 * count limit stack file)
    (a : ℕ) : readData limit stack heap base file (base + 16 * count limit stack file + a) =
      records limit stack heap base file a := by
  rw [readData, hfit, if_pos (Nat.le_add_right ..), Nat.add_sub_cancel_left]

/-- The array fits into the block when all of it can be written. -/
theorem fits_of_inBounds (hbase : 0 < base) (hlimit : 4 ≤ limit)
    (h : InBounds limit stack heap base file) (hR : count limit stack file ≠ 0) :
    count limit stack file * 16 + (memData limit stack file).data_size < 2 ^ 32 := by
  obtain ⟨R, hcount⟩ : ∃ R, R = count limit stack file := ⟨_, rfl⟩
  have htotal : (memData limit stack file).total_size < 2 ^ 32 := Nat.mod_lt _ (by decide)
  rw [← hcount] at hR ⊢
  by_cases hint : R < 2 ^ 31
  · obtain ⟨mem', hqsort, -⟩ := exists_qsort base
      (memData limit stack file).total_size (populated limit stack heap base file).1
      (Equiv.refl (Fin (count limit stack file)))
    have hlast := h mem' (fun _ => 0) hqsort (base + 16 * (R - 1), 16) (List.mem_append_left _ (by
      rw [populated, if_pos (hcount ▸ hint), ← hcount]
      exact mem_populate_of_lt _ (Nat.zero_le _) (by omega)))
    rw [inside_iff (by omega)] at hlast
    have hwrap : ∀ R size, R ≠ 0 → 16 * R ≤ (allocate_memory size R).total_size →
        R * 16 + (allocate_memory size R).data_size < 2 ^ 32 := by
      intro R size _ hle
      simp only [allocate_memory] at hle ⊢
      omega
    rw [hcount]
    rw [hcount] at hR hlast
    exact hwrap _ _ hR (by unfold memData at hlast; omega)
  · -- the array is larger than any block, so `qsort` may leave a null `data_ptr`
    obtain ⟨zero, hzero⟩ : ∃ zero : Mem, ∀ p, u32 zero p = 0 :=
      ⟨fun _ => 0, fun p => u32_congr (g := fun _ => 0) (y := 0) fun _ _ => rfl⟩
    have hqsort : Qsort base (count limit stack file) (memData limit stack file).total_size
        (populated limit stack heap base file).1 zero := fun hle => absurd hle (by omega)
    obtain ⟨n, hn⟩ : ∃ n, count limit stack file = n + 1 := ⟨R - 1, by omega⟩
    have hptr : u64 zero (base + 16 * 0 + 8) = 0 := by simp [u64, hzero]
    have hsize : recordSize 0 = 8 := by decide
    have hnull := h _ (fun _ => 0) hqsort (0, (min 8 (limit : ℤ)).toNat) (List.mem_append_right _ (by
      rw [hn, write_sorted_data, hzero, hptr, hsize]
      simp))
    rw [inside_iff (by omega)] at hnull
    omega

theorem populated_spec (heap : Mem) (base : ℕ) (hfit : count limit stack file * 16 + (memData limit stack file).data_size < 2 ^ 32) :
    (∀ j < count limit stack file,
      u32 (populated limit stack heap base file).1 (base + 16 * j + 4) =
          u32 (records limit stack heap base file) (start (records limit stack heap base file) j + 4) ∧
        u64 (populated limit stack heap base file).1 (base + 16 * j + 8) =
          (base + 16 * count limit stack file +
            start (records limit stack heap base file) j) % 2 ^ 64) ∧
      ∀ a, a ∈ (populated limit stack heap base file).2 ↔ ∃ j < count limit stack file,
        a ∈ recordAccesses base j (base + 16 * count limit stack file +
          start (records limit stack heap base file) j) := by
  obtain ⟨hrarray, -⟩ := memData_eq hfit
  have hspec := populate_spec base (count limit stack file) 0
    (readData_records heap base hrarray) (by omega)
  rw [start, Nat.add_zero, Nat.zero_add] at hspec
  obtain ⟨-, helem, haccess⟩ := hspec
  rw [populated, if_pos (by omega), hrarray]
  refine ⟨fun j hj => helem j (Nat.zero_le j) hj, fun a => ?_⟩
  rw [haccess]
  simp only [Nat.zero_le, true_and]

/-- The elements that `qsort` moves keep their length and their address. -/
theorem element_congr {mem mem' : Mem} {p q : ℕ} (h : bytesAt mem' p 16 = bytesAt mem q 16) :
    u32 mem' (p + 4) = u32 mem (q + 4) ∧ u64 mem' (p + 8) = u64 mem (q + 8) := by
  constructor
  · apply u32_congr
    intro k hk
    rw [Nat.add_assoc, Nat.add_assoc]
    exact bytesAt_inj h (by omega)
  · apply u64_congr
    intro k hk
    rw [Nat.add_assoc, Nat.add_assoc]
    exact bytesAt_inj h (by omega)

/-- The condition on the `i`th record: what is copied as a `rec_dataptr_t`, and what is written. -/
def Fits (limit data_size : ℕ) (data : Mem) (i : ℕ) : Prop :=
  start data i + 16 ≤ data_size ∧
    start data i + min (recordSize (u32 data (start data i + 4))) limit ≤ data_size

/-- What is read for a record stays in the block just when it stays in the data. -/
theorem inside_write_iff {p data_size total : ℕ} {size : ℤ} (hp : p + 16 ≤ data_size)
    (htotal : total = 16 * i + data_size) :
    Inside base total (base + 16 * i + p, (min size limit).toNat) ↔ p + min size limit ≤ data_size := by
  by_cases hpos : 0 < (min size (limit : ℤ)).toNat
  · rw [inside_iff hpos]
    omega
  · refine iff_of_true (fun k hk => absurd (Nat.zero_lt_of_lt hk) hpos) ?_
    omega

/-- What is copied of each record lies in the data. -/
theorem copied_of_inBounds (hlimit : 4 ≤ limit) (hbase : 0 < base)
    (h : InBounds limit stack heap base file) (hi : i < count limit stack file) :
    start (records limit stack heap base file) i + 16 ≤ (memData limit stack file).data_size := by
  have hfit := fits_of_inBounds hbase hlimit h (by omega)
  obtain ⟨-, htotal⟩ := memData_eq hfit
  obtain ⟨-, haccess⟩ := populated_spec heap base hfit
  obtain ⟨mem', hqsort, -⟩ := exists_qsort base
    (memData limit stack file).total_size (populated limit stack heap base file).1
    (Equiv.refl (Fin (count limit stack file)))
  have hcopy := h mem' (fun _ => 0) hqsort _
    (List.mem_append_left _ ((haccess _).mpr ⟨i, hi, List.mem_cons_self⟩))
  rw [inside_iff (by omega)] at hcopy
  omega

/-- What is written of each record lies in the data: `qsort` may put it first. -/
theorem written_of_inBounds (hlimit : 4 ≤ limit) (hbase : 0 < base)
    (hspace : base + (memData limit stack file).total_size ≤ 2 ^ 64)
    (h : InBounds limit stack heap base file) (hi : i < count limit stack file) :
    Fits limit (memData limit stack file).data_size (records limit stack heap base file) i := by
  have hcopy := copied_of_inBounds hlimit hbase h hi
  have hfit := fits_of_inBounds hbase hlimit h (by omega)
  obtain ⟨-, htotal⟩ := memData_eq hfit
  obtain ⟨helem, -⟩ := populated_spec heap base hfit
  obtain ⟨hints, hptr⟩ := helem i hi
  rw [Nat.mod_eq_of_lt (by omega)] at hptr
  obtain ⟨mem', hqsort, hmem'⟩ := exists_qsort base
    (memData limit stack file).total_size (populated limit stack heap base file).1
    (Equiv.swap (⟨0, by omega⟩ : Fin (count limit stack file)) ⟨i, hi⟩)
  have hfirst : bytesAt mem' (base + 16 * 0) 16 =
      bytesAt (populated limit stack heap base file).1 (base + 16 * i) 16 := by
    rw [hmem' ⟨0, by omega⟩, Equiv.swap_apply_left]
  obtain ⟨hints', hptr'⟩ := element_congr hfirst
  obtain ⟨n, hn⟩ : ∃ n, count limit stack file = n + 1 := ⟨count limit stack file - 1, by omega⟩
  have hwrite := h mem' (fun _ => 0) hqsort (_, _) (List.mem_append_right _ (by
    rw [hn, write_sorted_data]
    exact List.mem_cons_of_mem _ (List.mem_cons_of_mem _ List.mem_cons_self)))
  rw [hints', hints, hptr', hptr, inside_write_iff hcopy htotal] at hwrite
  exact ⟨hcopy, hwrite⟩

/-- The accesses of `varsort` stay in its block exactly when the file counts no records, or no size
wraps and every record fits into the data, eight bytes longer than it is where it is the last. -/
theorem inBounds_iff (hlimit : 4 ≤ limit) (hbase : 0 < base)
    (hspace : base + (memData limit stack file).total_size ≤ 2 ^ 64) :
    InBounds limit stack heap base file ↔ count limit stack file = 0 ∨
      count limit stack file * 16 + (memData limit stack file).data_size < 2 ^ 32 ∧
        ∀ i < count limit stack file, Fits limit (memData limit stack file).data_size
          (records limit stack heap base file) i := by
  constructor
  · intro h
    by_cases hR : count limit stack file = 0
    · exact .inl hR
    · exact .inr ⟨fits_of_inBounds hbase hlimit h hR, fun i hi =>
        written_of_inBounds hlimit hbase hspace h hi⟩
  · rintro (hR | ⟨hfit, hall⟩) mem' result hqsort a ha
    · rw [populated, hR] at ha
      cases ha
    obtain ⟨-, htotal⟩ := memData_eq hfit
    obtain ⟨helem, haccess⟩ := populated_spec heap base hfit
    obtain ha | ha := List.mem_append.mp ha
    · obtain ⟨j, hj, ha⟩ := (haccess a).mp ha
      obtain ⟨hcopy, -⟩ := hall j hj
      simp only [recordAccesses, List.mem_cons, List.not_mem_nil, or_false] at ha
      obtain rfl | rfl | rfl | rfl := ha
      all_goals
        rw [inside_iff (by omega)]
        omega
    · obtain ⟨-, σ, hσ⟩ := hqsort (by omega)
      obtain ⟨j, -, hj, ha⟩ := mem_write ha
      rw [Nat.zero_add] at hj
      obtain rfl | rfl | rfl := ha
      · rw [inside_iff (by omega)]
        omega
      · rw [inside_iff (by omega)]
        omega
      · obtain ⟨hcopy, hwrite⟩ := hall (σ ⟨j, hj⟩) (σ ⟨j, hj⟩).isLt
        obtain ⟨hints, hptr⟩ := helem (σ ⟨j, hj⟩) (σ ⟨j, hj⟩).isLt
        obtain ⟨hints', hptr'⟩ := element_congr (hσ ⟨j, hj⟩)
        rw [Nat.mod_eq_of_lt (by omega)] at hptr
        rw [hints', hints, hptr', hptr, inside_write_iff hcopy htotal]
        exact hwrite

/-- One record with no data. -/
def lone : List Byte := encode [⟨5, []⟩]

theorem lone_inBounds_iff : InBounds 0x7ffff000 (fun _ => 0) (fun _ => 0) 0x1000 lone ↔
    count 0x7ffff000 (fun _ => 0) lone = 0 ∨
      count 0x7ffff000 (fun _ => 0) lone * 16 +
          (memData 0x7ffff000 (fun _ => 0) lone).data_size < 2 ^ 32 ∧
        ∀ i < count 0x7ffff000 (fun _ => 0) lone,
          Fits 0x7ffff000 (memData 0x7ffff000 (fun _ => 0) lone).data_size
            (records 0x7ffff000 (fun _ => 0) (fun _ => 0) 0x1000 lone) i :=
  inBounds_iff (by decide) (by decide) (by decide)

/-- The record of a well-formed file is copied with the eight bytes after it, which lie outside. -/
theorem lone_overruns : decode lone = some [⟨5, []⟩] ∧
    ¬ InBounds 0x7ffff000 (fun _ => 0) (fun _ => 0) 0x1000 lone := by
  refine ⟨decode_eq_some.mpr ⟨by decide, by decide, rfl⟩, fun h => ?_⟩
  have hcount : count 0x7ffff000 (fun _ => 0) lone = 1 := by decide
  have hcopy := copied_of_inBounds (i := 0) (by decide) (by decide) h (by rw [hcount]; decide)
  have hsize : (memData 0x7ffff000 (fun _ => 0) lone).data_size = 8 := by decide
  rw [hsize, start] at hcopy
  omega

end

end IntroToOS.Varsort.Bounds

import IntroToOS.Lib.Circular
import IntroToOS.Lib.Extents
import IntroToOS.Threads.Umalloc

/-! # The free list

What holds of the memory between two stores of the allocator that belong together: `F` are the
headers that the list links in the order of their addresses, from the static header on, and `A` those
of the blocks that are in use. Freeing links a block in and then joins it with its neighbours,
allocating unlinks a block or cuts its end off.
-/

namespace IntroToOS.Threads.Umalloc
open Lib Function
set_option autoImplicit false

namespace Proc

def next (s : Proc) (p : ℕ) : ℕ := (s.mem p).ptr

/-- The bytes of the block whose header is `p`. -/
def len (s : Proc) (p : ℕ) : ℕ := 8 * (s.mem p).size

variable {s : Proc} {p q v w : ℕ}

@[simp] theorem next_putPtr : (s.putPtr p v).next = update s.next p v := by
  funext x
  by_cases h : x = p <;> simp [next, putPtr, h]

@[simp] theorem len_putPtr : (s.putPtr p v).len = s.len := by
  funext x
  by_cases h : x = p <;> simp [len, putPtr, h]

@[simp] theorem next_putSize : (s.putSize p v).next = s.next := by
  funext x
  by_cases h : x = p <;> simp [next, putSize, h]

@[simp] theorem len_putSize : (s.putSize p v).len = update s.len p (8 * v) := by
  funext x
  by_cases h : x = p <;> simp [len, putSize, h]

@[simp] theorem size_putPtr : ((s.putPtr p v).mem q).size = (s.mem q).size := by
  by_cases h : q = p <;> simp [putPtr, h]

@[simp] theorem sz_putPtr : (s.putPtr p v).sz = s.sz := rfl

@[simp] theorem sz_putSize : (s.putSize p v).sz = s.sz := rfl

@[simp] theorem mapped_putPtr : (s.putPtr p v).mapped = s.mapped := rfl

@[simp] theorem mapped_putSize : (s.putSize p v).mapped = s.mapped := rfl

/-- The order of two stores to different words does not matter. -/
theorem putPtr_putSize : (s.putPtr p v).putSize q w = (s.putSize q w).putPtr p v := by
  unfold putPtr putSize
  congr 1
  funext x
  by_cases hp : x = p <;> by_cases hq : x = q <;> simp_all [update_apply]

theorem putPtr_comm (hpq : p ≠ q) : (s.putPtr p v).putPtr q w = (s.putPtr q w).putPtr p v := by
  unfold putPtr
  congr 1
  funext x
  by_cases hp : x = p <;> by_cases hq : x = q <;> simp_all [update_apply]

theorem putPtr_putPtr : (s.putPtr p v).putPtr p w = s.putPtr p w := by
  unfold putPtr
  congr 1
  funext x
  by_cases hp : x = p <;> simp_all

end Proc

/-! ## The invariant -/

structure Heap (base start : ℕ) (s : Proc) (F A : Finset ℕ) : Prop where
  list : Circular F s.next
  base_mem : base ∈ F
  base_size : s.len base = 0
  base_le : base + 8 ≤ start
  unlinked : ∀ a ∈ A, a ∉ F
  extents : Extents start s.sz s.len ((F ∪ A).erase base)
  start_le : start ≤ s.sz
  sz_le : s.sz ≤ USERTOP
  mapped : ∀ v < pages s.sz, s.mapped v = true

/-- No block of the list ends where the next one begins. -/
def Coalesced (base : ℕ) (s : Proc) (F : Finset ℕ) : Prop :=
  ∀ a ∈ F, a ≠ base → a + s.len a ≠ s.next a

namespace Heap

variable {base start : ℕ} {s : Proc} {F A : Finset ℕ} {a b p q n : ℕ}

theorem inside (h : Heap base start s F A) (ha : a ∈ (F ∪ A).erase base) :
    start ≤ a ∧ 8 ≤ s.len a ∧ a + s.len a ≤ s.sz := by
  obtain ⟨hlo, hpos, hhi⟩ := h.extents.inside a ha
  have hlen : s.len a = 8 * (s.mem a).size := rfl
  omega

theorem mem_free (hp : p ∈ F) (hne : p ≠ base) : p ∈ (F ∪ A).erase base :=
  Finset.mem_erase.mpr ⟨hne, Finset.mem_union_left A hp⟩

theorem mem_used (h : Heap base start s F A) (ha : a ∈ A) : a ∈ (F ∪ A).erase base := by
  refine Finset.mem_erase.mpr ⟨?_, Finset.mem_union_right F ha⟩
  rintro rfl
  exact h.unlinked a ha h.base_mem

/-- The static header is below every block. -/
theorem base_lt (h : Heap base start s F A) (ha : a ∈ (F ∪ A).erase base) : base < a := by
  have hin := h.inside ha
  have hbase := h.base_le
  omega

theorem header_le (h : Heap base start s F A) (ha : a ∈ F ∪ A) : a + 8 ≤ s.sz := by
  by_cases hb : a = base
  · have hstart := h.start_le
    have hbase := h.base_le
    omega
  · have hin := h.inside (Finset.mem_erase.mpr ⟨hb, ha⟩)
    omega

theorem mapped_of_lt (h : Heap base start s F A) {x : ℕ} (hx : x < s.sz) :
    s.mapped (x / PGSIZE) = true := by
  apply h.mapped
  show x / 4096 < (s.sz + 4096 - 1) / 4096
  omega

theorem mapped_ptr (h : Heap base start s F A) (ha : a ∈ F ∪ A) : s.mapped (a / PGSIZE) = true := by
  have hle := h.header_le ha
  exact h.mapped_of_lt (by omega)

theorem mapped_size (h : Heap base start s F A) (ha : a ∈ F ∪ A) :
    s.mapped ((a + 4) / PGSIZE) = true := by
  have hle := h.header_le ha
  exact h.mapped_of_lt (by omega)

theorem ptr_eq (h : Heap base start s F A) (ha : a ∈ F ∪ A) : ptr s a = .ok (s.next a) :=
  if_pos (h.mapped_ptr ha)

theorem size_eq (h : Heap base start s F A) (ha : a ∈ F ∪ A) : size s a = .ok (s.mem a).size :=
  if_pos (h.mapped_size ha)

theorem setPtr_eq (h : Heap base start s F A) (ha : a ∈ F ∪ A) (v : ℕ) :
    setPtr s a v = .ok (s.putPtr a v) := if_pos (h.mapped_ptr ha)

theorem setSize_eq (h : Heap base start s F A) (ha : a ∈ F ∪ A) (v : ℕ) :
    setSize s a v = .ok (s.putSize a v) := if_pos (h.mapped_size ha)

theorem padd_size (h : Heap base start s F A) (ha : a ∈ F ∪ A) :
    padd a (s.mem a).size = a + s.len a := by
  have hlen : s.len a = 8 * (s.mem a).size := rfl
  have hmax : s.sz ≤ 655360 := h.sz_le
  unfold padd
  by_cases hb : a = base
  · have hzero := h.base_size
    have hle := h.header_le ha
    rw [hb] at hlen hle ⊢
    omega
  · have hin := h.inside (Finset.mem_erase.mpr ⟨hb, ha⟩)
    omega

/-- The header of the block at a pointer. -/
theorem header_eq (h : Heap base start s F A) (hb : b ∈ A) : (b + 8 + (2 ^ 32 - 8)) % 2 ^ 32 = b := by
  have hle := h.header_le (Finset.mem_union_right F hb)
  have hmax : s.sz ≤ 655360 := h.sz_le
  omega

/-- The lock, the pointer to the list and memory that is in use play no part. -/
theorem congr {t : Proc} (h : Heap base start s F A) (hsz : t.sz = s.sz)
    (hmapped : t.mapped = s.mapped) (hmem : ∀ a ∈ F ∪ A, t.mem a = s.mem a) :
    Heap base start t F A where
  list := h.list.congr fun a ha => congrArg Header.ptr (hmem a (Finset.mem_union_left A ha))
  base_mem := h.base_mem
  base_size := by
    rw [← h.base_size]
    exact congrArg (fun x => 8 * x.size) (hmem base (Finset.mem_union_left A h.base_mem))
  base_le := h.base_le
  unlinked := h.unlinked
  extents := by
    rw [hsz]
    refine h.extents.congr fun a ha => ?_
    exact congrArg (fun x => 8 * x.size) (hmem a (Finset.mem_of_mem_erase ha))
  start_le := hsz ▸ h.start_le
  sz_le := hsz ▸ h.sz_le
  mapped := by
    rw [hsz, hmapped]
    exact h.mapped

/-! ## Changes -/

theorem next_ne (h : Heap base start s F A) (hp : p ∈ F) (hne : s.next p ≠ base) : s.next p ≠ p := by
  intro he
  have hbase := h.list.eq_of_next_eq hp he h.base_mem
  exact hne (he.trans hbase.symm)

/-- Only the way back to the static header goes down. -/
theorem lt_next (h : Heap base start s F A) (hp : p ∈ F) (hne : s.next p ≠ base) : p < s.next p := by
  by_contra hle
  obtain ⟨-, hmin⟩ := h.list.of_next_le hp (Nat.not_lt.mp hle)
  have hlow := hmin base h.base_mem
  have hblock := h.base_lt (mem_free (h.list.mem p hp) hne)
  omega

/-- A block that has been in use is linked in behind `p`. -/
theorem link (h : Heap base start s F A) (hp : p ∈ F) (hb : b ∈ A) (hbetween : Between s.next p b) :
    Heap base start ((s.putPtr b (s.next p)).putPtr p b) (insert b F) (A.erase b) where
  list := by
    rw [Proc.next_putPtr, Proc.next_putPtr]
    exact h.list.insert hp (h.unlinked b hb) hbetween
  base_mem := Finset.mem_insert_of_mem h.base_mem
  base_size := by simpa using h.base_size
  base_le := h.base_le
  unlinked := by
    intro a ha hF
    obtain ⟨hab, ha⟩ := Finset.mem_erase.mp ha
    exact h.unlinked a ha (Finset.mem_of_mem_insert_of_ne hF hab)
  extents := by
    have hset : (insert b F ∪ A.erase b).erase base = (F ∪ A).erase base := by
      congr 1
      ext x
      simp only [Finset.mem_union, Finset.mem_insert, Finset.mem_erase]
      by_cases hx : x = b
      · simp [hx, hb]
      · simp [hx]
    rw [hset]
    simpa using h.extents
  start_le := h.start_le
  sz_le := h.sz_le
  mapped := h.mapped

/-- A block of the list takes in the one behind it, which it touches. -/
theorem absorb (h : Heap base start s F A) (ha : a ∈ F) (hb : s.next a = b) (hne : a ≠ base)
    (hbne : b ≠ base) (htouch : a + s.len a = b) :
    Heap base start ((s.putSize a ((s.mem a).size + (s.mem b).size)).putPtr a (s.next b))
      (F.erase b) A where
  list := by
    rw [Proc.next_putPtr, Proc.next_putSize, ← hb]
    exact h.list.erase ha (h.next_ne ha (hb ▸ hbne))
  base_mem := Finset.mem_erase.mpr ⟨Ne.symm hbne, h.base_mem⟩
  base_size := by
    rw [Proc.len_putPtr, Proc.len_putSize, update_of_ne (Ne.symm hne)]
    exact h.base_size
  base_le := h.base_le
  unlinked := fun c hc hF => h.unlinked c hc (Finset.mem_of_mem_erase hF)
  extents := by
    have hbF : b ∈ F := hb ▸ h.list.mem a ha
    have hset : (F.erase b ∪ A).erase base = ((F ∪ A).erase base).erase b := by
      ext x
      simp only [Finset.mem_union, Finset.mem_erase]
      by_cases hx : x = b
      · have hA : b ∉ A := fun hA => h.unlinked b hA hbF
        simp [hx, hA]
      · simp [hx]
    have hsum : 8 * ((s.mem a).size + (s.mem b).size) = s.len a + s.len b := Nat.mul_add ..
    rw [hset, Proc.len_putPtr, Proc.len_putSize, hsum, ← htouch]
    refine h.extents.join (mem_free ha hne) ?_
    rw [htouch]
    exact mem_free hbF hbne
  start_le := h.start_le
  sz_le := h.sz_le
  mapped := h.mapped

/-- The block behind `p` is unlinked and used. -/
theorem unlink (h : Heap base start s F A) (hp : p ∈ F) (hq : s.next p = q) (hne : q ≠ base) :
    Heap base start (s.putPtr p (s.next q)) (F.erase q) (insert q A) where
  list := by
    rw [Proc.next_putPtr, ← hq]
    exact h.list.erase hp (h.next_ne hp (hq ▸ hne))
  base_mem := Finset.mem_erase.mpr ⟨Ne.symm hne, h.base_mem⟩
  base_size := by simpa using h.base_size
  base_le := h.base_le
  unlinked := by
    intro a ha hF
    obtain ⟨haq, hF⟩ := Finset.mem_erase.mp hF
    exact h.unlinked a (Finset.mem_of_mem_insert_of_ne ha haq) hF
  extents := by
    have hqF : q ∈ F := hq ▸ h.list.mem p hp
    have hset : (F.erase q ∪ insert q A).erase base = (F ∪ A).erase base := by
      congr 1
      ext x
      simp only [Finset.mem_union, Finset.mem_insert, Finset.mem_erase]
      by_cases hx : x = q
      · simp [hx, hqF]
      · simp [hx]
    rw [hset]
    simpa using h.extents
  start_le := h.start_le
  sz_le := h.sz_le
  mapped := h.mapped

/-- There is no header inside a block. -/
theorem ne_of_inside (h : Heap base start s F A) (hp : p ∈ (F ∪ A).erase base) (hlt : p < q)
    (hin : q < p + s.len p) (ha : a ∈ F ∪ A) : a ≠ q := by
  rintro rfl
  have hbase : a ≠ base := by
    have := h.base_lt hp
    omega
  have := h.extents.eq_of_mem hp (Finset.mem_erase.mpr ⟨hbase, ha⟩) (Nat.le_of_lt hlt) hin
  omega

/-- The last `n` units of the block at `p` are used. -/
theorem split (h : Heap base start s F A) (hp : p ∈ F) (hne : p ≠ base) (hn : 0 < n)
    (hlt : n < (s.mem p).size) :
    Heap base start ((s.putSize p ((s.mem p).size - n)).putSize (p + 8 * ((s.mem p).size - n)) n) F
      (insert (p + 8 * ((s.mem p).size - n)) A) := by
  have hlen : s.len p = 8 * (s.mem p).size := rfl
  have hpiece := h.inside (mem_free hp hne)
  have hcut : 8 * ((s.mem p).size - n) = s.len p - 8 * n := by omega
  have hnew : ∀ a ∈ F ∪ A, a ≠ p + 8 * ((s.mem p).size - n) := fun a ha =>
    h.ne_of_inside (mem_free hp hne) (by omega) (by omega) ha
  have hbnew := hnew base (Finset.mem_union_left A h.base_mem)
  constructor
  · rw [Proc.next_putSize, Proc.next_putSize]
    exact h.list
  · exact h.base_mem
  · rw [Proc.len_putSize, Proc.len_putSize, update_of_ne hbnew, update_of_ne (Ne.symm hne)]
    exact h.base_size
  · exact h.base_le
  · intro a ha hF
    rcases Finset.mem_insert.mp ha with rfl | ha
    · exact hnew _ (Finset.mem_union_left A hF) rfl
    · exact h.unlinked a ha hF
  · have hset : (F ∪ insert (p + 8 * ((s.mem p).size - n)) A).erase base =
        insert (p + 8 * ((s.mem p).size - n)) ((F ∪ A).erase base) := by
      rw [Finset.union_insert, Finset.erase_insert_of_ne (Ne.symm hbnew)]
    rw [hset, Proc.len_putSize, Proc.len_putSize, hcut]
    exact h.extents.cut (mem_free hp hne) (by omega) (by omega)
  · exact h.start_le
  · exact h.sz_le
  · exact h.mapped

/-- The memory has grown by `n` units, and a header is stored there. -/
theorem extend (h : Heap base start s F A) {t : Proc} (hn : 0 < n) (hsz : t.sz = s.sz + 8 * n)
    (hmax : t.sz ≤ USERTOP) (hmapped : ∀ v < pages t.sz, t.mapped v = true)
    (hmem : ∀ a ∈ F ∪ A, t.mem a = s.mem a) :
    Heap base start (t.putSize s.sz n) F (insert s.sz A) := by
  have hnew : ∀ a ∈ F ∪ A, a ≠ s.sz := by
    intro a ha he
    have := h.header_le ha
    omega
  have hbnew := hnew base (Finset.mem_union_left A h.base_mem)
  have hlen : ∀ a ∈ F ∪ A, t.len a = s.len a := fun a ha => congrArg (fun x => 8 * x.size) (hmem a ha)
  constructor
  · rw [Proc.next_putSize]
    exact h.list.congr fun a ha => congrArg Header.ptr (hmem a (Finset.mem_union_left A ha))
  · exact h.base_mem
  · rw [Proc.len_putSize, update_of_ne hbnew, hlen base (Finset.mem_union_left A h.base_mem)]
    exact h.base_size
  · exact h.base_le
  · intro a ha hF
    rcases Finset.mem_insert.mp ha with rfl | ha
    · exact hnew _ (Finset.mem_union_left A hF) rfl
    · exact h.unlinked a ha hF
  · have hset : (F ∪ insert s.sz A).erase base = insert s.sz ((F ∪ A).erase base) := by
      rw [Finset.union_insert, Finset.erase_insert_of_ne (Ne.symm hbnew)]
    rw [hset, Proc.sz_putSize, hsz, Proc.len_putSize]
    refine Extents.extend ?_ h.start_le (by omega)
    exact h.extents.congr fun a ha => hlen a (Finset.mem_of_mem_erase ha)
  · have hstart := h.start_le
    rw [Proc.sz_putSize]
    omega
  · exact hmax
  · exact hmapped

end Heap

/-! ## `free` -/

section
variable {base start : ℕ} {s t : Proc} {F A : Finset ℕ} {a b p q : ℕ}

theorem ptr_of_mapped {t : Proc} (hm : t.mapped (a / PGSIZE) = true) : ptr t a = .ok (t.next a) :=
  if_pos hm

theorem locate_succ (h : Heap base start s F A) (hp : p ∈ F) (b fuel : ℕ) :
    locate (fuel + 1) s b p =
      if Between s.next p b then .ok p else locate fuel s b (s.next p) := by
  rw [locate, h.ptr_eq (Finset.mem_union_left A hp), ok_bind]
  by_cases hin : p < b ∧ b < s.next p
  · rw [if_pos hin, if_pos (.inl hin)]
  · by_cases hend : s.next p ≤ p ∧ (p < b ∨ b < s.next p)
    · rw [if_neg hin, if_pos hend, if_pos (.inr hend)]
    · have hno : ¬ Between s.next p b := not_or.mpr ⟨hin, hend⟩
      rw [if_neg hin, if_neg hend, if_neg hno]

theorem locate_spec (h : Heap base start s F A) (hp : p ∈ F) {fuel : ℕ}
    (hl : locate fuel s b p = .ok q) : q ∈ F ∧ Between s.next q b := by
  induction fuel generalizing p with
  | zero => cases hl
  | succ fuel ih =>
      rw [locate_succ h hp] at hl
      split at hl
      · next hbetween =>
        obtain rfl := Except.ok.inj hl
        exact ⟨hp, hbetween⟩
      · exact ih (h.list.mem p hp) hl

/-- The loop ends, with a result that does not depend on the fuel. -/
theorem locate_returns (h : Heap base start s F A) (hp : p ∈ F) (hb : b ∉ F) :
    ∃ q k, ∀ fuel ≥ k, locate fuel s b p = .ok q := by
  obtain ⟨q, hq, hbetween⟩ := h.list.exists_between ⟨p, hp⟩ hb
  obtain ⟨k, hk⟩ := h.list.reaches hp hq
  have hone : ∀ p ∈ F, Between s.next p b → ∃ q k, ∀ fuel ≥ k, locate fuel s b p = .ok q := by
    intro p hp hbetween
    refine ⟨p, 1, fun fuel hfuel => ?_⟩
    obtain ⟨n, rfl⟩ := Nat.exists_eq_add_of_le' hfuel
    rw [locate_succ h hp, if_pos hbetween]
  induction k generalizing p with
  | zero =>
      obtain rfl : p = q := hk
      exact hone p hp hbetween
  | succ k ih =>
      by_cases hhere : Between s.next p b
      · exact hone p hp hhere
      · obtain ⟨r, m, hr⟩ := ih (h.list.mem p hp) hk
        refine ⟨r, m + 1, fun fuel hfuel => ?_⟩
        obtain ⟨n, rfl⟩ := Nat.exists_eq_add_of_le' hfuel
        rw [← Nat.add_assoc, locate_succ h hp, if_neg hhere]
        exact hr _ (Nat.le_add_left ..)

/-- What two states share that differ in the list alone. -/
structure Relinked (s t : Proc) (A : Finset ℕ) : Prop where
  lock : t.alloc_lock = s.alloc_lock
  sz : t.sz = s.sz
  mapped : t.mapped = s.mapped
  used : ∀ a ∈ A, t.mem a = s.mem a

/-- `bp` is joined with the block behind it; the pointer of `p` is still to be stored. -/
theorem joinUpper_spec (h : Heap base start s F A) (hc : Coalesced base s F) (hp : p ∈ F)
    (hb : b ∈ A) (hbetween : Between s.next p b) :
    ∃ t F', joinUpper s b (s.next p) = .ok t ∧ Heap base start (t.putPtr p b) F' (A.erase b) ∧
      p ∈ F' ∧ b ∈ F' ∧ s.len b ≤ t.len b ∧ Relinked s t (A.erase b) ∧
      ∀ a ∈ F', a ≠ base → a ≠ p → a + (t.putPtr p b).len a ≠ (t.putPtr p b).next a := by
  have hbF := h.unlinked b hb
  have hpb : p ≠ b := fun he => hbF (he ▸ hp)
  have hq := h.list.mem p hp
  have hused := Finset.mem_union_right F hb
  have hlinked := h.link hp hb hbetween
  have hframe : ∀ a ∈ A.erase b, a ≠ b := fun a ha => Finset.ne_of_mem_erase ha
  by_cases htouch : b + s.len b = s.next p
  · -- the block behind it is taken in
    have hblock := h.mem_used hb
    have hqne : s.next p ≠ base := by
      have := h.base_lt hblock
      omega
    have hqp := h.next_ne hp hqne
    have hqb : s.next p ≠ b := fun he => hbF (he ▸ hq)
    have hqF := Finset.mem_union_left A hq
    have hsum : ((s.mem b).size + (s.mem (s.next p)).size) % 2 ^ 32 =
        (s.mem b).size + (s.mem (s.next p)).size := by
      have hin := h.inside hblock
      have hin' := h.inside (Heap.mem_free hq hqne)
      have hlen : s.len b = 8 * (s.mem b).size := rfl
      have hlen' : s.len (s.next p) = 8 * (s.mem (s.next p)).size := rfl
      have hmax : s.sz ≤ 655360 := h.sz_le
      omega
    have hjoin : joinUpper s b (s.next p) =
        .ok ((s.putSize b ((s.mem b).size + (s.mem (s.next p)).size)).putPtr b (s.next (s.next p))) := by
      have hptr := ptr_of_mapped (t := s.putSize b ((s.mem b).size + (s.mem (s.next p)).size))
        (h.mapped_ptr hqF)
      rw [joinUpper, h.size_eq hused, ok_bind, h.padd_size hused, if_pos htouch, h.size_eq hqF, ok_bind,
        hsum, h.setSize_eq hused, ok_bind, hptr, ok_bind, Proc.next_putSize]
      exact if_pos (h.mapped_ptr hused)
    have hnextb : ((s.putPtr b (s.next p)).putPtr p b).next b = s.next p := by
      rw [Proc.next_putPtr, Proc.next_putPtr, update_of_ne (Ne.symm hpb), update_self]
    have hnextq : ((s.putPtr b (s.next p)).putPtr p b).next (s.next p) = s.next (s.next p) := by
      rw [Proc.next_putPtr, Proc.next_putPtr, update_of_ne hqp, update_of_ne hqb]
    have habsorb := hlinked.absorb (Finset.mem_insert_self b F) hnextb (Finset.ne_of_mem_erase hblock)
      hqne (by rw [Proc.len_putPtr, Proc.len_putPtr, htouch])
    rw [hnextq, Proc.size_putPtr, Proc.size_putPtr, Proc.size_putPtr, Proc.size_putPtr] at habsorb
    have hsame : ∀ n r, (((s.putPtr b (s.next p)).putPtr p b).putSize b n).putPtr b r =
        ((s.putSize b n).putPtr b r).putPtr p b := by
      intro n r
      rw [Proc.putPtr_putSize, Proc.putPtr_putSize, Proc.putPtr_comm hpb, Proc.putPtr_putPtr]
    rw [hsame] at habsorb
    refine ⟨_, _, hjoin, habsorb, ?_, ?_, ?_, ?_, ?_⟩
    · exact Finset.mem_erase.mpr ⟨Ne.symm hqp, Finset.mem_insert_of_mem hp⟩
    · exact Finset.mem_erase.mpr ⟨Ne.symm hqb, Finset.mem_insert_self b F⟩
    · rw [Proc.len_putPtr, Proc.len_putSize, update_self]
      exact Nat.mul_le_mul_left 8 (Nat.le_add_right ..)
    · refine ⟨rfl, rfl, rfl, fun a ha => ?_⟩
      exact (update_of_ne (hframe a ha) ..).trans (update_of_ne (hframe a ha) ..)
    · intro a ha hne hap
      obtain ⟨haq, ha⟩ := Finset.mem_erase.mp ha
      rw [Proc.len_putPtr, Proc.len_putPtr, Proc.len_putSize, Proc.next_putPtr, Proc.next_putPtr,
        Proc.next_putSize, update_of_ne hap]
      rcases Finset.mem_insert.mp ha with rfl | ha
      · have hcq := hc _ hq hqne
        have hsplit : 8 * ((s.mem a).size + (s.mem (s.next p)).size) =
            s.len a + s.len (s.next p) := Nat.mul_add ..
        rw [update_self, update_self, hsplit, ← Nat.add_assoc, htouch]
        exact hcq
      · have hab : a ≠ b := fun he => hbF (he ▸ ha)
        rw [update_of_ne hab, update_of_ne hab]
        exact hc a ha hne
  · have hjoin : joinUpper s b (s.next p) = .ok (s.putPtr b (s.next p)) := by
      rw [joinUpper, h.size_eq hused, ok_bind, h.padd_size hused, if_neg htouch, h.setPtr_eq hused]
    refine ⟨_, _, hjoin, hlinked, Finset.mem_insert_of_mem hp, Finset.mem_insert_self .., ?_, ?_, ?_⟩
    · rw [Proc.len_putPtr]
    · exact ⟨rfl, rfl, rfl, fun a ha => update_of_ne (hframe a ha) ..⟩
    · intro a ha hne hap
      rw [Proc.len_putPtr, Proc.len_putPtr, Proc.next_putPtr, Proc.next_putPtr, update_of_ne hap]
      rcases Finset.mem_insert.mp ha with rfl | ha
      · rw [update_self]
        exact htouch
      · have hab : a ≠ b := fun he => hbF (he ▸ ha)
        rw [update_of_ne hab]
        exact hc a ha hne

/-- `b` is joined with the block in front of it. -/
theorem joinLower_spec (h : Heap base start (s.putPtr p b) F A) (hp : p ∈ F) (hb : b ∈ F)
    (hpb : p ≠ b) (hbase : b ≠ base)
    (hc : ∀ a ∈ F, a ≠ base → a ≠ p → a + (s.putPtr p b).len a ≠ (s.putPtr p b).next a) :
    ∃ t F', joinLower s p b = .ok t ∧ Heap base start t F' A ∧ Coalesced base t F' ∧ p ∈ F' ∧
      (∃ a ∈ F', a ≠ base ∧ s.len b ≤ t.len a) ∧ Relinked s t A := by
  have hpU := Finset.mem_union_left A hp
  have hbU := Finset.mem_union_left A hb
  have hpadd : padd p (s.mem p).size = p + s.len p := by
    have := h.padd_size hpU
    rwa [Proc.size_putPtr, Proc.len_putPtr] at this
  have hsize : ∀ a ∈ F ∪ A, size s a = .ok (s.mem a).size := fun a ha => if_pos (h.mapped_size ha)
  have hframe : ∀ a ∈ A, a ≠ p := fun a ha he => h.unlinked a ha (he ▸ hp)
  have hnext : (s.putPtr p b).next p = b := by rw [Proc.next_putPtr, update_self]
  by_cases htouch : p + s.len p = b
  · have hpbase : p ≠ base := by
      rintro rfl
      have hzero := h.base_size
      rw [Proc.len_putPtr] at hzero
      omega
    have hsum : ((s.mem p).size + (s.mem b).size) % 2 ^ 32 = (s.mem p).size + (s.mem b).size := by
      have hin := h.inside (Heap.mem_free hp hpbase)
      have hin' := h.inside (Heap.mem_free hb hbase)
      rw [Proc.len_putPtr, Proc.sz_putPtr] at hin hin'
      have hlen : s.len p = 8 * (s.mem p).size := rfl
      have hlen' : s.len b = 8 * (s.mem b).size := rfl
      have hmax : s.sz ≤ 655360 := h.sz_le
      omega
    have hjoin : joinLower s p b =
        .ok ((s.putSize p ((s.mem p).size + (s.mem b).size)).putPtr p (s.next b)) := by
      have hset : ∀ v, setSize s p v = .ok (s.putSize p v) := fun v => if_pos (h.mapped_size hpU)
      have hptr := ptr_of_mapped (t := s.putSize p ((s.mem p).size + (s.mem b).size)) (h.mapped_ptr hbU)
      rw [joinLower, hsize p hpU, ok_bind, hpadd, if_pos htouch, hsize b hbU, ok_bind, hsum, hset, ok_bind,
        hptr, ok_bind, Proc.next_putSize]
      exact if_pos (h.mapped_ptr hpU)
    have habsorb := h.absorb hp hnext hpbase hbase (by rw [Proc.len_putPtr, htouch])
    have hnextb : (s.putPtr p b).next b = s.next b := by
      rw [Proc.next_putPtr, update_of_ne (Ne.symm hpb)]
    rw [hnextb, Proc.size_putPtr, Proc.size_putPtr, Proc.putPtr_putSize, Proc.putPtr_putPtr] at habsorb
    refine ⟨_, _, hjoin, habsorb, ?_, Finset.mem_erase.mpr ⟨hpb, hp⟩, ⟨p, ?_, hpbase, ?_⟩, ?_⟩
    · intro a ha hne
      obtain ⟨hab, ha⟩ := Finset.mem_erase.mp ha
      rw [Proc.len_putPtr, Proc.len_putSize, Proc.next_putPtr, Proc.next_putSize]
      by_cases hap : a = p
      · have hcb := hc b hb hbase (Ne.symm hpb)
        rw [hnextb, Proc.len_putPtr] at hcb
        have hsplit : 8 * ((s.mem p).size + (s.mem b).size) = s.len p + s.len b := Nat.mul_add ..
        rw [hap, update_self, update_self, hsplit, ← Nat.add_assoc, htouch]
        exact hcb
      · have hca := hc a ha hne hap
        rw [Proc.len_putPtr, Proc.next_putPtr, update_of_ne hap] at hca
        rw [update_of_ne hap, update_of_ne hap]
        exact hca
    · exact Finset.mem_erase.mpr ⟨hpb, hp⟩
    · rw [Proc.len_putPtr, Proc.len_putSize, update_self]
      exact Nat.mul_le_mul_left 8 (Nat.le_add_left ..)
    · refine ⟨rfl, rfl, rfl, fun a ha => ?_⟩
      exact (update_of_ne (hframe a ha) ..).trans (update_of_ne (hframe a ha) ..)
  · have hjoin : joinLower s p b = .ok (s.putPtr p b) := by
      rw [joinLower, hsize p hpU, ok_bind, hpadd, if_neg htouch]
      exact if_pos (h.mapped_ptr hpU)
    refine ⟨_, _, hjoin, h, fun a ha hne => ?_, hp, ⟨b, hb, hbase, ?_⟩, ?_⟩
    · by_cases hap : a = p
      · rw [hap, hnext, Proc.len_putPtr]
        exact htouch
      · exact hc a ha hne hap
    · rw [Proc.len_putPtr]
    · exact ⟨rfl, rfl, rfl, fun a ha => update_of_ne (hframe a ha) ..⟩

theorem Relinked.trans {u : Proc} {A : Finset ℕ} (h : Relinked s t A) (h' : Relinked t u A) :
    Relinked s u A where
  lock := h'.lock.trans h.lock
  sz := h'.sz.trans h.sz
  mapped := h'.mapped.trans h.mapped
  used := fun a ha => (h'.used a ha).trans (h.used a ha)

/-- What giving a block back leaves: the list with the block in it, in one piece of at least its size. -/
structure GivenBack (base start : ℕ) (s t : Proc) (A : Finset ℕ) (b : ℕ) (F' : Finset ℕ) : Prop where
  heap : Heap base start t F' (A.erase b)
  coalesced : Coalesced base t F'
  freep : t.freep ∈ F'
  room : ∃ a ∈ F', a ≠ base ∧ s.len b ≤ t.len a
  relinked : Relinked s t (A.erase b)

theorem giveBack_of_locate (h : Heap base start s F A) (hc : Coalesced base s F) (hfreep : s.freep ∈ F)
    (hb : b ∈ A) {fuel : ℕ} (hl : locate fuel s b s.freep = .ok p) :
    ∃ t F', giveBack fuel s (b + 8) = .ok t ∧ GivenBack base start s t A b F' := by
  obtain ⟨hp, hbetween⟩ := locate_spec h hfreep hl
  have hblock := h.mem_used hb
  have hpb : p ≠ b := fun he => h.unlinked b hb (he ▸ hp)
  obtain ⟨u, F₁, hupper, hu, hp₁, hb₁, hlen, hrel, hcu⟩ := joinUpper_spec h hc hp hb hbetween
  obtain ⟨t, F₂, hlower, ht, hct, hp₂, hroom, hrel'⟩ :=
    joinLower_spec hu hp₁ hb₁ hpb (Finset.ne_of_mem_erase hblock) hcu
  refine ⟨{ t with freep := p }, F₂, ?_, ?_⟩
  · rw [giveBack, h.header_eq hb, hl, ok_bind, h.ptr_eq (Finset.mem_union_left A hp), ok_bind, hupper, ok_bind,
      hlower, ok_bind]
  · obtain ⟨a, ha, hne, hlen'⟩ := hroom
    have htrans := hrel.trans hrel'
    exact {
      heap := ht.congr rfl rfl fun _ _ => rfl
      coalesced := hct
      freep := hp₂
      room := ⟨a, ha, hne, Nat.le_trans hlen hlen'⟩
      relinked := ⟨htrans.lock, htrans.sz, htrans.mapped, htrans.used⟩ }

theorem giveBack_spec (h : Heap base start s F A) (hc : Coalesced base s F) (hfreep : s.freep ∈ F)
    (hb : b ∈ A) {fuel : ℕ} (hg : giveBack fuel s (b + 8) = .ok t) :
    ∃ F', GivenBack base start s t A b F' := by
  have hgive := hg
  unfold giveBack at hg
  obtain ⟨p, hl, -⟩ := bind_eq_ok.mp hg
  rw [h.header_eq hb] at hl
  obtain ⟨u, F', hu, hback⟩ := giveBack_of_locate h hc hfreep hb hl
  obtain rfl : u = t := Except.ok.inj (hu.symm.trans hgive)
  exact ⟨F', hback⟩

theorem giveBack_returns (h : Heap base start s F A) (hc : Coalesced base s F) (hfreep : s.freep ∈ F)
    (hb : b ∈ A) : ∃ t k, ∀ fuel ≥ k, giveBack fuel s (b + 8) = .ok t := by
  obtain ⟨p, k, hk⟩ := locate_returns h hfreep (h.unlinked b hb)
  obtain ⟨t, -, ht, -⟩ := giveBack_of_locate h hc hfreep hb (hk k (Nat.le_refl k))
  refine ⟨t, k, fun fuel hfuel => ?_⟩
  have hsame : giveBack fuel s (b + 8) = giveBack k s (b + 8) := by
    rw [giveBack, giveBack, h.header_eq hb, hk fuel hfuel, hk k (Nat.le_refl k)]
  rw [hsame, ht]

end

end IntroToOS.Threads.Umalloc

import IntroToOS.SharedMemory.Reachable

/-! # Shared pages and the heap in reachable states

The invariant read off: references are counted, shared pages are mapped where the tables say, what is
free is not mapped, and heap and shared region do not meet. All of this needs the tables of the
kernel to be intact. `exec` does not check that `ph.va + ph.memsz` wraps, so that it can store bytes
of a file over them.
-/

namespace IntroToOS.SharedMemory
open Lib
set_option autoImplicit false

/-- References, shared pages and free frames agree. -/
structure Consistent (s : Kernel) : Prop where
  refcount : ∀ k, (s.spages k).refcount =
    ((Finset.univ.filter fun p => (s.proc p).key_addresses k ≠ 0).card : ℤ)
  mapped : ∀ p k, (s.proc p).key_addresses k ≠ 0 → PGSIZE ∣ (s.proc p).key_addresses k ∧
    ∀ j < (s.spages k).N, (s.dir (s.proc p).pgdir).pte ((s.proc p).key_addresses k / PGSIZE + j) =
      some ((s.spages k).addr j)
  free : ∀ p v f, (s.proc p).state ≠ .UNUSED → (s.dir (s.proc p).pgdir).pte v = some f →
    f ∉ s.freelist
  nodup : s.freelist.Nodup

/-- The heap of a process ends below its shared region. -/
structure HeapApart (s : Kernel) (x : Proc) : Prop where
  heap_le : PGROUNDUP x.sz ≤ x.current_top
  top_le : x.current_top ≤ USERTOP
  aligned : PGSIZE ∣ x.current_top
  disjoint : ∀ v k j, v < pages x.sz → x.key_addresses k ≠ 0 → j < (s.spages k).N →
    v ≠ x.key_addresses k / PGSIZE + j

section
variable {s t : Kernel} {p : ProcId} {k : Key} {K : KernelStore}

theorem tally_attachment (s : Kernel) (k : Key) : tally (attachment k) s.proc =
    (Finset.univ.filter fun p => (s.proc p).key_addresses k ≠ 0).card := by
  rw [Finset.card_filter]
  rfl

theorem InvBut.used_of_key (h : Inv s) (hk : (s.proc p).key_addresses k ≠ 0) :
    (s.proc p).state ≠ .UNUSED := by
  intro hu
  exact hk (h.idle p (by rw [hu]; decide) k)

theorem InvBut.refcount_ne_zero (h : Inv s) (hk : (s.proc p).key_addresses k ≠ 0) :
    (s.spages k).refcount ≠ 0 := fun h0 => hk (h.refcount_eq_zero h0 p)

/-- What a process has mapped is in use. -/
theorem InvBut.mapped_not_free (h : Inv s) (hp : (s.proc p).state ≠ .UNUSED) {v : ℕ} {f : Frame}
    (hf : (s.dir (s.proc p).pgdir).pte v = some f) : f ∉ s.freelist := by
  intro hfree
  by_cases hv : v < (s.proc p).current_top / PGSIZE
  · exact h.free_not_own hfree (heap_mem_own hp hv hf)
  · obtain ⟨k, j, hk, hj, rfl⟩ := (h.region p hp).covered v f (Nat.not_lt.mp hv) hf
    have hbound := h.bound k
    have hne := h.full k (h.refcount_ne_zero hk) j hj
    exact h.free_not_key hfree (mem_keyFrames (Nat.lt_of_lt_of_le hj hbound) hne)

theorem InvBut.consistent (h : Inv s) : Consistent s where
  refcount k := by rw [h.counted k, tally_attachment]
  mapped p k hk := by
    have ha := h.attached p nofun (h.used_of_key hk)
    exact ⟨(ha.address k hk).1, fun j hj => ha.mapped k j hk hj⟩
  free p v f hp hf := h.mapped_not_free hp hf
  nodup := List.nodup_iff_count_le_one.mpr fun f => Nat.le_trans (count_free_le s f) (h.single f)

theorem InvBut.heapApart (h : Inv s) (hp : (s.proc p).state ≠ .UNUSED) : HeapApart s (s.proc p) where
  heap_le := (h.region p hp).apart
  top_le := (h.region p hp).top_le
  aligned := (h.region p hp).aligned
  disjoint v k j hv hk hj := by
    have hle := (h.region p hp).pages_le
    have hge : (s.proc p).current_top / PGSIZE ≤ (s.proc p).key_addresses k / PGSIZE :=
      Nat.div_le_div_right ((h.attached p nofun hp).address k hk).2
    omega

/-- Unless bytes of a file are stored over the kernel, references are counted, shared pages are mapped, and
free frames are not. -/
theorem consistent_of_run {kend cpus : ℕ} {initcode : List Byte} (hk : 0 < kend)
    (hboot : boot kend cpus initcode = .ok s)
    (hrun : Run (step K) (fun s a => SafeCall s a.1 a.2) s t) : Consistent t :=
  (inv_of_run (boot_inv hk hboot).1 hrun fun _ _ h => h).consistent

/-- Unless bytes of a file are stored over the kernel, heap and shared region are apart, and no call maps a
page that is mapped. -/
theorem heapApart_of_run {kend cpus : ℕ} {initcode : List Byte} (hk : 0 < kend)
    (hboot : boot kend cpus initcode = .ok s)
    (hrun : Run (step K) (fun s a => SafeCall s a.1 a.2) s t) :
    (∀ p, (t.proc p).state ≠ .UNUSED → HeapApart t (t.proc p)) ∧
    ∀ p c, (t.proc p).state = .RUNNABLE → SafeCall t p c → call K t p c ≠ .error .remap := by
  have hinv := inv_of_run (boot_inv hk hboot).1 hrun fun _ _ h => h
  exact ⟨fun p hp => hinv.heapApart hp, fun p c hp hc he =>
    ((ends_iff.mp (call_inv hinv hp hc)).2 _ he).1 rfl⟩

end

/-- The first process attaches two pages and forks. The child tries a file with a segment where the
kernel is, which `allocuvm` refuses. -/
theorem consistent_of_fork : ∃ s t, boot 277 1 [] = .ok s ∧ (t.spages 0).refcount = 2 ∧
    Consistent t := by
  let calls : List (ProcId × Call) :=
    [(0, .shmgetat 0 2), (0, .fork), (1, .exec (some (fileOf (oneSegment 0x110000 4))) [])]
  have hrun : (boot 277 1 []).toOption.bind (fun s =>
      (play (step fun _ _ s => s) calls s).map fun t =>
        (decide (PlayOk (step fun _ _ s => s) (fun s a => SafeCall s a.1 a.2) calls s),
          (t.spages 0).refcount)) = some (true, 2) := by decide +kernel
  obtain ⟨s, hs, hrun⟩ := Option.bind_eq_some_iff.mp hrun
  obtain ⟨t, ht, hrun⟩ := Option.map_eq_some_iff.mp hrun
  obtain ⟨hok, href⟩ := Prod.mk.inj hrun
  exact ⟨s, t, toOption_eq_some.mp hs, href, consistent_of_run (by decide)
    (toOption_eq_some.mp hs) (.of_playOk (of_decide_eq_true hok) ht)⟩

/-- It attaches two pages and grows up to them. -/
theorem heapApart_of_growth : ∃ s t, boot 277 1 [] = .ok s ∧
    (t.proc 0).sz = 0x9e000 ∧ (t.proc 0).current_top = 0x9e000 ∧
    (∀ p, (t.proc p).state ≠ .UNUSED → HeapApart t (t.proc p)) ∧
    ∀ p c, (t.proc p).state = .RUNNABLE → SafeCall t p c →
      call (fun _ _ s => s) t p c ≠ .error .remap := by
  have hrun : (boot 277 1 []).toOption.bind (fun s =>
      (play (step fun _ _ s => s) [(0, .shmgetat 0 2), (0, .sbrk 0x9d000#32)] s).map fun t =>
        ((t.proc 0).sz, (t.proc 0).current_top)) = some (0x9e000, 0x9e000) := by decide +kernel
  obtain ⟨s, hs, hrun⟩ := Option.bind_eq_some_iff.mp hrun
  obtain ⟨t, ht, hrun⟩ := Option.map_eq_some_iff.mp hrun
  obtain ⟨hsz, htop⟩ := Prod.mk.inj hrun
  refine ⟨s, t, toOption_eq_some.mp hs, hsz, htop, heapApart_of_run (by decide)
    (toOption_eq_some.mp hs) (.of_playOk ?_ ht)⟩
  exact ⟨trivial, fun _ _ => ⟨trivial, fun _ _ => trivial⟩⟩

/-! ## A file that is loaded over the kernel -/

/-- The segment is at `0x110000`, where the kernel is. The sum of `va` and `memsz` is `0x1000` as a
`uint`. -/
def overKernel : List Byte := oneSegment 0x110000 0xffef1000

/-- The page begins with the reference count of the first key. -/
def storeRefcount : KernelStore := fun _ bytes s =>
  s.setKey 0 { s.spages 0 with refcount := (u32 (fun x => bytes.getD x 0) 0).toNat }

/-- The page begins with the top of the first process. -/
def storeTop : KernelStore := fun _ bytes s =>
  s.setProc 0 { s.proc 0 with current_top := (u32 (fun x => bytes.getD x 0) 0).toNat }

/-- A child executes the file, and the first key has seven references and no process. -/
theorem refcount_overwritten : ∃ s t, boot 277 1 [] = .ok s ∧
    play (step storeRefcount) [(0, .fork), (1, .exec (some (fileOf overKernel)) [])] s = some t ∧
    ¬ Consistent t := by
  have hrun : (boot 277 1 []).toOption.bind (fun s =>
      (play (step storeRefcount) [(0, .fork), (1, .exec (some (fileOf overKernel)) [])] s).map
        fun t => ((t.spages 0).refcount, decide (∀ p, (t.proc p).key_addresses 0 = 0))) =
      some (7, true) := by decide +kernel
  obtain ⟨s, hs, hrun⟩ := Option.bind_eq_some_iff.mp hrun
  obtain ⟨t, ht, hrun⟩ := Option.map_eq_some_iff.mp hrun
  obtain ⟨href, hkeys⟩ := Prod.mk.inj hrun
  refine ⟨s, t, toOption_eq_some.mp hs, ht, fun hc => ?_⟩
  have hnone : (Finset.univ.filter fun p => (t.proc p).key_addresses 0 ≠ 0) = ∅ :=
    Finset.filter_eq_empty_iff.mpr fun p _ => not_not.mpr (of_decide_eq_true hkeys p)
  have hcount := hc.refcount 0
  rw [href, hnone] at hcount
  exact absurd hcount (by decide)

/-- A child executes the file, and the shared region of its parent begins within the heap. -/
theorem top_overwritten : ∃ s t, boot 277 1 [] = .ok s ∧
    play (step storeTop) [(0, .fork), (1, .exec (some (fileOf overKernel)) [])] s = some t ∧
    (t.proc 0).state ≠ .UNUSED ∧ ¬ HeapApart t (t.proc 0) := by
  have hrun : (boot 277 1 []).toOption.bind (fun s =>
      (play (step storeTop) [(0, .fork), (1, .exec (some (fileOf overKernel)) [])] s).map
        fun t => ((t.proc 0).state, (t.proc 0).sz, (t.proc 0).current_top)) =
      some (.RUNNABLE, 4096, 7) := by decide +kernel
  obtain ⟨s, hs, hrun⟩ := Option.bind_eq_some_iff.mp hrun
  obtain ⟨t, ht, hrun⟩ := Option.map_eq_some_iff.mp hrun
  obtain ⟨hstate, hrun⟩ := Prod.mk.inj hrun
  obtain ⟨hsz, htop⟩ := Prod.mk.inj hrun
  refine ⟨s, t, toOption_eq_some.mp hs, ht, by rw [hstate]; decide, fun ha => ?_⟩
  have hle := ha.heap_le
  rw [hsz, htop] at hle
  exact absurd hle (by decide)

end IntroToOS.SharedMemory

import IntroToOS.SharedMemory.Forks

/-! # `growproc`

The heap of a process should be the pages below its size (`HeapExact`), before and after `growproc`.
The new size is computed in `uint`, and the size 0 stands for failure: a decrease by more than the
size is taken for no change, and one to 0 takes the pages away and then fails (`growproc_iff`).
-/

namespace IntroToOS.SharedMemory
open Lib
set_option autoImplicit false

/-- Below the shared region, the pages of the process are exactly those of its heap. -/
structure HeapExact (s : Kernel) (p : ProcId) : Prop where
  good : GoodList s
  used : (s.proc p).state ≠ .UNUSED
  apart : PGROUNDUP (s.proc p).sz ≤ (s.proc p).current_top
  top : (s.proc p).current_top ≤ USERTOP
  aligned : PGSIZE ∣ (s.proc p).current_top
  mapped : ∀ v, v * PGSIZE < (s.proc p).current_top →
    (((s.dir (s.proc p).pgdir).pte v).isSome ↔ v < pages (s.proc p).sz)
  valid : ∀ v f, v < pages (s.proc p).sz → (s.dir (s.proc p).pgdir).pte v = some f →
    ValidFrame s f ∧ f ≠ (s.proc p).pgdir
  pgdir : (s.proc p).pgdir ∉ s.freelist

/-- The address space of the process after `growproc(n)`. -/
structure Grows (s : Kernel) (p : ProcId) (n : ℤ) (s' : Kernel) (ret : ℤ) : Prop where
  code : ret = 0 ∨ ret = -1
  size : ret = 0 → ((s'.proc p).sz : ℤ) = (s.proc p).sz + n
  mapped : ret = 0 → ∀ v, v * PGSIZE < (s.proc p).current_top →
    (((s'.dir (s.proc p).pgdir).pte v).isSome ↔ v * PGSIZE < PGROUNDUP (s'.proc p).sz)
  zeroed : ret = 0 → ∀ v f, v * PGSIZE < (s.proc p).current_top →
    ((s.dir (s.proc p).pgdir).pte v) = none → ((s'.dir (s.proc p).pgdir).pte v) = some f →
    s'.mem f = fun _ => 0
  failed : ret = -1 → (s'.proc p).sz = (s.proc p).sz ∧
    s'.dir (s.proc p).pgdir = s.dir (s.proc p).pgdir ∧ s'.freelist.Perm s.freelist
  forks : fork s' p ≠ .error .pageNotPresent

section
variable {s s' : Kernel} {p : ProcId} {n : BitVec 32} {ret : ℤ} {fs : List Frame}

theorem mul_lt_PGROUNDUP {v sz : ℕ} : v * PGSIZE < PGROUNDUP sz ↔ v < pages sz := by
  rw [PGROUNDUP_eq]
  exact Nat.mul_lt_mul_right (by decide)

theorem mul_lt_iff {v sz : ℕ} : v * PGSIZE < sz ↔ v < pages sz := by
  show v * 4096 < sz ↔ v < (sz + 4096 - 1) / 4096
  omega

theorem HeapExact.pages_le (h : HeapExact s p) :
    pages (s.proc p).sz ≤ pages (s.proc p).current_top :=
  pages_mono (Nat.le_trans (le_PGROUNDUP _) h.apart)

theorem HeapExact.canFork (h : HeapExact s p) : CanFork s p :=
  ⟨h.good, h.used, h.pgdir, h.pages_le, h.top⟩

theorem HeapExact.below {v : ℕ} (h : HeapExact s p) (hv : v < pages (s.proc p).sz) :
    v * PGSIZE < (s.proc p).current_top :=
  Nat.lt_of_lt_of_le (mul_lt_PGROUNDUP.mpr hv) h.apart

/-- Copying a heap that is there meets no absent page. -/
theorem HeapExact.fork_present (h : HeapExact s p) : fork s p ≠ .error .pageNotPresent := by
  intro he
  have hfork := ends_iff.mp (forkChild_spec h.canFork)
  unfold fork at he
  rcases bind_eq_error.mp he with he | ⟨⟨t, onp⟩, -, he⟩
  · obtain ⟨-, -, x, hx, hnone⟩ := hfork.2 _ he
    have hsome := (h.mapped x (h.below hx)).mpr hx
    rw [hnone] at hsome
    cases hsome
  · cases onp <;> cases he

/-! ## Growing -/

theorem HeapExact.restored (h : HeapExact s p) (hr : Restored s s') : HeapExact s' p := by
  have hp : s'.proc p = s.proc p := by rw [hr.same.proc]
  have hgood := h.good.of_sub hr.same fun f hf => hr.freelist.mem_iff.mp hf
  exact {
    good := hgood
    used := by rw [hp]; exact h.used
    apart := by rw [hp]; exact h.apart
    top := by rw [hp]; exact h.top
    aligned := by rw [hp]; exact h.aligned
    mapped := by rw [hp, hr.dir]; exact h.mapped
    valid := by
      rw [hp, hr.dir]
      intro v f hv hf
      obtain ⟨hvalid, hne⟩ := h.valid v f hv hf
      exact ⟨hr.same.valid.mpr hvalid, hne⟩
    pgdir := by
      rw [hp]
      exact fun hin => h.pgdir (hr.freelist.mem_iff.mp hin) }

/-- The size of the process is set after its pages have been. -/
def setSize (s : Kernel) (p : ProcId) (sz : ℕ) : Kernel := s.setProc p { s.proc p with sz }

@[simp] theorem setSize_proc (s : Kernel) (p : ProcId) (sz : ℕ) :
    (setSize s p sz).proc p = { s.proc p with sz } := setProc_self

theorem HeapExact.grown {newsz : ℕ} (h : HeapExact s p) (hle : (s.proc p).sz ≤ newsz)
    (htop : PGROUNDUP newsz ≤ (s.proc p).current_top)
    (hlen : fs.length = pages newsz - pages (s.proc p).sz)
    (hp : Places (s.proc p).pgdir (pages (s.proc p).sz) fs s s') :
    HeapExact (setSize s' p newsz) p := by
  have hproc : s'.proc p = s.proc p := by rw [hp.same.proc]
  have hmono := pages_mono hle
  have hgood := hp.goodList h.good
  refine {
    good := ⟨hgood.kend_pos, hgood.valid⟩
    used := by rw [setSize_proc, hproc]; exact h.used
    apart := by rw [setSize_proc, hproc]; exact htop
    top := by rw [setSize_proc, hproc]; exact h.top
    aligned := by rw [setSize_proc, hproc]; exact h.aligned
    mapped := ?_
    valid := ?_
    pgdir := by
      rw [setSize_proc, hproc]
      exact fun hin => h.pgdir (hp.mem_freelist hin) }
  · rw [setSize_proc, hproc]
    intro v hv
    show ((s'.dir (s.proc p).pgdir).pte v).isSome ↔ v < pages newsz
    rw [hp.pte]
    by_cases hin : pages (s.proc p).sz ≤ v ∧ v < pages (s.proc p).sz + fs.length
    · exact iff_of_true (isSome_place hin.1 hin.2) (by omega)
    · rw [place_of_not_mem hin, h.mapped v hv]
      omega
  · rw [setSize_proc, hproc]
    intro v f hv hf
    have hf' : place (s.dir (s.proc p).pgdir).pte (pages (s.proc p).sz) fs v = some f := by
      rw [← hp.pte]
      exact hf
    have hvalid : ValidFrame s f ∧ f ≠ (s.proc p).pgdir := by
      by_cases hin : pages (s.proc p).sz ≤ v ∧ v < pages (s.proc p).sz + fs.length
      · rw [place_of_mem hin.1 hin.2] at hf'
        have hmem := hp.mem_placed (List.mem_of_getElem? hf')
        exact ⟨h.good.valid f hmem, fun he => h.pgdir (he ▸ hmem)⟩
      · rw [place_of_not_mem hin] at hf'
        refine h.valid v f ?_ hf'
        have hv' : v < pages newsz := hv
        omega
    exact ⟨hp.same.valid.mpr hvalid.1, hvalid.2⟩

theorem PGROUNDUP_le {a top : ℕ} (h : a ≤ top) (halign : PGSIZE ∣ top) : PGROUNDUP a ≤ top := by
  obtain ⟨k, rfl⟩ := halign
  rw [PGROUNDUP_eq, Nat.mul_comm]
  refine Nat.mul_le_mul_left _ ?_
  show (a + 4096 - 1) / 4096 ≤ k
  have h' : a ≤ 4096 * k := h
  omega

/-! ## Shrinking -/

theorem HeapExact.window_valid {v m : ℕ} {f : Frame} (h : HeapExact s p)
    (hm : v + m ≤ pages (s.proc p).sz) (hf : f ∈ window (s.dir (s.proc p).pgdir).pte v m) :
    ValidFrame s f ∧ f ≠ (s.proc p).pgdir := by
  obtain ⟨x, hx, hpte⟩ := mem_window.mp hf
  exact h.valid x f (by omega) hpte

theorem HeapExact.shrunk {newsz : ℕ} (h : HeapExact s p) (hle : newsz ≤ (s.proc p).sz)
    (hc : Clears (s.proc p).pgdir (pages newsz) (pages (s.proc p).sz - pages newsz) s s') :
    HeapExact (setSize s' p newsz) p := by
  have hproc : s'.proc p = s.proc p := by rw [hc.same.proc]
  have hmono := pages_mono hle
  have hwin : ∀ f ∈ window (s.dir (s.proc p).pgdir).pte (pages newsz)
      (pages (s.proc p).sz - pages newsz), ValidFrame s f ∧ f ≠ (s.proc p).pgdir :=
    fun f hf => h.window_valid (by omega) hf
  have hmem : ∀ f, f ∈ s'.freelist → f ∈ window (s.dir (s.proc p).pgdir).pte (pages newsz)
      (pages (s.proc p).sz - pages newsz) ∨ f ∈ s.freelist := fun f hf => by
    rw [hc.freelist, List.mem_append, List.mem_reverse] at hf
    exact hf
  refine {
    good := ⟨?_, fun f hf => ?_⟩
    used := by rw [setSize_proc, hproc]; exact h.used
    apart := by
      rw [setSize_proc, hproc]
      refine Nat.le_trans ?_ h.apart
      rw [PGROUNDUP_eq, PGROUNDUP_eq]
      exact Nat.mul_le_mul_right _ hmono
    top := by rw [setSize_proc, hproc]; exact h.top
    aligned := by rw [setSize_proc, hproc]; exact h.aligned
    mapped := ?_
    valid := ?_
    pgdir := ?_ }
  · show 0 < s'.kend
    rw [hc.same.kend]
    exact h.good.kend_pos
  · refine hc.same.valid.mpr ?_
    rcases hmem f hf with hf | hf
    · exact (hwin f hf).1
    · exact h.good.valid f hf
  · rw [setSize_proc, hproc]
    intro v hv
    show ((s'.dir (s.proc p).pgdir).pte v).isSome ↔ v < pages newsz
    rw [hc.pte]
    by_cases hin : pages newsz ≤ v ∧ v < pages newsz + (pages (s.proc p).sz - pages newsz)
    · rw [clear_of_mem hin.1 hin.2]
      exact iff_of_false (by simp) (by omega)
    · rw [clear_of_not_mem hin, h.mapped v hv]
      omega
  · rw [setSize_proc, hproc]
    intro v f hv hf
    have hv' : v < pages newsz := hv
    have hf' : clear (s.dir (s.proc p).pgdir).pte (pages newsz)
        (pages (s.proc p).sz - pages newsz) v = some f := by
      rw [← hc.pte]
      exact hf
    rw [clear_of_not_mem (by omega)] at hf'
    obtain ⟨hvalid, hne⟩ := h.valid v f (by omega) hf'
    exact ⟨hc.same.valid.mpr hvalid, hne⟩
  · rw [setSize_proc, hproc]
    intro hin
    rcases hmem _ hin with hin | hin
    · exact (hwin _ hin).2 rfl
    · exact h.pgdir hin

theorem HeapExact.dealloc (h : HeapExact s p) (newsz : ℕ) (hlt : newsz < (s.proc p).sz) :
    ∃ s', deallocuvm s (s.proc p).pgdir (s.proc p).sz newsz = .ok (s', newsz) ∧
      Clears (s.proc p).pgdir (pages newsz) (pages (s.proc p).sz - pages newsz) s s' := by
  have hmono := pages_mono (Nat.le_of_lt hlt)
  obtain ⟨t, ht, hc⟩ := deallocPages_spec fun f hf =>
    (h.window_valid (v := pages newsz) (m := pages (s.proc p).sz - pages newsz) (by omega) hf).1
  refine ⟨t, ?_, hc⟩
  rw [deallocuvm, if_neg (by omega), ht, ok_bind]

/-! ## `growproc` -/

theorem growproc_of_pos (hn : 0 < n.toInt) :
    growproc s p n = (do
      let (t, sz) ← allocuvm s p (s.proc p).pgdir (s.proc p).sz
        (((s.proc p).sz + n.toNat) % 2 ^ 32)
      if sz = 0 then .ok (t, -1) else .ok (setSize t p sz, 0)) := by
  rw [growproc, if_pos hn]
  rfl

theorem growproc_of_neg (hn : n.toInt < 0) :
    growproc s p n = (do
      let (t, sz) ← deallocuvm s (s.proc p).pgdir (s.proc p).sz
        (((s.proc p).sz + n.toNat) % 2 ^ 32)
      if sz = 0 then .ok (t, -1) else .ok (setSize t p sz, 0)) := by
  rw [growproc, if_neg (by omega), if_pos hn]
  rfl

theorem HeapExact.sz_le (h : HeapExact s p) : (s.proc p).sz ≤ 0xA0000 :=
  Nat.le_trans (Nat.le_trans (le_PGROUNDUP _) h.apart) h.top

theorem newsz_of_pos (hsz : (s.proc p).sz ≤ 0xA0000) (hn : 0 < n.toInt) :
    ((s.proc p).sz + n.toNat) % 2 ^ 32 = (s.proc p).sz + n.toNat ∧ (n.toNat : ℤ) = n.toInt := by
  have hlt : n.toNat < 2 ^ 32 := n.isLt
  rw [BitVec.toInt_eq_toNat_cond] at hn ⊢
  split at hn
  · next h =>
    rw [if_pos h]
    omega
  · omega

/-- In `uint`, a decrease beyond the size gives a large number. -/
theorem newsz_of_neg (hsz : (s.proc p).sz ≤ 0xA0000) (hn : n.toInt < 0) :
    if 0 ≤ (s.proc p).sz + n.toInt
    then ((((s.proc p).sz + n.toNat) % 2 ^ 32 : ℕ) : ℤ) = (s.proc p).sz + n.toInt
    else (s.proc p).sz < ((s.proc p).sz + n.toNat) % 2 ^ 32 := by
  have hlt : n.toNat < 2 ^ 32 := n.isLt
  rw [BitVec.toInt_eq_toNat_cond] at hn ⊢
  split at hn
  · omega
  · next h =>
    rw [if_neg h]
    split <;> omega

/-- Where `growproc` goes wrong: a decrease by the whole size or by more. -/
def Overshrinks (s : Kernel) (p : ProcId) (n : BitVec 32) : Prop :=
  (s.proc p).sz ≠ 0 ∧ (s.proc p).sz + n.toInt ≤ 0

instance (s : Kernel) (p : ProcId) (n : BitVec 32) : Decidable (Overshrinks s p n) :=
  inferInstanceAs (Decidable (_ ∧ _))

theorem Grows.of_restored (h : HeapExact s p) (hr : Restored s s') : Grows s p n.toInt s' (-1) where
  code := .inr rfl
  size h0 := absurd h0 (by decide)
  mapped h0 := absurd h0 (by decide)
  zeroed h0 := absurd h0 (by decide)
  failed _ := ⟨by rw [hr.same.proc], congrFun hr.dir _, hr.freelist⟩
  forks := (h.restored hr).fork_present

theorem growproc_grows (h : HeapExact s p) (hn : 0 < n.toInt) :
    ∃ s' ret, growproc s p n = .ok (s', ret) ∧ HeapExact s' p ∧ Grows s p n.toInt s' ret := by
  obtain ⟨hsum, hint⟩ := newsz_of_pos h.sz_le hn
  rw [growproc_of_pos hn, hsum]
  -- the pages to be mapped are absent
  have hnone : (s.proc p).sz + n.toNat ≤ (s.proc p).current_top →
      ∀ x, pages (s.proc p).sz ≤ x → x < pages ((s.proc p).sz + n.toNat) →
        (s.dir (s.proc p).pgdir).pte x = none := fun htop x h1 h2 => by
    have hx : x * PGSIZE < (s.proc p).current_top :=
      Nat.lt_of_lt_of_le (mul_lt_iff.mpr h2) htop
    have := (h.mapped x hx).not.mpr (by omega)
    simpa using this
  by_cases htoo : (s.proc p).current_top < (s.proc p).sz + n.toNat
  · refine ⟨s, -1, ?_, h, .of_restored h (.refl s)⟩
    rw [allocuvm, if_pos htoo]
    rfl
  · obtain ⟨t, sz, ht, hal⟩ := allocuvm_spec p (s.proc p).pgdir (s.proc p).sz
      ((s.proc p).sz + n.toNat) h.top (hnone (by omega)) h.good.valid
    rw [ht, ok_bind]
    simp only
    cases hal with
    | refused _ hr => exact ⟨t, -1, rfl, h.restored hr, .of_restored h hr⟩
    | smaller hlt => omega
    | grown _ hle htop hlen hp hzero =>
        have hlen' : (s.freelist.take (pages ((s.proc p).sz + n.toNat) -
            pages (s.proc p).sz)).length = pages ((s.proc p).sz + n.toNat) - pages (s.proc p).sz := by
          rw [List.length_take]
          omega
        have hex := h.grown hle (PGROUNDUP_le htop h.aligned) hlen' hp
        have hpgdir : (t.proc p) = s.proc p := by rw [hp.same.proc]
        refine ⟨setSize t p ((s.proc p).sz + n.toNat), 0, if_neg (by omega), hex, ?_⟩
        exact {
          code := .inl rfl
          size := fun _ => by
            rw [setSize_proc]
            show (((s.proc p).sz + n.toNat : ℕ) : ℤ) = _
            omega
          mapped := fun _ v hv => by
            have := hex.mapped v (by rw [setSize_proc, hpgdir]; exact hv)
            rw [setSize_proc, hpgdir] at this
            rw [setSize_proc, mul_lt_PGROUNDUP]
            exact this
          zeroed := fun _ v f hv hold hnew => by
            refine hzero f ?_
            have hnew' : place (s.dir (s.proc p).pgdir).pte (pages (s.proc p).sz)
                (s.freelist.take (pages ((s.proc p).sz + n.toNat) - pages (s.proc p).sz)) v =
                some f := by
              rw [← hp.pte]
              exact hnew
            by_cases hin : pages (s.proc p).sz ≤ v ∧ v < pages (s.proc p).sz +
                (s.freelist.take (pages ((s.proc p).sz + n.toNat) - pages (s.proc p).sz)).length
            · rw [place_of_mem hin.1 hin.2] at hnew'
              exact List.mem_of_getElem? hnew'
            · rw [place_of_not_mem hin, hold] at hnew'
              cases hnew'
          failed := fun h1 => absurd h1 (by decide)
          forks := hex.fork_present }

theorem growproc_shrinks (h : HeapExact s p) (hn : n.toInt < 0) (hok : ¬ Overshrinks s p n) :
    ∃ s' ret, growproc s p n = .ok (s', ret) ∧ HeapExact s' p ∧ Grows s p n.toInt s' ret := by
  have hnew := newsz_of_neg h.sz_le hn
  rw [growproc_of_neg hn]
  by_cases hzero : (s.proc p).sz = 0
  · -- nothing is below the size 0
    refine ⟨s, -1, ?_, h, .of_restored h (.refl s)⟩
    rw [deallocuvm, if_pos (by omega), hzero]
    rfl
  · have hpos : 0 < (s.proc p).sz + n.toInt := by
      unfold Overshrinks at hok
      omega
    rw [if_pos (by omega)] at hnew
    generalize ((s.proc p).sz + n.toNat) % 2 ^ 32 = newsz at hnew ⊢
    obtain ⟨t, ht, hc⟩ := h.dealloc newsz (by omega)
    rw [ht, ok_bind]
    have hex := h.shrunk (by omega) hc
    have hpgdir : (t.proc p) = s.proc p := by rw [hc.same.proc]
    refine ⟨setSize t p newsz, 0, if_neg (by omega), hex, ?_⟩
    exact {
      code := .inl rfl
      size := fun _ => by
        rw [setSize_proc]
        exact hnew
      mapped := fun _ v hv => by
        have := hex.mapped v (by rw [setSize_proc, hpgdir]; exact hv)
        rw [setSize_proc, hpgdir] at this
        rw [setSize_proc, mul_lt_PGROUNDUP]
        exact this
      zeroed := fun _ v f hv hold hnew' => by
        have hclear : (t.dir (s.proc p).pgdir).pte v = some f := hnew'
        rw [hc.pte, clear] at hclear
        split at hclear
        · cases hclear
        · rw [hold] at hclear
          cases hclear
      failed := fun h1 => absurd h1 (by decide)
      forks := hex.fork_present }

theorem not_grows (h : HeapExact s p) (hover : Overshrinks s p n) :
    ¬ ∃ s' ret, growproc s p n = .ok (s', ret) ∧ Grows s p n.toInt s' ret := by
  obtain ⟨hne, hle⟩ := hover
  rintro ⟨s', ret, hgrow, hg⟩
  have hn : n.toInt < 0 := by omega
  have hnew := newsz_of_neg h.sz_le hn
  rw [growproc_of_neg hn] at hgrow
  by_cases hzero : 0 ≤ (s.proc p).sz + n.toInt
  · -- all pages are gone, and the call fails
    rw [if_pos hzero] at hnew
    generalize ((s.proc p).sz + n.toNat) % 2 ^ 32 = newsz at hnew hgrow
    obtain rfl : newsz = 0 := by omega
    obtain ⟨t, ht, hc⟩ := h.dealloc 0 (Nat.pos_of_ne_zero hne)
    rw [ht, ok_bind] at hgrow
    obtain ⟨rfl, rfl⟩ := Prod.mk.inj (Except.ok.inj hgrow)
    have hpos : 0 < pages (s.proc p).sz := by
      refine mul_lt_iff.mp ?_
      rw [Nat.zero_mul]
      exact Nat.pos_of_ne_zero hne
    have hfirst := (h.mapped 0 (h.below hpos)).mpr hpos
    have hgone : (t.dir (s.proc p).pgdir).pte 0 = none := by
      rw [hc.pte]
      exact clear_of_mem (Nat.le_refl 0) (by rw [show pages 0 = 0 from rfl]; omega)
    rw [← (hg.failed rfl).2.1, hgone] at hfirst
    cases hfirst
  · -- the call does nothing, and succeeds
    rw [if_neg hzero] at hnew
    rw [deallocuvm, if_pos (Nat.le_of_lt hnew), ok_bind] at hgrow
    simp only [if_neg hne] at hgrow
    obtain ⟨rfl, rfl⟩ := Prod.mk.inj (Except.ok.inj hgrow)
    have hsize := hg.size rfl
    rw [setSize_proc] at hsize
    have hsize' : ((s.proc p).sz : ℤ) = (s.proc p).sz + n.toInt := hsize
    omega

/-- `growproc` does what it should for every process and every `n`, unless `n` takes away all that
there is, or more. -/
theorem growproc_iff (h : HeapExact s p) :
    (∃ s' ret, growproc s p n = .ok (s', ret) ∧ Grows s p n.toInt s' ret) ↔
      ¬ Overshrinks s p n := by
  constructor
  · exact fun hgrow hover => not_grows h hover hgrow
  · intro hok
    have hreturns : ∃ s' ret, growproc s p n = .ok (s', ret) ∧ HeapExact s' p ∧
        Grows s p n.toInt s' ret := by
      rcases lt_trichotomy 0 n.toInt with hn | hn | hn
      · exact growproc_grows h hn
      · refine ⟨s, 0, ?_, h, ?_⟩
        · rw [growproc, if_neg (by omega), if_neg (by omega)]
        · exact {
            code := .inl rfl
            size := fun _ => by omega
            mapped := fun _ v hv => by rw [mul_lt_PGROUNDUP]; exact h.mapped v hv
            zeroed := fun _ v f _ hold hnew => by rw [hold] at hnew; cases hnew
            failed := fun h1 => absurd h1 (by decide)
            forks := h.fork_present }
      · exact growproc_shrinks h hn hok
    obtain ⟨s', ret, hret, -, hg⟩ := hreturns
    exact ⟨s', ret, hret, hg⟩

end

/-- A process with one page, and five free frames. -/
def onePage : Kernel where
  kend := 300
  freelist := [405, 404, 403, 402, 401]
  dir := fun _ => { pte := fun v => if v = 0 then some 400 else none }
  proc := fun p =>
    if p = 0 then { state := .RUNNABLE, sz := 4096, pgdir := 310, current_top := USERTOP } else {}

theorem onePage_exact : HeapExact onePage 0 where
  good := ⟨by decide, by decide⟩
  used := by decide
  apart := by decide
  top := by decide
  aligned := by decide
  mapped v _ := by
    show (if v = 0 then some 400 else none).isSome ↔ v < 1
    by_cases hv : v = 0
    · simp [hv]
    · simp only [if_neg hv, Option.isSome_none, Bool.false_eq_true, false_iff]
      omega
  valid v f hv hf := by
    have hv0 : v = 0 := Nat.lt_one_iff.mp hv
    subst hv0
    obtain rfl : 400 = f := Option.some.inj hf
    exact ⟨⟨by decide, by decide⟩, by decide⟩
  pgdir := by decide

theorem growproc_onePage : ∃ s' ret, growproc onePage 0 0x2001#32 = .ok (s', ret) ∧
    Grows onePage 0 (0x2001#32 : BitVec 32).toInt s' ret :=
  (growproc_iff onePage_exact).mpr (by decide)

/-- A decrease by the whole page takes it away and fails. -/
theorem growproc_takes_page : HeapExact onePage 0 ∧
    (growproc onePage 0 0xfffff000#32).toOption.map (fun r =>
      (r.2, (r.1.proc 0).sz, (r.1.dir 310).pte 0, r.1.freelist.length)) =
        some (-1, 4096, none, 6) ∧
    ¬ ∃ s' ret, growproc onePage 0 0xfffff000#32 = .ok (s', ret) ∧
      Grows onePage 0 (0xfffff000#32 : BitVec 32).toInt s' ret :=
  ⟨onePage_exact, by decide, not_grows onePage_exact (by decide)⟩

end IntroToOS.SharedMemory

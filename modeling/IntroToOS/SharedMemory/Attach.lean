import IntroToOS.SharedMemory.Preserve

/-! # Growing the heap and attaching pages

`sbrk` moves the end of the heap and `shmgetat` the beginning of the shared region, each within the
gap between the two, so that no page is mapped twice. An attachment that fails for a key that nobody
has leaves the table of shared pages changed (`Roomy`).
-/

namespace IntroToOS.SharedMemory
open Lib
set_option autoImplicit false

section
variable {s s' t : Kernel} {p : ProcId} {key : Key} {f d : Frame} {o : Option ProcId}
  {fs : List Frame} {n : ℕ}

/-! ## `sbrk` -/

theorem setSize_self (s : Kernel) (p : ProcId) : setSize s p (s.proc p).sz = s := by
  rw [setSize, Kernel.setProc, Function.update_eq_self]

theorem attachment_congr {x y : Proc} (h : x.key_addresses = y.key_addresses) (k : Key) :
    attachment k x = attachment k y := by
  rw [attachment, attachment, h]

/-- The memory of `p` and its size have changed. -/
theorem OwnStep.of_setSize {sz : ℕ} (hsame : SameProcs s t)
    (hothers : ∀ f, f ≠ (s.proc p).pgdir → t.dir f = s.dir f)
    (hne : ∀ q, q ≠ p → (s.proc q).state ≠ .UNUSED → (s.proc q).pgdir ≠ (s.proc p).pgdir) :
    OwnStep p s (setSize t p sz) where
  kend := hsame.kend
  keys k := by
    rw [show (setSize t p sz).spages = s.spages from hsame.spages]
    exact ⟨rfl, rfl⟩
  refcount k := by
    rw [setSize_proc, hsame.proc, show (setSize t p sz).spages = s.spages from hsame.spages]
    rfl
  others q hq := by
    rw [← hsame.proc]
    exact setProc_of_ne hq
  dirs q hq hu := hothers _ (hne q hq hu)

theorem InvBut.setSize_step {sz : ℕ} (h : InvBut o s) (hp : (s.proc p).state = .RUNNABLE)
    (hsame : SameProcs s t) (hothers : ∀ f, f ≠ (s.proc p).pgdir → t.dir f = s.dir f)
    (htables : (t.dir (s.proc p).pgdir).tables = (s.dir (s.proc p).pgdir).tables)
    (hpos : 0 < sz) (hsz : PGROUNDUP sz ≤ (s.proc p).current_top)
    (hgap : ∀ v, pages sz ≤ v → v < (s.proc p).current_top / PGSIZE →
      (t.dir (s.proc p).pgdir).pte v = none)
    (hkeep : ∀ v, (s.proc p).current_top / PGSIZE ≤ v →
      (t.dir (s.proc p).pgdir).pte v = (s.dir (s.proc p).pgdir).pte v)
    (hcount : ∀ f, t.freelist.count f +
        (window (t.dir (s.proc p).pgdir).pte 0 ((s.proc p).current_top / PGSIZE)).count f ≤
      s.freelist.count f +
        (window (s.dir (s.proc p).pgdir).pte 0 ((s.proc p).current_top / PGSIZE)).count f) :
    InvBut o (setSize t p sz) := by
  have hused : (s.proc p).state ≠ .UNUSED := by rw [hp]; decide
  have hregion := h.region p hused
  have hproc : (setSize t p sz).proc p = { s.proc p with sz } := by
    rw [setSize_proc, hsame.proc]
  refine h.step (.of_setSize hsame hothers fun q hq hu => h.pgdir_ne hq.symm hused hu)
    (fun f => ?_) (fun _ => ?_) (fun _ _ ho => ho) (fun ho _ => ?_) (fun hs => ?_)
    fun k h0 hk => ?_
  · have hnew : ownFrames (setSize t p sz) { s.proc p with sz } =
        (s.proc p).kstack :: (s.proc p).pgdir :: (t.dir (s.proc p).pgdir).tables ++
          window (t.dir (s.proc p).pgdir).pte 0 ((s.proc p).current_top / PGSIZE) :=
      ownFrames_of_used (x := { s.proc p with sz }) hused
    have hc := hcount f
    have hfree : (setSize t p sz).freelist = t.freelist := rfl
    rw [hproc, hnew, ownFrames_of_used hused, htables, hfree, List.count_append, List.count_append]
    omega
  · rw [hproc]
    exact {
      sz_pos := hpos
      aligned := hregion.aligned
      apart := hsz
      top_le := hregion.top_le
      gap := hgap
      above := fun v hv => by
        have := hregion.top_pages_le
        show (t.dir (s.proc p).pgdir).pte v = none
        rw [hkeep v (by omega)]
        exact hregion.above v hv
      covered := fun v f hv hf => by
        have hf' : (t.dir (s.proc p).pgdir).pte v = some f := hf
        rw [hkeep v hv] at hf'
        rw [show (setSize t p sz).spages = s.spages from hsame.spages]
        exact hregion.covered v f hv hf' }
  · rw [hproc]
    have ha := h.attached p ho hused
    exact {
      address := ha.address
      mapped := fun k j hk hj => by
        have hj' : j < (s.spages k).N := by rw [← hsame.spages]; exact hj
        have hle : (s.proc p).current_top / PGSIZE ≤ (s.proc p).key_addresses k / PGSIZE + j :=
          Nat.le_trans (Nat.div_le_div_right (ha.address k hk).2) (Nat.le_add_right ..)
        show (t.dir (s.proc p).pgdir).pte ((s.proc p).key_addresses k / PGSIZE + j) =
          some ((t.spages k).addr j)
        rw [hkeep _ hle, hsame.spages]
        exact ha.mapped k j hk hj' }
  · rw [hproc] at hs
    exact absurd hp hs
  · rw [hproc] at hk
    exact absurd (h.refcount_eq_zero h0 p) hk

/-- `growproc` with the invariant: it always returns, and shared pages are not its business. -/
theorem growproc_inv {m : BitVec 32} (h : InvBut o s) (hp : (s.proc p).state = .RUNNABLE) :
    ∃ r, growproc s p m = .ok r ∧ InvBut o r.1 ∧ r.1.spages = s.spages := by
  have hused : (s.proc p).state ≠ .UNUSED := by rw [hp]; decide
  have hregion := h.region p hused
  have hpages := hregion.pages_le
  have hsz : (s.proc p).sz ≤ 0xA0000 :=
    Nat.le_trans (Nat.le_trans (le_PGROUNDUP _) hregion.apart) hregion.top_le
  rcases lt_trichotomy 0 m.toInt with hm | hm | hm
  · obtain ⟨hsum, hint⟩ := newsz_of_pos hsz hm
    rw [growproc_of_pos hm, hsum]
    by_cases htoo : (s.proc p).current_top < (s.proc p).sz + m.toNat
    · refine ⟨(s, -1), ?_, h, rfl⟩
      rw [allocuvm, if_pos htoo]
      rfl
    · have hnew : PGROUNDUP ((s.proc p).sz + m.toNat) ≤ (s.proc p).current_top :=
        PGROUNDUP_le (by omega) hregion.aligned
      have hnewp : pages ((s.proc p).sz + m.toNat) ≤ (s.proc p).current_top / PGSIZE :=
        (Nat.le_div_iff_mul_le (by decide)).mpr hnew
      obtain ⟨t, sz, ht, hal⟩ := allocuvm_spec p (s.proc p).pgdir (s.proc p).sz
        ((s.proc p).sz + m.toNat) hregion.top_le
        (fun x h1 h2 => hregion.gap x h1 (by omega)) fun f hf => h.valid_free hf
      rw [ht, ok_bind]
      simp only
      cases hal with
      | refused _ hr => exact ⟨(t, -1), rfl, h.restored hr, hr.same.spages⟩
      | smaller hlt => omega
      | grown _ hle htop hlen hpl hzero =>
          refine ⟨_, if_neg (by omega), ?_, hpl.same.spages⟩
          have hlen' : (s.freelist.take (pages ((s.proc p).sz + m.toNat) -
              pages (s.proc p).sz)).length =
              pages ((s.proc p).sz + m.toNat) - pages (s.proc p).sz := by
            rw [List.length_take]
            omega
          have hmono := pages_mono hle
          refine h.setSize_step hp hpl.same hpl.others hpl.tables (by omega) hnew
            (fun v h1 h2 => ?_) (fun v hv => hpl.pte_of_lt (by omega)) fun f => ?_
          · rw [hpl.pte_of_lt (by omega)]
            exact hregion.gap v (by omega) h2
          · have hwin := window_place_end (f := (s.dir (s.proc p).pgdir).pte) (v := 0)
              (m := pages (s.proc p).sz) (n := (s.proc p).current_top / PGSIZE)
              (l := s.freelist.take (pages ((s.proc p).sz + m.toNat) - pages (s.proc p).sz))
              (by omega) fun x h1 h2 => hregion.gap x (by omega) (by omega)
            rw [Nat.zero_add] at hwin
            have hfree := hpl.freelist.count_eq f
            rw [List.count_append] at hfree
            rw [hpl.pte, hwin, List.count_append]
            omega
  · refine ⟨(s, 0), ?_, h, rfl⟩
    rw [growproc, if_neg (by omega), if_neg (by omega)]
  · rw [growproc_of_neg hm]
    generalize ((s.proc p).sz + m.toNat) % 2 ^ 32 = newsz
    by_cases hge : (s.proc p).sz ≤ newsz
    · refine ⟨(s, 0), ?_, h, rfl⟩
      rw [deallocuvm, if_pos hge, ok_bind]
      simp only [if_neg (Nat.pos_iff_ne_zero.mp hregion.sz_pos), setSize_self]
    · have hmono : pages newsz ≤ pages (s.proc p).sz := pages_mono (by omega)
      obtain ⟨t, ht, hc⟩ := deallocPages_spec (s := s) (d := (s.proc p).pgdir) (v := pages newsz)
        (n := pages (s.proc p).sz - pages newsz) fun f hf => by
          obtain ⟨x, hx, hpte⟩ := mem_window.mp hf
          exact h.valid_own (p := p) (heap_mem_own hused (by omega) hpte)
      have hdealloc : deallocuvm s (s.proc p).pgdir (s.proc p).sz newsz = .ok (t, newsz) := by
        rw [deallocuvm, if_neg hge, ht, ok_bind]
      -- the pages are gone, whether the size follows or not
      have hstep : ∀ sz, 0 < sz → sz ≤ (s.proc p).sz → pages newsz ≤ pages sz →
          InvBut o (setSize t p sz) := by
        intro sz hpos hle hpg
        have hszle : PGROUNDUP sz ≤ (s.proc p).current_top :=
          Nat.le_trans (Nat.mul_le_mul_right PGSIZE (pages_mono hle)) hregion.apart
        refine h.setSize_step hp hc.same hc.others hc.tables hpos hszle (fun v h1 h2 => ?_)
          (fun v hv => ?_) fun f => ?_
        · rw [hc.pte]
          by_cases hv : v < pages (s.proc p).sz
          · exact clear_of_mem (by omega) (by omega)
          · rw [clear_of_not_mem (by omega)]
            exact hregion.gap v (by omega) h2
        · rw [hc.pte]
          exact clear_of_not_mem (by omega)
        · have hwin := window_clear_end (f := (s.dir (s.proc p).pgdir).pte) (v := 0)
            (m := pages newsz) (n := (s.proc p).current_top / PGSIZE)
            (k := pages (s.proc p).sz - pages newsz) (by omega)
            fun x h1 h2 => hregion.gap x (by omega) (by omega)
          rw [Nat.zero_add] at hwin
          rw [hc.freelist, hc.pte, hwin]
          simp only [List.count_append, List.count_reverse]
          omega
      rw [hdealloc, ok_bind]
      simp only
      by_cases hz : newsz = 0
      · rw [if_pos hz]
        refine ⟨_, rfl, ?_, hc.same.spages⟩
        have := hstep (s.proc p).sz hregion.sz_pos (Nat.le_refl _) hmono
        rwa [show (s.proc p).sz = (t.proc p).sz by rw [hc.same.proc], setSize_self] at this
      · rw [if_neg hz]
        exact ⟨_, rfl, hstep newsz (by omega) (by omega) (Nat.le_refl _), hc.same.spages⟩

/-! ## The pages of a key -/

theorem keySlots_update (z : KeysPages) (i : ℕ) (f : Frame) :
    keySlots { z with addr := Function.update z.addr i f } =
      Function.update (keySlots z) i (if f = 0 then none else some f) := by
  funext j
  by_cases hj : j = i
  · rw [hj, Function.update_self]
    simp only [keySlots, Function.update_self]
  · rw [Function.update_of_ne hj]
    simp only [keySlots, Function.update_of_ne hj]

theorem count_keyFrames_update (z : KeysPages) (i : ℕ) (f g : Frame) :
    (keyFrames { z with addr := Function.update z.addr i f }).count g ≤
      (keyFrames z).count g + (if f = 0 then [] else [f]).count g := by
  rw [keyFrames, keySlots_update]
  refine Nat.le_trans (count_window_update ..) ?_
  split
  · exact Nat.le_refl _
  · exact Nat.le_refl _

theorem KeyStep.of_setN {m : ℕ} (h0 : (s.spages key).refcount = 0)
    (hm : m ≤ MAX_SHARED_PAGES_PER_KEY) : KeyStep key s (setN s key m) where
  kend := rfl
  proc := rfl
  dir := rfl
  others k hk := Function.update_of_ne hk ..
  unused := h0
  refcount := by simpa [setN, Kernel.setKey] using h0
  bound := by simpa [setN, Kernel.setKey] using hm
  count g := by
    rw [keyFrames_congr (w := s.spages key) (by simp [setN, Kernel.setKey])]
    exact Nat.le_refl _

/-- A page of the key is replaced by `f`, which may be NULL. -/
theorem KeyStep.of_setAddr {i : ℕ} {l : List Frame} (h0 : (s.spages key).refcount = 0)
    (hN : (s.spages key).N ≤ MAX_SHARED_PAGES_PER_KEY)
    (hfree : s.freelist = (if f = 0 then [] else [f]) ++ l) :
    KeyStep key s (setAddr { s with freelist := l } key i f) where
  kend := rfl
  proc := rfl
  dir := rfl
  others k hk := Function.update_of_ne hk ..
  unused := h0
  refcount := by simpa [setAddr, Kernel.setKey] using h0
  bound := by simpa [setAddr, Kernel.setKey] using hN
  count g := by
    have hkey : (setAddr { s with freelist := l } key i f).spages key =
        { s.spages key with addr := Function.update (s.spages key).addr i f } := by
      simp [setAddr, Kernel.setKey]
    have hle := count_keyFrames_update (s.spages key) i f g
    rw [hkey, hfree, List.count_append]
    refine Nat.le_trans (Nat.add_le_add_left hle (l.count g)) ?_
    omega

theorem KeyStep.of_setPage (h : KeyStep key s t) (g : Frame) (data : ℕ → Byte) :
    KeyStep key s (t.setPage g data) :=
  ⟨h.kend, h.proc, h.dir, h.others, h.unused, h.refcount, h.bound, h.count⟩

theorem allocShared_spec {i : ℕ} (hg : GoodList s) (h0 : (s.spages key).refcount = 0)
    (hN : (s.spages key).N ≤ MAX_SHARED_PAGES_PER_KEY) :
    ∃ s', allocShared key n i s = (s', decide (n ≤ s.freelist.length)) ∧
      (n = 0 → s' = s) ∧ (0 < n → KeyStep key s s') ∧ (s'.spages key).N = (s.spages key).N ∧
      (∀ j < i, (s'.spages key).addr j = (s.spages key).addr j) ∧
      (n ≤ s.freelist.length → ∀ j, i ≤ j → j < i + n → (s'.spages key).addr j ≠ 0) := by
  induction n generalizing s i with
  | zero => exact ⟨s, rfl, fun _ => rfl, fun h => absurd h (by decide), rfl, fun _ _ => rfl,
      fun _ j h1 h2 => by omega⟩
  | succ n ih =>
      cases hfree : s.freelist with
      | nil =>
          refine ⟨setAddr s key i 0, ?_, nofun, fun _ => ?_, ?_, fun j hj => ?_, nofun⟩
          · rw [allocShared, kalloc_of_nil hfree]
            rfl
          · exact KeyStep.of_setAddr (s := s) (f := 0) (i := i) (l := s.freelist) h0 hN rfl
          · simp [setAddr, Kernel.setKey]
          · have hji : j ≠ i := Nat.ne_of_lt hj
            simp [setAddr, Kernel.setKey, hji]
      | cons f l =>
          have hf : f ≠ 0 := hg.ne_zero (by rw [hfree]; exact List.mem_cons_self)
          have hstep : KeyStep key s
              ((setAddr { s with freelist := l } key i f).setPage f fun _ => 0) :=
            (KeyStep.of_setAddr h0 hN (by rw [if_neg hf, hfree]; rfl)).of_setPage f _
          generalize ht : (setAddr { s with freelist := l } key i f).setPage f (fun _ => 0) = t
            at hstep
          have htkey : t.spages key =
              { s.spages key with addr := Function.update (s.spages key).addr i f } := by
            rw [← ht]
            simp [setAddr, Kernel.setKey, Kernel.setPage]
          have htfree : t.freelist = l := by rw [← ht]; rfl
          have htN : (t.spages key).N = (s.spages key).N := by rw [htkey]
          have htgood : GoodList t := by
            refine ⟨by rw [hstep.kend]; exact hg.kend_pos, fun g hgl => ?_⟩
            rw [ValidFrame, hstep.kend]
            refine hg.valid g ?_
            rw [hfree, ← htfree]
            exact List.mem_cons_of_mem f hgl
          obtain ⟨u, hu, hzero, hpos, huN, hlow, hhigh⟩ := ih (s := t) (i := i + 1) htgood
            hstep.refcount hstep.bound
          refine ⟨u, ?_, nofun, fun _ => ?_, huN.trans htN, fun j hj => ?_, fun hlen j h1 h2 => ?_⟩
          · rw [allocShared, kalloc_of_cons hfree]
            simp only
            rw [ht, hu, htfree, List.length_cons]
            simp only [Nat.succ_le_succ_iff]
          · rcases Nat.eq_zero_or_pos n with hn | hn
            · exact hzero hn ▸ hstep
            · exact hstep.trans (hpos hn)
          · have hji : j ≠ i := Nat.ne_of_lt hj
            rw [hlow j (by omega), htkey]
            exact Function.update_of_ne hji ..
          · by_cases hji : j = i
            · rw [hji, hlow i (by omega), htkey]
              show Function.update (s.spages key).addr i f i ≠ 0
              rw [Function.update_self]
              exact hf
            · refine hhigh ?_ j (by omega) (by omega)
              rw [htfree]
              exact Nat.le_of_succ_le_succ (by simpa using hlen)

/-! ## Mapping -/

/-- The frames `fs`, which are not new, have become the pages from `v` on. -/
structure Maps (d : Frame) (v : ℕ) (fs : List Frame) (s s' : Kernel) : Prop where
  same : SameProcs s s'
  others : ∀ f, f ≠ d → s'.dir f = s.dir f
  tables : (s'.dir d).tables = (s.dir d).tables
  pte : (s'.dir d).pte = place (s.dir d).pte v fs
  freelist : s'.freelist = s.freelist

theorem mapLoop_spec {v : ℕ} (key : Key) (hn : v + n ≤ userPages)
    (hnone : ∀ x, v ≤ x → x < v + n → (s.dir (s.proc p).pgdir).pte x = none) :
    ∃ s', (List.range n).foldlM (fun s i =>
        mappages s (s.proc p).pgdir (v + i) ((s.spages key).addr i)) s = .ok s' ∧
      Maps (s.proc p).pgdir v ((List.range n).map (s.spages key).addr) s s' := by
  induction n with
  | zero => exact ⟨s, rfl, .refl s, fun _ _ => rfl, rfl, (place_nil ..).symm, rfl⟩
  | succ n ih =>
      obtain ⟨t, ht, hmap⟩ := ih (by omega) fun x h1 h2 => hnone x h1 (by omega)
      have hlen : ((List.range n).map (s.spages key).addr).length = n := by simp
      have hnext : (t.dir (s.proc p).pgdir).pte (v + n) = none := by
        rw [hmap.pte, place_of_not_mem (by rw [hlen]; omega)]
        exact hnone _ (by omega) (by omega)
      have hok : ¬ (userPages ≤ v + n ∨ ((t.dir (s.proc p).pgdir).pte (v + n)).isSome) := by
        rw [hnext]
        rintro (h | h)
        · omega
        · cases h
      have hturn : mappages t (t.proc p).pgdir (v + n) ((t.spages key).addr n) =
          .ok (t.setPte (s.proc p).pgdir (v + n) (some ((s.spages key).addr n))) := by
        rw [hmap.same.proc, hmap.same.spages]
        exact if_neg hok
      refine ⟨t.setPte (s.proc p).pgdir (v + n) (some ((s.spages key).addr n)), ?_, ?_⟩
      · rw [List.range_succ, List.foldlM_append, ht, ok_bind, List.foldlM_cons, hturn]
        rfl
      · exact {
          same := hmap.same.trans ⟨rfl, rfl, rfl, rfl, rfl⟩
          others := fun f hf => by
            rw [← hmap.others f hf]
            simp [Kernel.setPte, Kernel.setDir, hf]
          tables := by
            rw [← hmap.tables]
            simp [Kernel.setPte, Kernel.setDir]
          pte := by
            rw [List.range_succ, List.map_append, place_append, hlen, ← hmap.pte]
            rw [List.map_singleton, place_singleton]
            simp [Kernel.setPte, Kernel.setDir]
          freelist := hmap.freelist }

theorem sub32_of_le {a b : ℕ} (h : b ≤ a) (ha : a < 2 ^ 32) : sub32 a b = a - b := by
  unfold sub32
  rw [Nat.mod_eq_of_lt (Nat.lt_of_le_of_lt h ha)]
  omega

/-- Where the pages go: directly below the shared region, and above the heap. -/
theorem Region.location {x : Proc} (h : Region s x) (hroom : ¬ NoRoom x n) :
    n ≤ x.current_top / PGSIZE ∧
      sub32 x.current_top (PGSIZE * n) = (x.current_top / PGSIZE - n) * PGSIZE ∧
      pages x.sz ≤ x.current_top / PGSIZE - n := by
  obtain ⟨k, hk⟩ := h.aligned
  have hk' : x.current_top = 4096 * k := hk
  have htop : x.current_top ≤ 0xA0000 := h.top_le
  have hsz : x.sz ≤ x.current_top := Nat.le_trans (le_PGROUNDUP _) h.apart
  have hle : n * 4096 ≤ x.current_top - x.sz := by
    rw [NoRoom, sub32_of_le hsz (by omega)] at hroom
    exact Nat.not_lt.mp hroom
  have hdiv : x.current_top / PGSIZE = k := by
    rw [hk]
    exact Nat.mul_div_cancel_left k (by decide)
  have hfit : PGSIZE * n ≤ x.current_top := by
    show 4096 * n ≤ x.current_top
    omega
  rw [hdiv, sub32_of_le hfit (by omega)]
  refine ⟨by omega, ?_, ?_⟩
  · show x.current_top - 4096 * n = (k - n) * 4096
    omega
  · show (x.sz + 4096 - 1) / 4096 ≤ k - n
    omega

/-- One more process has the key. -/
structure Counts (key : Key) (s s' : Kernel) : Prop where
  pages : ∀ k, (s'.spages k).N = (s.spages k).N ∧ (s'.spages k).addr = (s.spages k).addr
  refcount : ∀ k, (s'.spages k).refcount = (s.spages k).refcount + if k = key then 1 else 0

theorem Counts.of_inc (s : Kernel) (key : Key) : Counts key s (shm_inc_refcount s key) where
  pages k := by
    by_cases hk : k = key
    · simp [shm_inc_refcount, Kernel.setKey, hk]
    · simp [shm_inc_refcount, Kernel.setKey, hk]
  refcount k := by
    by_cases hk : k = key
    · simp [shm_inc_refcount, Kernel.setKey, hk]
    · simp [shm_inc_refcount, Kernel.setKey, hk]

/-- The process `p` gets the key, at `location`. -/
def takeKey (s : Kernel) (p : ProcId) (key : Key) (location : ℕ) : Kernel :=
  shm_inc_refcount (s.setProc p { s.proc p with
    key_addresses := Function.update (s.proc p).key_addresses key location
    current_top := location }) key

theorem takeKey_proc (s : Kernel) (p : ProcId) (key : Key) (location : ℕ) :
    (takeKey s p key location).proc p = { s.proc p with
      key_addresses := Function.update (s.proc p).key_addresses key location
      current_top := location } := setProc_self

theorem takeKey_counts (s : Kernel) (p : ProcId) (key : Key) (location : ℕ) :
    Counts key s (takeKey s p key location) := by
  obtain ⟨hpages, hrefs⟩ := Counts.of_inc (s.setProc p { s.proc p with
    key_addresses := Function.update (s.proc p).key_addresses key location
    current_top := location }) key
  exact ⟨hpages, hrefs⟩

/-- `p` has got the `n` pages of `key`, in the entries below `T`, where its shared region began. -/
structure Gains (p : ProcId) (key : Key) (T n : ℕ) (s u : Kernel) : Prop where
  proc : u.proc p = { s.proc p with
    key_addresses := Function.update (s.proc p).key_addresses key ((T - n) * PGSIZE)
    current_top := (T - n) * PGSIZE }
  keys : ∀ k, (u.spages k).N = (s.spages k).N ∧ (u.spages k).addr = (s.spages k).addr
  pte : (u.dir (s.proc p).pgdir).pte =
    place (s.dir (s.proc p).pgdir).pte (T - n) ((List.range n).map (s.spages key).addr)

section
variable {u : Kernel} {T : ℕ}

theorem Gains.pgdir (h : Gains p key T n s u) : (u.proc p).pgdir = (s.proc p).pgdir := by rw [h.proc]

theorem Gains.sz (h : Gains p key T n s u) : (u.proc p).sz = (s.proc p).sz := by rw [h.proc]

theorem Gains.top (h : Gains p key T n s u) : (u.proc p).current_top = (T - n) * PGSIZE := by
  rw [h.proc]

theorem Gains.top_page (h : Gains p key T n s u) : (u.proc p).current_top / PGSIZE = T - n := by
  rw [h.top]
  exact Nat.mul_div_cancel _ (by decide)

theorem Gains.location (h : Gains p key T n s u) : (u.proc p).key_addresses key = (T - n) * PGSIZE := by
  rw [h.proc]
  exact Function.update_self ..

theorem Gains.others (h : Gains p key T n s u) {k : Key} (hk : k ≠ key) :
    (u.proc p).key_addresses k = (s.proc p).key_addresses k := by
  rw [h.proc]
  exact Function.update_of_ne hk ..

theorem Gains.new (h : Gains p key T n s u) {j : ℕ} (hj : j < n) :
    (u.dir (s.proc p).pgdir).pte (T - n + j) = some ((s.spages key).addr j) := by
  rw [h.pte, place_of_mem (Nat.le_add_right ..) (by rw [List.length_map, List.length_range]; omega),
    Nat.add_sub_cancel_left]
  simp [hj]

theorem Gains.outside (h : Gains p key T n s u) (hle : n ≤ T) {v : ℕ} (hv : ¬ (T - n ≤ v ∧ v < T)) :
    (u.dir (s.proc p).pgdir).pte v = (s.dir (s.proc p).pgdir).pte v := by
  rw [h.pte, place_of_not_mem (by rw [List.length_map, List.length_range]; omega)]

theorem Gains.top_le (hT : (s.proc p).current_top / PGSIZE = T) :
    (T - n) * PGSIZE ≤ (s.proc p).current_top := by
  rw [← hT]
  exact Nat.le_trans (Nat.mul_le_mul_right _ (Nat.sub_le ..)) (Nat.div_mul_le_self ..)

/-- The user pages below the new beginning are those below the old one. -/
theorem Gains.window (h : Gains p key T n s u) (hregion : Region s (s.proc p)) (hle : n ≤ T)
    (hT : (s.proc p).current_top / PGSIZE = T) (hsz : pages (s.proc p).sz ≤ T - n) :
    window (u.dir (s.proc p).pgdir).pte 0 (T - n) = window (s.dir (s.proc p).pgdir).pte 0 T := by
  have hempty : ∀ v, T - n ≤ v → v < T → (s.dir (s.proc p).pgdir).pte v = none := fun v h1 h2 =>
    hregion.gap v (by omega) (by omega)
  rw [window_of_le (n := T - n) (m := T) (by omega) fun v h1 h2 => hempty v (by omega) (by omega)]
  exact window_congr fun v _ h2 => h.outside hle (by omega)

theorem Gains.region (h : Gains p key T n s u) (hregion : Region s (s.proc p)) (hle : n ≤ T)
    (hT : (s.proc p).current_top / PGSIZE = T) (hsz : pages (s.proc p).sz ≤ T - n)
    (hN : (s.spages key).N = n) (hnew : (s.proc p).key_addresses key = 0) (hpos : 0 < T - n) :
    Region u (u.proc p) := by
  have htop := hregion.top_pages_le
  exact {
    sz_pos := by rw [h.sz]; exact hregion.sz_pos
    aligned := by rw [h.top]; exact Nat.dvd_mul_left ..
    apart := by
      rw [h.sz, h.top, PGROUNDUP_eq]
      exact Nat.mul_le_mul_right _ hsz
    top_le := by
      rw [h.top]
      exact Nat.le_trans (Gains.top_le hT) hregion.top_le
    gap := fun v h1 h2 => by
      rw [h.sz] at h1
      rw [h.top_page] at h2
      rw [h.pgdir, h.outside hle (by omega)]
      exact hregion.gap v h1 (by omega)
    above := fun v hv => by
      rw [h.pgdir, h.outside hle (by omega)]
      exact hregion.above v hv
    covered := fun v f h1 hf => by
      rw [h.top_page] at h1
      rw [h.pgdir] at hf
      by_cases hv : v < T
      · obtain ⟨j, rfl⟩ := Nat.exists_eq_add_of_le h1
        rw [h.new (by omega)] at hf
        refine ⟨key, j, ?_, ?_, ?_⟩
        · rw [h.location]
          exact (Nat.mul_pos hpos (by decide)).ne'
        · rw [(h.keys key).1, hN]
          omega
        · rw [(h.keys key).2]
          exact (Option.some.inj hf).symm
      · rw [h.outside hle (by omega)] at hf
        obtain ⟨k, j, hk, hj, rfl⟩ := hregion.covered v f (by omega) hf
        have hne : k ≠ key := fun he => hk (he ▸ hnew)
        exact ⟨k, j, by rw [h.others hne]; exact hk, by rw [(h.keys k).1]; exact hj,
          by rw [(h.keys k).2]⟩ }

theorem Gains.attached (h : Gains p key T n s u) (hatt : Attached s (s.proc p)) (hle : n ≤ T)
    (hT : (s.proc p).current_top / PGSIZE = T) (hN : (s.spages key).N = n) :
    Attached u (u.proc p) where
  address k hk := by
    by_cases hkk : k = key
    · rw [hkk, h.location, h.top]
      exact ⟨Nat.dvd_mul_left .., Nat.le_refl _⟩
    · rw [h.others hkk] at hk ⊢
      obtain ⟨h1, h2⟩ := hatt.address k hk
      exact ⟨h1, by rw [h.top]; exact Nat.le_trans (Gains.top_le hT) h2⟩
  mapped k j hk hj := by
    rw [(h.keys k).1] at hj
    rw [h.pgdir, (h.keys k).2]
    by_cases hkk : k = key
    · rw [hkk, hN] at hj
      rw [hkk, h.location, Nat.mul_div_cancel _ (by decide)]
      exact h.new hj
    · rw [h.others hkk] at hk ⊢
      have hge : T ≤ (s.proc p).key_addresses k / PGSIZE := by
        rw [← hT]
        exact Nat.div_le_div_right (hatt.address k hk).2
      rw [h.outside hle (by omega)]
      exact hatt.mapped k j hk hj

end

theorem Maps.gains {T : ℕ} (hmap : Maps (s.proc p).pgdir (T - n)
    ((List.range n).map (s.spages key).addr) s t) :
    Gains p key T n s (takeKey t p key ((T - n) * PGSIZE)) where
  proc := by rw [takeKey_proc, hmap.same.proc]
  keys k := by
    rw [← hmap.same.spages]
    exact (takeKey_counts t p key _).pages k
  pte := hmap.pte

/-- The pages of the key are mapped below the shared region, and the region begins there. -/
theorem InvBut.attach {T : ℕ} (h : Inv s) (hp : (s.proc p).state = .RUNNABLE)
    (hT : (s.proc p).current_top / PGSIZE = T) (hle : n ≤ T) (hsz : pages (s.proc p).sz ≤ T - n)
    (hN : (s.spages key).N = n) (hfull : ∀ j < n, (s.spages key).addr j ≠ 0)
    (hnew : (s.proc p).key_addresses key = 0)
    (hmap : Maps (s.proc p).pgdir (T - n) ((List.range n).map (s.spages key).addr) s t) :
    Inv (takeKey t p key ((T - n) * PGSIZE)) := by
  have hused : (s.proc p).state ≠ .UNUSED := by rw [hp]; decide
  have hregion := h.region p hused
  have hgains := hmap.gains
  have hdir : (takeKey t p key ((T - n) * PGSIZE)).dir = t.dir := rfl
  have hfree : (takeKey t p key ((T - n) * PGSIZE)).freelist = s.freelist := hmap.freelist
  have hothers : ∀ q, q ≠ p → (takeKey t p key ((T - n) * PGSIZE)).proc q = s.proc q := fun q hq => by
    rw [← hmap.same.proc]
    exact setProc_of_ne hq
  have hkend : (takeKey t p key ((T - n) * PGSIZE)).kend = s.kend := hmap.same.kend
  have hrefs : ∀ k, ((takeKey t p key ((T - n) * PGSIZE)).spages k).refcount =
      (s.spages k).refcount + if k = key then 1 else 0 := fun k => by
    rw [← hmap.same.spages]
    exact (takeKey_counts t p key _).refcount k
  generalize takeKey t p key ((T - n) * PGSIZE) = u at *
  have hpos : 0 < T - n := by
    have : 0 < pages (s.proc p).sz := by
      refine mul_lt_iff.mp ?_
      rw [Nat.zero_mul]
      exact hregion.sz_pos
    omega
  have hstate : (u.proc p).state = (s.proc p).state := by rw [hgains.proc]
  have hkstack : (u.proc p).kstack = (s.proc p).kstack := by rw [hgains.proc]
  refine h.step (p := p) ⟨hkend, hgains.keys, fun k => ?_, hothers, fun q hq hu => ?_⟩ (fun f => ?_)
    (fun _ => hgains.region hregion hle hT hsz hN hnew hpos) (fun _ _ ho => ho)
    (fun _ _ => hgains.attached (h.attached p (by simp) hused) hle hT hN) (fun hs => ?_)
    fun k h0 hk j hj => ?_
  · rw [hrefs k]
    unfold attachment
    by_cases hk : k = key
    · have hloc : (T - n) * PGSIZE ≠ 0 := (Nat.mul_pos hpos (by decide)).ne'
      rw [if_pos hk, hk, hgains.location, hnew, if_neg (not_not.mpr rfl), if_pos hloc]
      simp
    · rw [if_neg hk, hgains.others hk]
      simp
  · rw [hdir]
    exact hmap.others _ (h.pgdir_ne hq.symm hused hu)
  · rw [hfree, ownFrames_of_used hused, ownFrames_of_used (by rw [hstate]; exact hused), hkstack,
      hgains.pgdir, hgains.top_page, hgains.window hregion hle hT hsz, hdir, hmap.tables, hT]
  · rw [hstate] at hs
    exact absurd hp hs
  · by_cases hkk : k = key
    · rw [hkk] at hj ⊢
      exact hfull j (by rw [← hN]; exact hj)
    · rw [hgains.others hkk] at hk
      exact absurd (h.refcount_eq_zero h0 p) hk

theorem mapShared_inv (key : Key) (h : Inv s) (hp : (s.proc p).state = .RUNNABLE)
    (hN : (s.spages key).N = n) (hfull : ∀ j < n, (s.spages key).addr j ≠ 0)
    (hnew : (s.proc p).key_addresses key = 0) :
    ∃ r, mapShared s p key n = .ok r ∧ Inv r.1 ∧ (NoRoom (s.proc p) n → r = (s, -1)) ∧
      (¬ NoRoom (s.proc p) n → 0 ≤ r.2 ∧ Counts key s r.1) := by
  have hused : (s.proc p).state ≠ .UNUSED := by rw [hp]; decide
  have hregion := h.region p hused
  by_cases hroom : NoRoom (s.proc p) n
  · exact ⟨(s, -1), if_pos hroom, h, fun _ => rfl, fun hno => absurd hroom hno⟩
  · obtain ⟨hle, hloc, hsz⟩ := hregion.location hroom
    have htop := hregion.top_pages_le
    generalize hT : (s.proc p).current_top / PGSIZE = T at hle hloc hsz htop
    have hdiv : (T - n) * PGSIZE / PGSIZE = T - n := Nat.mul_div_cancel _ (by decide)
    obtain ⟨t, ht, hmap⟩ := mapLoop_spec (s := s) (p := p) (n := n) (v := T - n) key
      (by omega) fun x h1 h2 => hregion.gap x (by omega) (by omega)
    refine ⟨(takeKey t p key ((T - n) * PGSIZE), ((T - n) * PGSIZE : ℕ)), ?_,
      h.attach hp hT hle hsz hN hfull hnew hmap, fun hno => absurd hno hroom,
      fun _ => ⟨Int.natCast_nonneg _, ?_⟩⟩
    · rw [mapShared, if_neg hroom]
      simp only
      rw [hloc, hdiv, ht, ok_bind]
      rfl
    · have hcounts := takeKey_counts t p key ((T - n) * PGSIZE)
      constructor
      · rw [← hmap.same.spages]
        exact hcounts.pages
      · rw [← hmap.same.spages]
        exact hcounts.refcount

/-! ## `shmgetat` -/

/-- There is room for the pages of the key, and memory if nobody has them yet. -/
def Roomy (s : Kernel) (p : ProcId) (key : Key) (n : ℕ) : Prop :=
  (s.spages key).refcount = 0 → ¬ NoRoom (s.proc p) n ∧ n ≤ s.freelist.length

instance (s : Kernel) (p : ProcId) (key : Key) (n : ℕ) : Decidable (Roomy s p key n) :=
  inferInstanceAs (Decidable (_ → _))

theorem attach_inv (key : Key) (h : Inv s) (hp : (s.proc p).state = .RUNNABLE)
    (hn : n ≤ MAX_SHARED_PAGES_PER_KEY) :
    ∃ r, attach_pages_to_process s p key n = .ok r ∧ Inv r.1 ∧
      (Roomy s p key n → (r.2 = -1 → r.1 = s) ∧ (Neat s → Neat r.1)) := by
  unfold attach_pages_to_process
  by_cases h0 : (s.spages key).refcount = 0
  · rw [if_pos h0]
    have hset := KeyStep.of_setN h0 hn
    have hsetN : ((setN s key n).spages key).N = n := by simp [setN, Kernel.setKey]
    have hinv := h.rekey hset
    have hfree : (setN s key n).freelist = s.freelist := rfl
    simp only
    by_cases hroom : NoRoom ((setN s key n).proc p) n
    · rw [if_pos hroom]
      exact ⟨_, rfl, hinv, fun hroomy => absurd hroom (hroomy h0).1⟩
    · rw [if_neg hroom]
      obtain ⟨t, ht, hzero, hpos, htN, -, hnonnull⟩ := allocShared_spec (s := setN s key n) (n := n)
        (i := 0) hinv.goodList hset.refcount hset.bound
      have htinv : Inv t := by
        rcases Nat.eq_zero_or_pos n with hn0 | hn0
        · exact hzero hn0 ▸ hinv
        · exact hinv.rekey (hpos hn0)
      have htothers : ∀ k, k ≠ key → t.spages k = s.spages k := fun k hk => by
        rcases Nat.eq_zero_or_pos n with hn0 | hn0
        · rw [hzero hn0, hset.others k hk]
        · rw [(hpos hn0).others k hk, hset.others k hk]
      have htproc : t.proc = s.proc := by
        rcases Nat.eq_zero_or_pos n with hn0 | hn0
        · rw [hzero hn0, hset.proc]
        · rw [(hpos hn0).proc, hset.proc]
      have htref : (t.spages key).refcount = 0 := by
        rcases Nat.eq_zero_or_pos n with hn0 | hn0
        · rw [hzero hn0, hset.refcount]
        · exact (hpos hn0).refcount
      rw [ht, hfree]
      by_cases hlen : n ≤ s.freelist.length
      · rw [decide_eq_true hlen]
        simp only
        obtain ⟨r, hr, hrinv, -, hroomy⟩ := mapShared_inv (s := t) (p := p) (n := n) key htinv
          (by rw [htproc]; exact hp) (htN.trans hsetN)
          (fun j hj => hnonnull (by rw [hfree]; exact hlen) j (Nat.zero_le j) (by omega))
          (by rw [htproc]; exact h.refcount_eq_zero h0 p)
        obtain ⟨hret, hcounts⟩ := hroomy (by rw [htproc]; exact hroom)
        refine ⟨r, hr, hrinv, fun _ => ⟨fun hfail => by omega, fun hneat k hk => ?_⟩⟩
        rw [hcounts.refcount k] at hk
        rw [(hcounts.pages k).1]
        by_cases hkk : k = key
        · rw [hkk, htref, if_pos rfl] at hk
          exact absurd hk (by decide)
        · rw [if_neg hkk, add_zero, htothers k hkk] at hk
          rw [htothers k hkk]
          exact hneat k hk
      · rw [decide_eq_false hlen]
        exact ⟨_, rfl, htinv, fun hroomy => absurd (hroomy h0).2 hlen⟩
  · rw [if_neg h0]
    by_cases hka : (s.proc p).key_addresses key = 0
    · rw [if_neg (not_not.mpr hka)]
      obtain ⟨r, hr, hrinv, hno, hroomy⟩ := mapShared_inv (s := s) (p := p) key h hp rfl
        (h.full key h0) hka
      refine ⟨r, hr, hrinv, fun _ => ?_⟩
      by_cases hroom : NoRoom (s.proc p) (s.spages key).N
      · rw [hno hroom]
        exact ⟨fun _ => rfl, fun hneat => hneat⟩
      · obtain ⟨hret, hcounts⟩ := hroomy hroom
        refine ⟨fun hfail => by omega, fun hneat k hk => ?_⟩
        rw [hcounts.refcount k] at hk
        rw [(hcounts.pages k).1]
        by_cases hkk : k = key
        · have := h.refcount_nonneg key
          rw [hkk, if_pos rfl] at hk
          omega
        · rw [if_neg hkk, add_zero] at hk
          exact hneat k hk
    · rw [if_pos hka]
      exact ⟨_, rfl, h, fun _ => ⟨fun _ => rfl, fun hneat => hneat⟩⟩

/-- The condition for the arguments of the system call. -/
def RoomyCall (s : Kernel) (p : ProcId) (key npages : ℤ) : Prop :=
  ∀ k : Key, (k : ℤ) = key → 1 ≤ npages → npages ≤ MAX_SHARED_PAGES_PER_KEY →
    Roomy s p k npages.toNat

theorem shmgetat_inv (keyArg npages : ℤ) (h : Inv s) (hp : (s.proc p).state = .RUNNABLE) :
    ∃ r, sys_shmgetat s p keyArg npages = .ok r ∧ Inv r.1 ∧
      (RoomyCall s p keyArg npages → (r.2 = -1 → r.1 = s) ∧ (Neat s → Neat r.1)) := by
  unfold sys_shmgetat
  by_cases hbad : keyArg < 0 ∨ MAX_SHARED_KEYS ≤ keyArg ∨ npages < 1 ∨
      MAX_SHARED_PAGES_PER_KEY < npages
  · rw [dif_pos hbad]
    exact ⟨_, rfl, h, fun _ => ⟨fun _ => rfl, fun hneat => hneat⟩⟩
  · rw [dif_neg hbad]
    have hle : npages.toNat ≤ MAX_SHARED_PAGES_PER_KEY := by
      show npages.toNat ≤ 4
      have hbad' : ¬ (keyArg < 0 ∨ 8 ≤ keyArg ∨ npages < 1 ∨ 4 < npages) := hbad
      omega
    obtain ⟨r, hr, hinv, hroomy⟩ := attach_inv ⟨keyArg.toNat, by omega⟩ h hp hle
    refine ⟨r, hr, hinv, fun hcall => hroomy (hcall _ ?_ (by omega) (by omega))⟩
    show ((keyArg.toNat : ℕ) : ℤ) = keyArg
    omega

end

end IntroToOS.SharedMemory

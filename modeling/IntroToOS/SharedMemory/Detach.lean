import IntroToOS.SharedMemory.Attach

/-! # Detaching

`sys_shmdt` takes the shared region out of an address space, gives up the references of the process
and frees the pages of every key that nobody has. It looks at all keys: one that has no references
but pages all the same makes it pass NULL to `kfree`. `exit` and `exec` run it.
-/

namespace IntroToOS.SharedMemory
open Lib
set_option autoImplicit false

section
variable {s s' t u : Kernel} {p q : ProcId} {key k : Key} {f : Frame} {o : Option ProcId}

/-! ## Giving back the pages of a key -/

theorem kfree_null (h : 0 < s.kend) : kfree s 0 = .error .kfree := if_pos (.inl h)

theorem freeShared_turn {j : ℕ} (h : InvBut o s) (h0 : (s.spages key).refcount = 0)
    (hj : j < MAX_SHARED_PAGES_PER_KEY) (hne : (s.spages key).addr j ≠ 0) :
    ∃ t, freeShared key s j = .ok t ∧ KeyStep key s t ∧
      (t.spages key).addr = Function.update (s.spages key).addr j 0 := by
  have hvalid := h.valid_key (mem_keyFrames hj hne)
  obtain ⟨u, hu, hback⟩ := kfree_spec hvalid
  have hkey : (setAddr u key j 0).spages key =
      { s.spages key with addr := Function.update (s.spages key).addr j 0 } := by
    simp [setAddr, Kernel.setKey, hback.same.spages]
  refine ⟨setAddr u key j 0, ?_, ?_, ?_⟩
  · rw [freeShared, hu]
    rfl
  · exact {
      kend := hback.same.kend
      proc := hback.same.proc
      dir := hback.dir
      others := fun k hk => by
        rw [← hback.same.spages]
        exact Function.update_of_ne hk ..
      unused := h0
      refcount := by
        rw [hkey]
        exact h0
      bound := by
        rw [hkey]
        exact h.bound key
      count := fun f => by
        have hslot : keySlots (s.spages key) j = some ((s.spages key).addr j) := if_neg hne
        have hchange := count_window_change (keySlots (s.spages key)) (v := 0)
          (n := MAX_SHARED_PAGES_PER_KEY) (i := j) none (Nat.zero_le j) (by omega) f
        rw [hslot, Option.toList_some, Option.toList_none, List.count_nil] at hchange
        have hfree : (setAddr u key j 0).freelist = [(s.spages key).addr j] ++ s.freelist :=
          hback.freelist
        rw [hkey, keyFrames, keySlots_update, if_pos rfl, hfree, List.count_append, keyFrames]
        omega }
  · rw [hkey]

theorem KeyStep.refl (h : InvBut o s) (h0 : (s.spages key).refcount = 0) : KeyStep key s s :=
  ⟨rfl, rfl, rfl, fun _ _ => rfl, h0, h0, h.bound key, fun _ => Nat.le_refl _⟩

theorem freeShared_spec {l : List ℕ} (h : InvBut o s) (h0 : (s.spages key).refcount = 0)
    (hnodup : l.Nodup) (hl : ∀ j ∈ l, j < MAX_SHARED_PAGES_PER_KEY) :
    Ends (l.foldlM (freeShared key) s) (fun t => KeyStep key s t)
      fun e => e = .kfree ∧ ∃ j ∈ l, (s.spages key).addr j = 0 := by
  induction l generalizing s with
  | nil => exact .refl h h0
  | cons j l ih =>
      obtain ⟨hj, hnodup⟩ := List.nodup_cons.mp hnodup
      rw [List.foldlM_cons]
      by_cases hnull : (s.spages key).addr j = 0
      · have hstop : freeShared key s j = .error .kfree := by
          rw [freeShared, hnull, kfree_null h.kend_pos]
          rfl
        rw [hstop]
        exact ⟨rfl, j, List.mem_cons_self, hnull⟩
      · obtain ⟨t, ht, hstep, haddr⟩ := freeShared_turn h h0 (hl j List.mem_cons_self) hnull
        rw [ht, ok_bind]
        have hrest := ends_iff.mp (ih (h.rekey hstep) hstep.refcount hnodup fun i hi =>
          hl i (List.mem_cons_of_mem j hi))
        refine ends_iff.mpr ⟨fun u hu => hstep.trans (hrest.1 u hu), fun e he => ?_⟩
        obtain ⟨rfl, i, hi, hzero⟩ := hrest.2 e he
        have hij : i ≠ j := fun he => hj (he ▸ hi)
        rw [haddr, Function.update_of_ne hij] at hzero
        exact ⟨rfl, i, List.mem_cons_of_mem j hi, hzero⟩

/-! ## Giving up a reference -/

/-- The beginning of a turn of `detachKey`. -/
def dropKey (s : Kernel) (p : ProcId) (k : Key) : Kernel :=
  let s := if (s.proc p).key_addresses k ≠ 0 then shm_dec_refcount s k else s
  s.setProc p { s.proc p with
    key_addresses := Function.update (s.proc p).key_addresses k 0
    current_top := USERTOP }

theorem detachKey_eq (p : ProcId) (s : Kernel) (k : Key) : detachKey p s k =
    if ((dropKey s p k).spages k).refcount = 0 then do
      let t ← (List.range ((dropKey s p k).spages k).N).foldlM (freeShared k) (dropKey s p k)
      .ok (setN t k 0)
    else .ok (dropKey s p k) := rfl

theorem dropKey_proc (s : Kernel) (p : ProcId) (k : Key) : (dropKey s p k).proc p = { s.proc p with
    key_addresses := Function.update (s.proc p).key_addresses k 0
    current_top := USERTOP } := by
  unfold dropKey
  split
  · exact setProc_self
  · exact setProc_self

theorem dropKey_proc_of_ne (h : q ≠ p) : (dropKey s p k).proc q = s.proc q := by
  unfold dropKey
  split
  · exact setProc_of_ne h
  · exact setProc_of_ne h

theorem dropKey_same (s : Kernel) (p : ProcId) (k : Key) : (dropKey s p k).kend = s.kend ∧
    (dropKey s p k).dir = s.dir ∧ (dropKey s p k).freelist = s.freelist := by
  unfold dropKey
  split
  · exact ⟨rfl, rfl, rfl⟩
  · exact ⟨rfl, rfl, rfl⟩

theorem dropKey_pages (s : Kernel) (p : ProcId) (k i : Key) :
    ((dropKey s p k).spages i).N = (s.spages i).N ∧
      ((dropKey s p k).spages i).addr = (s.spages i).addr := by
  by_cases hi : i = k
  · unfold dropKey
    split
    · simp [shm_dec_refcount, Kernel.setKey, Kernel.setProc, hi]
    · exact ⟨rfl, rfl⟩
  · unfold dropKey
    split
    · simp [shm_dec_refcount, Kernel.setKey, Kernel.setProc, hi]
    · exact ⟨rfl, rfl⟩

theorem dropKey_refcount (s : Kernel) (p : ProcId) (k : Key) :
    ((dropKey s p k).spages k).refcount + attachment k (s.proc p) = (s.spages k).refcount := by
  unfold dropKey attachment
  split
  · simp [shm_dec_refcount, Kernel.setKey, Kernel.setProc]
  · simp [Kernel.setProc]

theorem dropKey_of_ne {i : Key} (h : i ≠ k) : (dropKey s p k).spages i = s.spages i := by
  unfold dropKey
  split
  · simp [shm_dec_refcount, Kernel.setKey, Kernel.setProc, h]
  · rfl

/-! ## `sys_shmdt` -/

/-- `p` has no pages from its shared region on, and has still to give up the keys of `l`. -/
structure Detaching (p : ProcId) (s : Kernel) (l : List Key) (t : Kernel) : Prop where
  inv : InvBut (some p) t
  kend : t.kend = s.kend
  others : ∀ q, q ≠ p → t.proc q = s.proc q
  state : (t.proc p).state = (s.proc p).state
  pgdir : (t.proc p).pgdir = (s.proc p).pgdir
  kstack : (t.proc p).kstack = (s.proc p).kstack
  top : (s.proc p).current_top ≤ (t.proc p).current_top
  dirs : ∀ d, d ≠ (s.proc p).pgdir → t.dir d = s.dir d
  bare : ∀ v, (t.proc p).current_top / PGSIZE ≤ v → (t.dir (s.proc p).pgdir).pte v = none
  given : ∀ k, k ∉ l → (t.proc p).key_addresses k = 0
  uses_le : ∀ f, uses t f ≤ uses s f
  neat : Neat s → Neat t

theorem dropKey_inv (h : InvBut (some p) s) (hp : (s.proc p).state ≠ .UNUSED)
    (hbare : ∀ v, (s.proc p).current_top / PGSIZE ≤ v → (s.dir (s.proc p).pgdir).pte v = none) :
    InvBut (some p) (dropKey s p k) ∧ ∀ f, uses (dropKey s p k) f ≤ uses s f := by
  have hregion := h.region p hp
  have hproc := dropKey_proc s p k
  obtain ⟨hkend, hdir, hfree⟩ := dropKey_same s p k
  have hpages := dropKey_pages s p k
  have hothers : ∀ q, q ≠ p → (dropKey s p k).proc q = s.proc q := fun q => dropKey_proc_of_ne
  have hrefs : ∀ i, ((dropKey s p k).spages i).refcount + attachment i (s.proc p) =
      (s.spages i).refcount + attachment i ((dropKey s p k).proc p) := fun i => by
    by_cases hi : i = k
    · rw [hi, dropKey_refcount, hproc]
      simp [attachment]
    · rw [dropKey_of_ne hi, hproc, attachment, attachment]
      simp only [Function.update_of_ne hi]
  generalize dropKey s p k = u at *
  have hown : ownFrames u (u.proc p) = ownFrames s (s.proc p) := by
    have hwin : window (s.dir (s.proc p).pgdir).pte 0 (USERTOP / PGSIZE) =
        window (s.dir (s.proc p).pgdir).pte 0 ((s.proc p).current_top / PGSIZE) :=
      window_of_le hregion.top_pages_le fun x h1 _ => hbare x (by omega)
    rw [hproc, ownFrames_of_used (x := { s.proc p with
      key_addresses := Function.update (s.proc p).key_addresses k 0
      current_top := USERTOP }) hp, ownFrames_of_used hp, hdir]
    simp only [hwin]
  have hstep : OwnStep p s u := ⟨hkend, hpages, hrefs, hothers, fun _ _ _ => by rw [hdir]⟩
  refine ⟨h.step hstep (fun f => ?_) (fun _ => ?_) (fun _ _ ho => ho)
    (fun hne => absurd rfl hne) (fun hs i => ?_) (fun i h0 hi => ?_), fun f => ?_⟩
  · rw [hfree, hown]
  · have hnone : ∀ v, pages (s.proc p).sz ≤ v → (u.dir (s.proc p).pgdir).pte v = none := by
      intro v hv
      rw [hdir]
      by_cases hlt : v < (s.proc p).current_top / PGSIZE
      · exact hregion.gap v hv hlt
      · exact hbare v (by omega)
    have hle : pages (s.proc p).sz ≤ userPages := Nat.le_trans hregion.pages_le hregion.top_pages_le
    rw [hproc]
    exact {
      sz_pos := hregion.sz_pos
      aligned := show PGSIZE ∣ USERTOP by decide
      apart := Nat.le_trans hregion.apart hregion.top_le
      top_le := Nat.le_refl _
      gap := fun v h1 _ => hnone v h1
      above := fun v hv => hnone v (by omega)
      covered := fun v f hv hf => by
        have hv' : userPages ≤ v := hv
        have hf' : (u.dir (s.proc p).pgdir).pte v = some f := hf
        rw [hnone v (by omega)] at hf'
        cases hf' }
  · rw [hproc] at hs ⊢
    by_cases hi : i = k
    · rw [hi]
      exact Function.update_self ..
    · exact (Function.update_of_ne hi ..).trans (h.idle p hs i)
  · rw [hproc] at hi
    by_cases hik : i = k
    · rw [hik] at hi
      exact absurd (Function.update_self ..) hi
    · exact absurd ((Function.update_of_ne hik ..).trans (h.refcount_eq_zero h0 p)) hi
  · have := hstep.uses f
    rw [hfree, hown] at this
    omega

/-- A turn of the loop over the keys. -/
theorem Detaching.turn {l : List Key} (h : Detaching p s (k :: l) t)
    (hp : (s.proc p).state ≠ .UNUSED) : Ends (detachKey p t k) (fun u => Detaching p s l u)
      fun e => e = .kfree ∧ ¬ Neat s := by
  have hpt : (t.proc p).state ≠ .UNUSED := by
    rw [h.state]
    exact hp
  obtain ⟨hinv, huses⟩ := dropKey_inv (k := k) h.inv hpt (by rw [h.pgdir]; exact h.bare)
  have hproc := dropKey_proc t p k
  obtain ⟨hkend, hdir, -⟩ := dropKey_same t p k
  have hN := (dropKey_pages t p k k).1
  have haddr := (dropKey_pages t p k k).2
  have hothers : ∀ q, q ≠ p → (dropKey t p k).proc q = t.proc q := fun q => dropKey_proc_of_ne
  have hkeys : ∀ i, i ≠ k → (dropKey t p k).spages i = t.spages i := fun i => dropKey_of_ne
  have hregion := h.inv.region p hpt
  -- what the rest of the turn may change
  have hrest : ∀ w, w.kend = (dropKey t p k).kend → w.proc = (dropKey t p k).proc →
      w.dir = (dropKey t p k).dir →
      (∀ f, uses w f ≤ uses (dropKey t p k) f) → InvBut (some p) w → (Neat t → Neat w) →
      Detaching p s l w := by
    intro w hwkend hwproc hwdir hwuses hwinv hwneat
    have hwp : w.proc p = _ := (congrFun hwproc p).trans hproc
    exact {
      inv := hwinv
      kend := by rw [hwkend, hkend, h.kend]
      others := fun q hq => by rw [hwproc, hothers q hq, h.others q hq]
      state := by
        rw [hwp]
        exact h.state
      pgdir := by
        rw [hwp]
        exact h.pgdir
      kstack := by
        rw [hwp]
        exact h.kstack
      top := by
        rw [hwp]
        exact Nat.le_trans h.top hregion.top_le
      dirs := fun d hd => by rw [hwdir, hdir, h.dirs d hd]
      bare := fun v hv => by
        rw [hwp] at hv
        have hv' : userPages ≤ v := hv
        have := hregion.top_pages_le
        rw [hwdir, hdir]
        exact h.bare v (by omega)
      given := fun i hi => by
        rw [hwp]
        by_cases hik : i = k
        · rw [hik]
          exact Function.update_self ..
        · refine (Function.update_of_ne hik ..).trans (h.given i ?_)
          simp [hik, hi]
      uses_le := fun f => Nat.le_trans (hwuses f) (Nat.le_trans (huses f) (h.uses_le f))
      neat := fun hs => hwneat (h.neat hs) }
  rw [detachKey_eq]
  by_cases h0 : ((dropKey t p k).spages k).refcount = 0
  · rw [if_pos h0]
    have hspec := ends_iff.mp (freeShared_spec (l := List.range ((dropKey t p k).spages k).N) hinv h0
      List.nodup_range fun j hj => Nat.lt_of_lt_of_le (List.mem_range.mp hj) (hinv.bound k))
    refine Ends.bind (ends_iff.mpr ⟨hspec.1, fun e he => ?_⟩) fun w hw => ?_
    · obtain ⟨rfl, j, hj, hnull⟩ := hspec.2 e he
      refine ⟨rfl, fun hneat => ?_⟩
      rw [List.mem_range, hN] at hj
      rw [haddr] at hnull
      -- pages of a key that somebody had are there, and a neat key that nobody had has none
      by_cases hr : (t.spages k).refcount = 0
      · rw [h.neat hneat k hr] at hj
        exact absurd hj (Nat.not_lt_zero j)
      · exact h.inv.full k hr j hj hnull
    · have hset : KeyStep k (dropKey t p k) (setN w k 0) :=
        hw.trans (.of_setN hw.refcount (Nat.zero_le _))
      refine hrest (setN w k 0) hset.kend hset.proc hset.dir hset.uses_le (hinv.rekey hset)
        fun hneat i hi => ?_
      by_cases hik : i = k
      · rw [hik]
        simp [setN, Kernel.setKey]
      · rw [hset.others i hik, hkeys i hik] at hi ⊢
        exact hneat i hi
  · rw [if_neg h0]
    refine hrest _ rfl rfl rfl (fun _ => Nat.le_refl _) hinv fun hneat i hi => ?_
    by_cases hik : i = k
    · exact absurd (hik ▸ hi) h0
    · rw [hkeys i hik] at hi ⊢
      exact hneat i hi

/-- The state after `sys_shmdt`. -/
structure Detached (p : ProcId) (s t : Kernel) : Prop where
  inv : Inv t
  kend : t.kend = s.kend
  others : ∀ q, q ≠ p → t.proc q = s.proc q
  state : (t.proc p).state = (s.proc p).state
  pgdir : (t.proc p).pgdir = (s.proc p).pgdir
  kstack : (t.proc p).kstack = (s.proc p).kstack
  top : (s.proc p).current_top ≤ (t.proc p).current_top
  dirs : ∀ d, d ≠ (s.proc p).pgdir → t.dir d = s.dir d
  given : ∀ k, (t.proc p).key_addresses k = 0
  uses_le : ∀ f, uses t f ≤ uses s f
  neat : Neat s → Neat t

/-- Without references there is nothing to be attached. -/
theorem InvBut.detached (h : InvBut (some p) s) (hkeys : ∀ k, (s.proc p).key_addresses k = 0) :
    Inv s where
  kend_pos := h.kend_pos
  single := h.single
  valid := h.valid
  region := h.region
  attached q _ hq := by
    by_cases hqp : q = p
    · rw [hqp]
      exact ⟨fun k hk => absurd (hkeys k) hk, fun k _ hk => absurd (hkeys k) hk⟩
    · exact h.attached q (fun he => hqp (Option.some.inj he).symm) hq
  idle := h.idle
  counted := h.counted
  bound := h.bound
  full := h.full

theorem clearShared_detaching (h : Inv s) (hp : (s.proc p).state ≠ .UNUSED) :
    Detaching p s (List.finRange MAX_SHARED_KEYS) (clearShared s (s.proc p)) := by
  have hregion := h.region p hp
  have htop := hregion.top_pages_le
  have hdir : ∀ d, d ≠ (s.proc p).pgdir → (clearShared s (s.proc p)).dir d = s.dir d :=
    fun d hd => Function.update_of_ne hd ..
  have hpg : (clearShared s (s.proc p)).dir (s.proc p).pgdir = { s.dir (s.proc p).pgdir with
      pte := fun v => if (s.proc p).current_top / PGSIZE ≤ v ∧ v < userPages then none
        else (s.dir (s.proc p).pgdir).pte v } := Function.update_self ..
  have hproc : (clearShared s (s.proc p)).proc = s.proc := rfl
  have hspages : (clearShared s (s.proc p)).spages = s.spages := rfl
  have hfree : (clearShared s (s.proc p)).freelist = s.freelist := rfl
  have hkend : (clearShared s (s.proc p)).kend = s.kend := rfl
  generalize clearShared s (s.proc p) = u at *
  have hlow : ∀ v, v < (s.proc p).current_top / PGSIZE →
      (u.dir (s.proc p).pgdir).pte v = (s.dir (s.proc p).pgdir).pte v := fun v hv => by
    rw [hpg]
    exact if_neg (by omega)
  have hbare : ∀ v, (s.proc p).current_top / PGSIZE ≤ v →
      (u.dir (s.proc p).pgdir).pte v = none := fun v hv => by
    rw [hpg]
    by_cases hlt : v < userPages
    · exact if_pos ⟨hv, hlt⟩
    · exact (if_neg fun hin => hlt hin.2).trans (hregion.above v (by omega))
  have hown : ownFrames u (u.proc p) = ownFrames s (s.proc p) := by
    have hwin : window (u.dir (s.proc p).pgdir).pte 0 ((s.proc p).current_top / PGSIZE) =
        window (s.dir (s.proc p).pgdir).pte 0 ((s.proc p).current_top / PGSIZE) :=
      window_congr fun x _ hx => hlow x (by omega)
    rw [hproc, ownFrames_of_used hp, ownFrames_of_used hp, hwin, hpg]
  have hstep : OwnStep p s u := by
    refine ⟨hkend, fun k => by rw [hspages]; exact ⟨rfl, rfl⟩, fun k => by rw [hspages, hproc],
      fun q _ => by rw [hproc], fun q hq hu => hdir _ (h.pgdir_ne hq.symm hp hu)⟩
  exact {
    inv := by
      refine h.step hstep (fun f => by rw [hfree, hown]) (fun _ => ?_)
        (fun _ _ _ => by simp) (fun hne => absurd rfl hne) (fun hs k => ?_) (fun k h0 hk => ?_)
      · rw [hproc]
        exact {
          sz_pos := hregion.sz_pos
          aligned := hregion.aligned
          apart := hregion.apart
          top_le := hregion.top_le
          gap := fun v h1 h2 => by
            rw [hlow v h2]
            exact hregion.gap v h1 h2
          above := fun v hv => hbare v (by omega)
          covered := fun v f hv hf => by
            rw [hbare v hv] at hf
            cases hf }
      · rw [hproc] at hs ⊢
        exact h.idle p hs k
      · rw [hproc] at hk
        exact absurd (h.refcount_eq_zero h0 p) hk
    kend := hkend
    others := fun q _ => by rw [hproc]
    state := by rw [hproc]
    pgdir := by rw [hproc]
    kstack := by rw [hproc]
    top := by rw [hproc]
    dirs := hdir
    bare := by
      rw [hproc]
      exact hbare
    given := fun k hk => absurd (List.mem_finRange k) hk
    uses_le := fun f => by
      have := hstep.uses f
      rw [hfree, hown] at this
      omega
    neat := fun hneat k hk => by
      rw [hspages] at hk ⊢
      exact hneat k hk }

theorem shmdt_inv (h : Inv s) (hp : (s.proc p).state ≠ .UNUSED) :
    Ends (sys_shmdt s p) (fun t => Detached p s t) fun e => e = .kfree ∧ ¬ Neat s := by
  have hloop := Ends.foldlM (g := detachKey p) (P := Detaching p s)
    (E := fun e => e = .kfree ∧ ¬ Neat s) (clearShared_detaching h hp)
    fun k l t ht => ht.turn hp
  refine hloop.mono fun t ht => ?_
  have hgiven : ∀ k, (t.proc p).key_addresses k = 0 := fun k => ht.given k List.not_mem_nil
  exact ⟨ht.inv.detached hgiven, ht.kend, ht.others, ht.state, ht.pgdir, ht.kstack, ht.top, ht.dirs,
    hgiven, ht.uses_le, ht.neat⟩

end

end IntroToOS.SharedMemory

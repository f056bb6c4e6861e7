import IntroToOS.SharedMemory.Invariant

/-! # What keeps the invariant

Every call changes one process with its memory, or the pages of a key that nobody has. The rules
below say what is left to show in each case: `InvBut.step` for a process, `InvBut.rekey` for a key,
`InvBut.relabel` for changes that the invariant does not see.
-/

namespace IntroToOS.SharedMemory
open Lib
set_option autoImplicit false

section
variable {s s' : Kernel} {p q : ProcId} {k key : Key} {f d : Frame} {x y : Proc}
  {o o' : Option ProcId}

/-! ## Layouts in another state -/

theorem Region.congr (h : Region s x) (hdir : s'.dir x.pgdir = s.dir x.pgdir)
    (hkeys : ∀ k, x.key_addresses k ≠ 0 →
      (s'.spages k).N = (s.spages k).N ∧ (s'.spages k).addr = (s.spages k).addr) : Region s' x where
  sz_pos := h.sz_pos
  aligned := h.aligned
  apart := h.apart
  top_le := h.top_le
  gap := by rw [hdir]; exact h.gap
  above := by rw [hdir]; exact h.above
  covered := by
    intro v f hv hf
    rw [hdir] at hf
    obtain ⟨k, j, hk, hj, rfl⟩ := h.covered v f hv hf
    exact ⟨k, j, hk, by rw [(hkeys k hk).1]; exact hj, by rw [(hkeys k hk).2]⟩

theorem Attached.congr (h : Attached s x) (hdir : s'.dir x.pgdir = s.dir x.pgdir)
    (hkeys : ∀ k, x.key_addresses k ≠ 0 →
      (s'.spages k).N = (s.spages k).N ∧ (s'.spages k).addr = (s.spages k).addr) :
    Attached s' x where
  address := h.address
  mapped := by
    intro k j hk hj
    rw [(hkeys k hk).1] at hj
    rw [hdir, (hkeys k hk).2]
    exact h.mapped k j hk hj

/-! ## Uses -/

theorem uses_change (hothers : ∀ q, q ≠ p →
      ownFrames s' (s'.proc q) = ownFrames s (s.proc q))
    (hkeys : ∀ k, keyFrames (s'.spages k) = keyFrames (s.spages k)) (f : Frame) :
    uses s' f + s.freelist.count f + (ownFrames s (s.proc p)).count f =
      uses s f + s'.freelist.count f + (ownFrames s' (s'.proc p)).count f := by
  have h := tally_change (List.count f) (fun q => ownFrames s (s.proc q))
    (fun q => ownFrames s' (s'.proc q)) p hothers
  have hk : tally (List.count f) (fun k => keyFrames (s'.spages k)) =
      tally (List.count f) fun k => keyFrames (s.spages k) := by
    rw [funext hkeys]
  unfold uses
  omega

theorem uses_rekey (s s' : Kernel) (key : Key)
    (hown : ∀ q, ownFrames s' (s'.proc q) = ownFrames s (s.proc q))
    (hkeys : ∀ k, k ≠ key → keyFrames (s'.spages k) = keyFrames (s.spages k)) (f : Frame) :
    uses s' f + s.freelist.count f + (keyFrames (s.spages key)).count f =
      uses s f + s'.freelist.count f + (keyFrames (s'.spages key)).count f := by
  have h := tally_change (List.count f) (fun k => keyFrames (s.spages k))
    (fun k => keyFrames (s'.spages k)) key hkeys
  have hk : tally (List.count f) (fun q => ownFrames s' (s'.proc q)) =
      tally (List.count f) fun q => ownFrames s (s.proc q) := by
    rw [funext hown]
  unfold uses
  omega

theorem keyFrames_congr {z w : KeysPages} (h : z.addr = w.addr) : keyFrames z = keyFrames w := by
  unfold keyFrames keySlots
  rw [h]

/-! ## One process -/

/-- Only the process `p` changes, with its memory and its references to keys. -/
structure OwnStep (p : ProcId) (s s' : Kernel) : Prop where
  kend : s'.kend = s.kend
  keys : ∀ k, (s'.spages k).N = (s.spages k).N ∧ (s'.spages k).addr = (s.spages k).addr
  refcount : ∀ k, (s'.spages k).refcount + attachment k (s.proc p) =
    (s.spages k).refcount + attachment k (s'.proc p)
  others : ∀ q, q ≠ p → s'.proc q = s.proc q
  dirs : ∀ q, q ≠ p → (s.proc q).state ≠ .UNUSED →
    s'.dir (s.proc q).pgdir = s.dir (s.proc q).pgdir

theorem OwnStep.uses (h : OwnStep p s s') (f : Frame) :
    uses s' f + s.freelist.count f + (ownFrames s (s.proc p)).count f =
      uses s f + s'.freelist.count f + (ownFrames s' (s'.proc p)).count f :=
  uses_change (fun q hq => ownFrames_congr (h.others q hq) (h.dirs q hq))
    (fun k => keyFrames_congr (h.keys k).2) f

/-- The process may also take the frames `fs`, which nothing holds. -/
theorem InvBut.stepTaking (fs : List Frame) (h : InvBut o s) (hs : OwnStep p s s')
    (hfs : ∀ f, uses s f + fs.count f ≤ 1) (hvalid : ∀ f ∈ fs, ValidFrame s f)
    (huses : ∀ f, s'.freelist.count f + (ownFrames s' (s'.proc p)).count f ≤
      s.freelist.count f + (ownFrames s (s.proc p)).count f + fs.count f)
    (hregion : (s'.proc p).state ≠ .UNUSED → Region s' (s'.proc p))
    (ho : ∀ q, q ≠ p → o' ≠ some q → o ≠ some q)
    (hattached : o' ≠ some p → (s'.proc p).state ≠ .UNUSED → Attached s' (s'.proc p))
    (hidle : (s'.proc p).state ≠ .RUNNABLE → ∀ k, (s'.proc p).key_addresses k = 0)
    (hfull : ∀ k, (s.spages k).refcount = 0 → (s'.proc p).key_addresses k ≠ 0 →
      ∀ j < (s.spages k).N, (s.spages k).addr j ≠ 0) : InvBut o' s' where
  kend_pos := by
    rw [hs.kend]
    exact h.kend_pos
  single f := by
    have := hs.uses f
    have := huses f
    have := hfs f
    omega
  valid f hf := by
    have := hs.uses f
    have := huses f
    rw [ValidFrame, hs.kend]
    by_cases hin : f ∈ fs
    · exact hvalid f hin
    · rw [List.count_eq_zero_of_not_mem hin] at this
      exact h.valid f (by omega)
  region q hq := by
    by_cases hqp : q = p
    · exact hqp ▸ hregion (hqp ▸ hq)
    · rw [hs.others q hqp] at hq ⊢
      exact (h.region q hq).congr (hs.dirs q hqp hq) fun k _ => hs.keys k
  attached q hoq hq := by
    by_cases hqp : q = p
    · exact hqp ▸ hattached (hqp ▸ hoq) (hqp ▸ hq)
    · rw [hs.others q hqp] at hq ⊢
      exact (h.attached q (ho q hqp hoq) hq).congr (hs.dirs q hqp hq) fun k _ => hs.keys k
  idle q hq := by
    by_cases hqp : q = p
    · exact hqp ▸ hidle (hqp ▸ hq)
    · rw [hs.others q hqp] at hq ⊢
      exact h.idle q hq
  counted k := by
    have h1 := tally_change (attachment k) s.proc s'.proc p hs.others
    have h2 := hs.refcount k
    have h3 := h.counted k
    omega
  bound k := by
    rw [(hs.keys k).1]
    exact h.bound k
  full k hk j hj := by
    rw [(hs.keys k).1] at hj
    rw [(hs.keys k).2]
    by_cases h0 : (s.spages k).refcount = 0
    · -- the only new reference is that of `p`
      refine hfull k h0 (fun hzero => hk ?_) j hj
      have h1 := hs.refcount k
      rw [attachment, attachment, hzero, if_neg (not_not.mpr (h.refcount_eq_zero h0 p))] at h1
      simpa [h0] using h1
    · exact h.full k h0 j hj

theorem InvBut.step (h : InvBut o s) (hs : OwnStep p s s')
    (huses : ∀ f, s'.freelist.count f + (ownFrames s' (s'.proc p)).count f ≤
      s.freelist.count f + (ownFrames s (s.proc p)).count f)
    (hregion : (s'.proc p).state ≠ .UNUSED → Region s' (s'.proc p))
    (ho : ∀ q, q ≠ p → o' ≠ some q → o ≠ some q)
    (hattached : o' ≠ some p → (s'.proc p).state ≠ .UNUSED → Attached s' (s'.proc p))
    (hidle : (s'.proc p).state ≠ .RUNNABLE → ∀ k, (s'.proc p).key_addresses k = 0)
    (hfull : ∀ k, (s.spages k).refcount = 0 → (s'.proc p).key_addresses k ≠ 0 →
      ∀ j < (s.spages k).N, (s.spages k).addr j ≠ 0) : InvBut o' s' :=
  h.stepTaking [] hs (fun f => by rw [List.count_nil, Nat.add_zero]; exact h.single f) nofun
    (fun f => by rw [List.count_nil, Nat.add_zero]; exact huses f) hregion ho hattached hidle hfull

/-! ## A key that nobody has -/

/-- The pages of `key` change, and nobody has them. -/
structure KeyStep (key : Key) (s s' : Kernel) : Prop where
  kend : s'.kend = s.kend
  proc : s'.proc = s.proc
  dir : s'.dir = s.dir
  others : ∀ k, k ≠ key → s'.spages k = s.spages k
  unused : (s.spages key).refcount = 0
  refcount : (s'.spages key).refcount = 0
  bound : (s'.spages key).N ≤ MAX_SHARED_PAGES_PER_KEY
  count : ∀ f, s'.freelist.count f + (keyFrames (s'.spages key)).count f ≤
    s.freelist.count f + (keyFrames (s.spages key)).count f

theorem KeyStep.trans {t : Kernel} (h : KeyStep key s s') (h' : KeyStep key s' t) :
    KeyStep key s t where
  kend := h'.kend.trans h.kend
  proc := h'.proc.trans h.proc
  dir := h'.dir.trans h.dir
  others k hk := (h'.others k hk).trans (h.others k hk)
  unused := h.unused
  refcount := h'.refcount
  bound := h'.bound
  count f := Nat.le_trans (h'.count f) (h.count f)

theorem KeyStep.uses_le (h : KeyStep key s s') (f : Frame) : uses s' f ≤ uses s f := by
  have h1 := uses_rekey s s' key
    (fun q => ownFrames_congr (congrFun h.proc q) fun _ => by rw [h.dir])
    (fun k hk => by rw [h.others k hk]) f
  have h2 := h.count f
  omega

theorem InvBut.rekey (h : InvBut o s) (hs : KeyStep key s s') : InvBut o s' := by
  have hkeys : ∀ q k, (s.proc q).key_addresses k ≠ 0 →
      (s'.spages k).N = (s.spages k).N ∧ (s'.spages k).addr = (s.spages k).addr := by
    intro q k hk
    have hne : k ≠ key := fun he => hk (he ▸ h.refcount_eq_zero hs.unused q)
    rw [hs.others k hne]
    exact ⟨rfl, rfl⟩
  have huses := hs.uses_le
  exact {
    kend_pos := by rw [hs.kend]; exact h.kend_pos
    single := fun f => Nat.le_trans (huses f) (h.single f)
    valid := fun f hf => by
      rw [ValidFrame, hs.kend]
      exact h.valid f (Nat.lt_of_lt_of_le hf (huses f))
    region := fun q hq => by
      rw [hs.proc] at hq ⊢
      exact (h.region q hq).congr (by rw [hs.dir]) (hkeys q)
    attached := fun q ho hq => by
      rw [hs.proc] at hq ⊢
      exact (h.attached q ho hq).congr (by rw [hs.dir]) (hkeys q)
    idle := fun q hq => by
      rw [hs.proc] at hq ⊢
      exact h.idle q hq
    counted := fun k => by
      rw [hs.proc]
      by_cases hk : k = key
      · rw [hk, hs.refcount, ← hs.unused]
        exact h.counted key
      · rw [hs.others k hk]
        exact h.counted k
    bound := fun k => by
      by_cases hk : k = key
      · exact hk ▸ hs.bound
      · rw [hs.others k hk]
        exact h.bound k
    full := fun k hne j hj => by
      by_cases hk : k = key
      · exact absurd hs.refcount (hk ▸ hne)
      · rw [hs.others k hk] at hne hj ⊢
        exact h.full k hne j hj }

/-! ## Changes that the invariant does not see -/

/-- The fields of a process that the invariant is about. -/
structure SameSpace (x y : Proc) : Prop where
  unused : x.state = .UNUSED ↔ y.state = .UNUSED
  runnable : x.state = .RUNNABLE ↔ y.state = .RUNNABLE
  sz : x.sz = y.sz
  pgdir : x.pgdir = y.pgdir
  kstack : x.kstack = y.kstack
  key_addresses : x.key_addresses = y.key_addresses
  current_top : x.current_top = y.current_top

theorem SameSpace.refl (x : Proc) : SameSpace x x := ⟨.rfl, .rfl, rfl, rfl, rfl, rfl, rfl⟩

theorem InvBut.relabel (h : InvBut o s) (hkend : s'.kend = s.kend)
    (hspages : s'.spages = s.spages) (hdir : s'.dir = s.dir)
    (hfree : ∀ f, s'.freelist.count f = s.freelist.count f)
    (hproc : ∀ q, SameSpace (s'.proc q) (s.proc q)) : InvBut o s' := by
  have hown : ∀ q, ownFrames s' (s'.proc q) = ownFrames s (s.proc q) := fun q => by
    unfold ownFrames
    simp only [(hproc q).unused, (hproc q).pgdir, (hproc q).kstack, (hproc q).current_top, hdir]
  have huses : ∀ f, uses s' f = uses s f := fun f => by
    unfold uses
    rw [hfree f, funext hown, hspages]
  have hregion : ∀ q, Region s (s.proc q) → Region s' (s'.proc q) := fun q hr => by
    have hp := hproc q
    exact {
      sz_pos := by rw [hp.sz]; exact hr.sz_pos
      aligned := by rw [hp.current_top]; exact hr.aligned
      apart := by rw [hp.sz, hp.current_top]; exact hr.apart
      top_le := by rw [hp.current_top]; exact hr.top_le
      gap := by rw [hp.sz, hp.current_top, hp.pgdir, hdir]; exact hr.gap
      above := by rw [hp.pgdir, hdir]; exact hr.above
      covered := by rw [hp.current_top, hp.pgdir, hdir, hp.key_addresses, hspages]; exact hr.covered }
  have hattached : ∀ q, Attached s (s.proc q) → Attached s' (s'.proc q) := fun q ha => by
    have hp := hproc q
    exact {
      address := by rw [hp.key_addresses, hp.current_top]; exact ha.address
      mapped := by rw [hp.key_addresses, hp.pgdir, hdir, hspages]; exact ha.mapped }
  exact {
    kend_pos := by rw [hkend]; exact h.kend_pos
    single := fun f => by rw [huses f]; exact h.single f
    valid := fun f hf => by
      rw [ValidFrame, hkend]
      exact h.valid f (by rw [← huses f]; exact hf)
    region := fun q hq => hregion q (h.region q fun hu => hq ((hproc q).unused.mpr hu))
    attached := fun q ho hq => hattached q (h.attached q ho fun hu => hq ((hproc q).unused.mpr hu))
    idle := fun q hq k => by
      rw [(hproc q).key_addresses]
      exact h.idle q (fun hr => hq ((hproc q).runnable.mpr hr)) k
    counted := fun k => by
      rw [hspages, h.counted k]
      unfold tally attachment
      simp only [(hproc _).key_addresses]
    bound := by rw [hspages]; exact h.bound
    full := by rw [hspages]; exact h.full }

theorem InvBut.restored (h : InvBut o s) (hr : Restored s s') : InvBut o s' :=
  h.relabel hr.same.kend hr.same.spages hr.dir (fun f => hr.freelist.count_eq f) fun q => by
    rw [hr.same.proc]
    exact .refl _

/-- Frames of the free list may be lost, and their directories written. -/
theorem InvBut.lose (h : InvBut o s) (hkend : s'.kend = s.kend) (hspages : s'.spages = s.spages)
    (hproc : s'.proc = s.proc) (hdir : ∀ d, d ∉ s.freelist → s'.dir d = s.dir d)
    (hfree : ∀ f, s'.freelist.count f ≤ s.freelist.count f) : InvBut o s' := by
  have hdirs : ∀ q, (s.proc q).state ≠ .UNUSED → s'.dir (s.proc q).pgdir = s.dir (s.proc q).pgdir :=
    fun q hq => hdir _ (h.pgdir_not_free hq)
  have hkeys : ∀ k, (s'.spages k).N = (s.spages k).N ∧ (s'.spages k).addr = (s.spages k).addr :=
    fun k => by rw [hspages]; exact ⟨rfl, rfl⟩
  refine h.step (p := 0) ⟨hkend, hkeys, fun k => by rw [hspages, hproc],
    fun q _ => by rw [hproc], fun q _ hq => hdirs q hq⟩ (fun f => ?_) (fun hq => ?_)
    (fun _ _ ho => ho) (fun ho hq => ?_) (fun hq => ?_) fun k h0 hk => ?_
  · rw [ownFrames_congr (congrFun hproc 0) (hdirs 0)]
    exact Nat.add_le_add_right (hfree f) _
  · rw [hproc] at hq ⊢
    exact (h.region 0 hq).congr (hdirs 0 hq) fun k _ => hkeys k
  · rw [hproc] at hq ⊢
    exact (h.attached 0 ho hq).congr (hdirs 0 hq) fun k _ => hkeys k
  · rw [hproc] at hq ⊢
    exact h.idle 0 hq
  · rw [hproc] at hk
    exact absurd (h.refcount_eq_zero h0 0) hk

end

end IntroToOS.SharedMemory

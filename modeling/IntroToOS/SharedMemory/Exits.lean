import IntroToOS.SharedMemory.Detach

/-! # Leaving

`exit` detaches the shared pages, and `wait` gives back the stack and the address space of a child
that has done so: what is freed then is the memory of that child alone.
-/

namespace IntroToOS.SharedMemory
open Lib
set_option autoImplicit false

section
variable {s t u : Kernel} {p q : ProcId} {o : Option ProcId}

/-! ## Freeing an address space -/

/-- Without shared pages nothing is mapped from the shared region on. -/
theorem Region.bare {x : Proc} (h : Region s x) (hgiven : ∀ k, x.key_addresses k = 0) :
    ∀ v, x.current_top / PGSIZE ≤ v → (s.dir x.pgdir).pte v = none := by
  intro v hv
  by_contra hsome
  obtain ⟨f, hf⟩ := Option.ne_none_iff_exists'.mp hsome
  obtain ⟨k, -, hk, -⟩ := h.covered v f hv hf
  exact hk (hgiven k)

/-- The address space of a process without shared pages is freed: it is all that the process has
but for its stack. -/
theorem freevm_own (h : InvBut o s) (hp : (s.proc p).state ≠ .UNUSED)
    (hgiven : ∀ k, (s.proc p).key_addresses k = 0) (hkend : u.kend = s.kend)
    (hdir : u.dir = s.dir) :
    ∃ t, freevm u (s.proc p).pgdir = .ok t ∧ SameProcs u t ∧
      (∀ d, d ≠ (s.proc p).pgdir → t.dir d = u.dir d) ∧
      ∀ f, t.freelist.count f + [(s.proc p).kstack].count f =
        u.freelist.count f + (ownFrames s (s.proc p)).count f := by
  have hregion := h.region p hp
  have hwin : window (s.dir (s.proc p).pgdir).pte 0 userPages =
      window (s.dir (s.proc p).pgdir).pte 0 ((s.proc p).current_top / PGSIZE) :=
    window_of_le hregion.top_pages_le fun x h1 _ => hregion.bare hgiven x (by omega)
  have hvalid : ∀ f, f ∈ ownFrames s (s.proc p) → ValidFrame u f := fun f hf => by
    rw [ValidFrame, hkend]
    exact h.valid_own hf
  obtain ⟨t, ht, hfrees⟩ := freevm_spec (s := u) (d := (s.proc p).pgdir)
    (h.ne_zero (h.valid_own (pgdir_mem_own hp))) (hvalid _ (pgdir_mem_own hp))
    (fun f hf => hvalid f (table_mem_own hp (by rw [hdir] at hf; exact hf)))
    (fun f hf => by
      rw [hdir, hwin, mem_window] at hf
      obtain ⟨x, hx, hf⟩ := hf
      exact hvalid f (heap_mem_own hp (by omega) hf))
  refine ⟨t, ht, hfrees.same, hfrees.others, fun f => ?_⟩
  have hcount := hfrees.freelist.count_eq f
  rw [hdir, hwin] at hcount
  rw [hcount, ownFrames_of_used hp]
  simp only [List.count_append, List.count_cons, List.count_nil]
  omega

/-! ## `exit`, `wait` and `kill` -/

theorem reparent_inv (h : Inv s) (p : ProcId) : Inv (reparent s p) := by
  refine h.relabel rfl rfl rfl (fun _ => rfl) fun q => ?_
  show SameSpace (if (s.proc q).parent = some p then { s.proc q with parent := s.initproc }
    else s.proc q) (s.proc q)
  split
  · exact ⟨.rfl, .rfl, rfl, rfl, rfl, rfl, rfl⟩
  · exact .refl _

theorem zombie_inv (h : Inv s) (hp : (s.proc p).state ≠ .UNUSED)
    (hgiven : ∀ k, (s.proc p).key_addresses k = 0) :
    Inv (s.setProc p { s.proc p with state := .ZOMBIE }) := by
  have hregion := h.region p hp
  have hproc : (s.setProc p { s.proc p with state := .ZOMBIE }).proc p =
      { s.proc p with state := .ZOMBIE } := setProc_self
  have hothers : ∀ q, q ≠ p → (s.setProc p { s.proc p with state := .ZOMBIE }).proc q = s.proc q :=
    fun q hq => setProc_of_ne hq
  refine h.step (p := p) ⟨rfl, fun k => ⟨rfl, rfl⟩, fun k => ?_, hothers, fun _ _ _ => rfl⟩
    (fun f => ?_) (fun _ => ?_) (fun _ _ ho => ho) (fun _ _ => ?_) (fun _ k => ?_)
    fun k _ hk => ?_
  · rw [hproc]
    rfl
  · rw [hproc, ownFrames_of_used hp, ownFrames_of_used (x := { s.proc p with state := .ZOMBIE })
      (by simp)]
    exact Nat.le_refl _
  · rw [hproc]
    exact ⟨hregion.sz_pos, hregion.aligned, hregion.apart, hregion.top_le, hregion.gap,
      hregion.above, hregion.covered⟩
  · rw [hproc]
    exact ⟨fun k hk => absurd (hgiven k) hk, fun k _ hk => absurd (hgiven k) hk⟩
  · rw [hproc]
    exact hgiven k
  · rw [hproc] at hk
    exact absurd (hgiven k) hk

theorem exit_inv (h : Inv s) (hp : (s.proc p).state ≠ .UNUSED) :
    Ends (exit s p) (fun r => Inv r.1 ∧ (Neat s → Neat r.1))
      fun e => e = .initExiting ∨ e = .kfree ∧ ¬ Neat s := by
  unfold exit
  by_cases hinit : s.initproc = some p
  · rw [if_pos hinit]
    exact .inl rfl
  · rw [if_neg hinit]
    have hdetach := ends_iff.mp (shmdt_inv h hp)
    refine Ends.bind (ends_iff.mpr ⟨hdetach.1, fun e he => .inr (hdetach.2 e he)⟩) fun t ht => ?_
    -- the parent field of `p` may change, and nothing else of it
    have hself : SameSpace ((reparent t p).proc p) (t.proc p) := by
      show SameSpace (if (t.proc p).parent = some p then { t.proc p with parent := t.initproc }
        else t.proc p) (t.proc p)
      split
      · exact ⟨.rfl, .rfl, rfl, rfl, rfl, rfl, rfl⟩
      · exact .refl _
    refine ⟨zombie_inv (reparent_inv ht.inv p) ?_ fun k => ?_, ht.neat⟩
    · rw [Ne, hself.unused, ht.state]
      exact hp
    · rw [hself.key_addresses]
      exact ht.given k

/-- The slot of a zombie is given back with its stack and its address space. -/
theorem reap_inv (h : Inv s) (hq : (s.proc q).state = .ZOMBIE) :
    ∃ t, (do
        let s ← kfree s (s.proc q).kstack
        freevm (s.setProc q { s.proc q with kstack := 0 }) (s.proc q).pgdir) = .ok t ∧
      t.spages = s.spages ∧
      Inv (t.setProc q { t.proc q with state := .UNUSED, pid := 0, parent := none, killed := false }) := by
  have hused : (s.proc q).state ≠ .UNUSED := by rw [hq]; decide
  have hgiven : ∀ k, (s.proc q).key_addresses k = 0 := h.idle q (by rw [hq]; decide)
  obtain ⟨u, hu, hback⟩ := kfree_spec (h.valid_own (p := q) (kstack_mem_own hused))
  have hup : u.proc q = s.proc q := by rw [hback.same.proc]
  obtain ⟨t, ht, hsame, hdirs, hcount⟩ := freevm_own (u := u.setProc q { u.proc q with kstack := 0 })
    h hused hgiven hback.same.kend hback.dir
  have hspages : t.spages = s.spages := hsame.spages.trans hback.same.spages
  refine ⟨t, ?_, hspages, ?_⟩
  · rw [hu, ok_bind]
    have hpg : (u.proc q).pgdir = (s.proc q).pgdir := by rw [hup]
    rw [hpg]
    exact ht
  have htq : t.proc q = { s.proc q with kstack := 0 } := by
    rw [hsame.proc, setProc_self, hup]
  have hproc : (t.setProc q { t.proc q with
      state := .UNUSED, pid := 0, parent := none, killed := false }).proc q = { s.proc q with
        kstack := 0, state := .UNUSED, pid := 0, parent := none, killed := false } := by
    rw [setProc_self, htq]
  have hothers : ∀ r, r ≠ q → (t.setProc q { t.proc q with
      state := .UNUSED, pid := 0, parent := none, killed := false }).proc r = s.proc r := by
    intro r hr
    rw [setProc_of_ne hr, hsame.proc, setProc_of_ne hr, hback.same.proc]
  refine h.step (p := q) ⟨hsame.kend.trans hback.same.kend, fun k => ?_, fun k => ?_, hothers,
    fun r hr hu => ?_⟩ (fun f => ?_) (fun hun => ?_) (fun _ _ ho => ho) (fun _ hun => ?_)
    (fun _ k => ?_) fun k _ hk => ?_
  · show (t.spages k).N = _ ∧ (t.spages k).addr = _
    rw [hspages]
    exact ⟨rfl, rfl⟩
  · rw [hproc, show ((t.setProc q _).spages k).refcount = (s.spages k).refcount by
      show (t.spages k).refcount = _
      rw [hspages]]
    rfl
  · exact (hdirs _ (h.pgdir_ne hr.symm hused hu)).trans (congrFun hback.dir _)
  · have hcount := hcount f
    have hfree : (u.setProc q { u.proc q with kstack := 0 }).freelist =
        [(s.proc q).kstack] ++ s.freelist := hback.freelist
    rw [hfree, List.count_append] at hcount
    rw [hproc, ownFrames_of_unused (x := { s.proc q with
        kstack := 0, state := .UNUSED, pid := 0, parent := none, killed := false }) rfl,
      show (t.setProc q _).freelist = t.freelist from rfl, List.count_nil]
    omega
  · rw [hproc] at hun
    exact absurd rfl hun
  · rw [hproc] at hun
    exact absurd rfl hun
  · rw [hproc]
    exact hgiven k
  · rw [hproc] at hk
    exact absurd (hgiven k) hk

theorem wait_inv (h : Inv s) (p : ProcId) :
    Ends (wait s p) (fun r => Inv r.1 ∧ (Neat s → Neat r.1)) fun e => e = .sleeps := by
  unfold wait
  cases hfind : zombieChild s p with
  | none =>
      simp only
      split
      · exact ⟨h, fun hneat => hneat⟩
      · rfl
  | some q =>
      have hfound := List.find?_some hfind
      have hq : (s.proc q).state = .ZOMBIE := (of_decide_eq_true hfound).2
      obtain ⟨t, ht, hspages, hinv⟩ := reap_inv h hq
      obtain ⟨u, hu, ht⟩ := bind_eq_ok.mp ht
      simp only
      rw [hu, ok_bind, ht, ok_bind]
      refine ⟨hinv, fun hneat k hk => ?_⟩
      have hk' : (t.spages k).refcount = 0 := hk
      show (t.spages k).N = 0
      rw [hspages] at hk' ⊢
      exact hneat k hk'

theorem kill_inv (h : Inv s) (pid : ℤ) :
    ∃ r, kill s pid = .ok r ∧ Inv r.1 ∧ (Neat s → Neat r.1) := by
  unfold kill
  split
  · exact ⟨_, rfl, h, fun hneat => hneat⟩
  · next q _ =>
    refine ⟨_, rfl, h.relabel rfl rfl rfl (fun _ => rfl) fun r => ?_, fun hneat => hneat⟩
    by_cases hr : r = q
    · rw [hr]
      simp only [setProc_self]
      exact ⟨.rfl, .rfl, rfl, rfl, rfl, rfl, rfl⟩
    · simp only [setProc_of_ne hr]
      exact .refl _

end

end IntroToOS.SharedMemory

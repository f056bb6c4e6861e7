import IntroToOS.SharedMemory.Growproc

/-! # Out of memory

A `fork` or an `exec` that fails leaves everything as it was, the free list included, except when
`kalloc` fails for one of the page tables of a new page directory: `setupkvm` then returns without
giving back the directory and the page tables it has (`outOfMemory_iff`).
-/

namespace IntroToOS.SharedMemory
open Lib
set_option autoImplicit false

/-- Nothing has changed but the slot of the child that failed. -/
structure KeepsAll (s s' : Kernel) (slot : Option ProcId) : Prop where
  frames : s'.freelist.Perm s.freelist
  others : ∀ q, slot ≠ some q → s'.proc q = s.proc q
  unused : ∀ q, slot = some q → (s'.proc q).state = .UNUSED
  spages : s'.spages = s.spages
  dir : ∀ d, d ∉ s.freelist → s'.dir d = s.dir d

/-- The frames run out behind the kernel stack and the directory, and before the last page table. -/
def ForkLoses (s : Kernel) : Prop :=
  (findUnused s).isSome ∧ 2 ≤ s.freelist.length ∧ s.freelist.length ≤ kmap.length + 1

/-- The file is an executable, and the frames run out behind the directory and before the last page
table. -/
def ExecLoses (s : Kernel) (file : Option File) : Prop :=
  (file.bind readElf).isSome ∧ 1 ≤ s.freelist.length ∧ s.freelist.length ≤ kmap.length

instance (s : Kernel) : Decidable (ForkLoses s) := inferInstanceAs (Decidable (_ ∧ _))

instance (s : Kernel) (file : Option File) : Decidable (ExecLoses s file) :=
  inferInstanceAs (Decidable (_ ∧ _))

section
variable {s s' t : Kernel} {p : ProcId} {K : KernelStore} {file : Option File}
  {argv : List (List Byte)} {ts : List Frame} {d : Frame}

/-! ## `fork` -/

theorem forkChild_of_fork (hf : fork s p = .ok (s', -1)) : forkChild s p = .ok (s', none) := by
  obtain ⟨⟨t, onp⟩, ht, hf⟩ := bind_eq_ok.mp hf
  cases onp with
  | none =>
      obtain ⟨rfl, -⟩ := Prod.mk.inj (Except.ok.inj hf)
      exact ht
  | some np =>
      have hpid : ((t.proc np).pid : ℤ) = -1 := (Prod.mk.inj (Except.ok.inj hf)).2
      omega

theorem ForkMakes.length_le {np : ProcId} {kstack : Frame} {fs : List Frame}
    (h : ForkMakes s p np t d kstack ts fs) : kmap.length + 2 ≤ s.freelist.length := by
  rw [h.freelist.length_eq]
  simp only [List.length_append, List.length_cons, h.tables_length]
  omega

theorem fork_keeps_iff (h : CanFork s p) :
    (∀ s', fork s p = .ok (s', -1) → KeepsAll s s' (findUnused s)) ↔ ¬ ForkLoses s := by
  have hends := ends_iff.mp (forkChild_spec h)
  constructor
  · rintro hkeeps ⟨hslot, h2, h13⟩
    obtain ⟨np, hnp⟩ := Option.isSome_iff_exists.mp hslot
    cases hres : forkChild s p with
    | error e => exact absurd (hends.2 e hres).2.1 (Nat.not_lt.mpr h13)
    | ok r =>
      obtain ⟨t, onp⟩ := r
      have hr := hends.1 _ hres
      cases onp with
      | some np =>
        obtain ⟨d, kstack, ts, fs, hmakes⟩ := hr
        exact absurd hmakes.length_le (by omega)
      | none =>
        have hfork : fork s p = .ok (t, -1) := by rw [fork, hres]; rfl
        have hperm := (hkeeps t hfork).frames.length_eq
        rw [ForkFails.lost hr ⟨np, hnp⟩ h2 h13] at hperm
        omega
  · intro hno s' hf
    have hfails : ForkFails s s' := hends.1 _ (forkChild_of_fork hf)
    refine ⟨hfails.kept fun q hq => ?_, hfails.others, fun q hq => (hfails.unused q hq).1,
      hfails.spages, hfails.dir⟩
    by_contra hlen
    push Not at hlen
    exact hno ⟨by rw [hq]; rfl, hlen⟩

/-! ## `exec` -/

theorem Returned.keepsAll (h : Returned s s') : KeepsAll s s' none :=
  ⟨h.freelist, fun q _ => congrFun h.same.proc q, nofun, h.same.spages, h.others⟩

/-- A failed `exec` has not got as far as the page directory, has run out of frames for it, or has
given everything back. -/
theorem exec_failed (hg : GoodList s) (htop : (s.proc p).current_top ≤ USERTOP)
    (hsafe : ∀ f ∈ file, KernelSafe s p f) (he : exec K s p file argv = .ok (s', -1)) :
    s' = s ∧ (file.bind readElf).isSome = false ∨
      (file.bind readElf).isSome ∧ OutOfFrames s s' ∨
      kmap.length < s.freelist.length ∧ Returned s s' := by
  unfold exec at he
  cases file with
  | none => exact .inl ⟨(Prod.mk.inj (Except.ok.inj he)).1.symm, rfl⟩
  | some f =>
      have hbind : (some f).bind readElf = readElf f := rfl
      rw [hbind]
      simp only at he
      cases helf : readElf f with
      | none =>
          rw [helf] at he
          exact .inl ⟨(Prod.mk.inj (Except.ok.inj he)).1.symm, rfl⟩
      | some elf =>
          rw [helf] at he
          simp only at he
          cases hset : setupkvm s with
          | mk t od =>
            rw [hset] at he
            cases od with
            | none =>
                obtain ⟨rfl, -⟩ := Prod.mk.inj (Except.ok.inj he)
                exact .inr (.inl ⟨rfl, setupkvm_none hset⟩)
            | some d =>
                obtain ⟨ts, hnew⟩ := setupkvm_some hset
                have htop' : (t.proc p).current_top ≤ USERTOP := by
                  rw [hnew.same.proc]
                  exact htop
                have hreach : ¬ ReachesKernel f (t.proc p).current_top t.freelist.length
                    elf.phnum elf.phoff 0 := by
                  rw [hnew.same.proc, hnew.length_rest]
                  exact hsafe f rfl elf helf
                obtain ⟨⟨u, osz⟩, hbuild, he⟩ := bind_eq_ok.mp he
                obtain ⟨⟨fs, hrem⟩, -⟩ := (ends_iff.mp (buildImage_spec (K := K)
                  hreach (hnew.goodList hg) hnew.pte htop' argv)).1 _ hbuild
                cases osz with
                | none =>
                    obtain ⟨w, hw, hret⟩ := hnew.giveUp hg hrem.places hrem.length
                    simp only at he
                    rw [hw] at he
                    obtain ⟨rfl, -⟩ := Prod.mk.inj (Except.ok.inj he)
                    exact .inr (.inr ⟨hnew.lt_length, hret⟩)
                | some sz =>
                    -- a committed image returns 0
                    obtain ⟨v, -, he⟩ := bind_eq_ok.mp he
                    obtain ⟨w, -, he⟩ := bind_eq_ok.mp he
                    exact absurd (Prod.mk.inj (Except.ok.inj he)).2 (by decide)

theorem exec_of_outOfFrames (K : KernelStore) (p : ProcId) (argv : List (List Byte))
    (hrun : (file.bind readElf).isSome)
    (hlen : s.freelist.length ≤ kmap.length) :
    ∃ t, exec K s p file argv = .ok (t, -1) ∧ OutOfFrames s t := by
  obtain ⟨elf, hfile⟩ := Option.isSome_iff_exists.mp hrun
  obtain ⟨f, rfl, helf⟩ := Option.bind_eq_some_iff.mp hfile
  cases hset : setupkvm s with
  | mk t od =>
    cases od with
    | none =>
        refine ⟨t, ?_, setupkvm_none hset⟩
        simp only [exec, helf, hset]
    | some d =>
        obtain ⟨ts, hnew⟩ := setupkvm_some hset
        exact absurd hnew.lt_length (Nat.not_lt.mpr hlen)

theorem exec_keeps_iff (hg : GoodList s) (htop : (s.proc p).current_top ≤ USERTOP)
    (hsafe : ∀ f ∈ file, KernelSafe s p f) :
    (∀ s', exec K s p file argv = .ok (s', -1) → KeepsAll s s' none) ↔ ¬ ExecLoses s file := by
  constructor
  · rintro hkeeps ⟨hrun, h1, h12⟩
    obtain ⟨t, ht, hout⟩ := exec_of_outOfFrames K p argv hrun h12
    have hperm := (hkeeps t ht).frames.length_eq
    rw [hout.freelist] at hperm
    exact absurd hperm (by simp only [List.length_nil]; omega)
  · intro hno s' he
    rcases exec_failed hg htop hsafe he with ⟨rfl, -⟩ | ⟨hrun, hout⟩ | ⟨-, hret⟩
    · exact (Returned.refl _).keepsAll
    · -- the free list was empty from the beginning
      have hnil : s.freelist = [] := by
        have hlen := hout.length
        refine List.length_eq_zero_iff.mp ?_
        by_contra hne
        exact hno ⟨hrun, by omega, by omega⟩
      refine ⟨?_, fun q _ => congrFun hout.same.proc q, nofun,
        hout.same.spages, hout.others⟩
      rw [hout.freelist, hnil]
    · exact hret.keepsAll

/-- When memory runs out, a failed `fork` or `exec` leaves everything as it was, unless it runs out
among the page tables of a new directory. -/
theorem outOfMemory_iff (h : CanFork s p) (hsafe : ∀ f ∈ file, KernelSafe s p f) :
    ((∀ s', fork s p = .ok (s', -1) → KeepsAll s s' (findUnused s)) ↔ ¬ ForkLoses s) ∧
      ((∀ s', exec K s p file argv = .ok (s', -1) → KeepsAll s s' none) ↔ ¬ ExecLoses s file) :=
  ⟨fork_keeps_iff h, exec_keeps_iff h.good h.top hsafe⟩

end

/-- Memory for the directory of an image and its first page, and none for its stack. -/
def fewFrames : Kernel := { onePage with freelist := (List.range' 401 14).reverse }

theorem fewFrames_canFork : CanFork fewFrames 0 :=
  ⟨⟨by decide, by decide⟩, by decide, by decide, by decide, by decide⟩

theorem outOfMemory_fewFrames :
    (exec (fun _ _ s => s) fewFrames 0 (some (fileOf (oneSegment 0 4))) []).toOption.map Prod.snd =
      some (-1) ∧
    ((∀ s', fork fewFrames 0 = .ok (s', -1) → KeepsAll fewFrames s' (findUnused fewFrames)) ↔
        ¬ ForkLoses fewFrames) ∧
      ((∀ s', exec (fun _ _ s => s) fewFrames 0 (some (fileOf (oneSegment 0 4))) [] = .ok (s', -1) →
        KeepsAll fewFrames s' none) ↔ ¬ ExecLoses fewFrames (some (fileOf (oneSegment 0 4)))) :=
  ⟨by decide +kernel, outOfMemory_iff fewFrames_canFork (by decide +kernel)⟩

/-- With five frames left, the child's stack comes back and the other four frames are lost. -/
theorem fork_loses_frames : CanFork onePage 0 ∧
    (fork onePage 0).toOption.map (fun r => (r.2, r.1.freelist)) = some (-1, [405]) ∧
    ¬ ∀ s', fork onePage 0 = .ok (s', -1) → KeepsAll onePage s' (findUnused onePage) := by
  have hfork : (fork onePage 0).toOption.map (fun r => (r.2, r.1.freelist)) = some (-1, [405]) := by
    decide +kernel
  refine ⟨onePage_exact.canFork, hfork, fun hkeeps => ?_⟩
  obtain ⟨⟨t, ret⟩, ht, hr⟩ := Option.map_eq_some_iff.mp hfork
  obtain ⟨rfl, hfree⟩ := Prod.mk.inj hr
  have hperm := (hkeeps t (toOption_eq_some.mp ht)).frames.length_eq
  have hlen : t.freelist.length = 1 := by rw [hfree]; rfl
  rw [hlen] at hperm
  exact absurd hperm (by decide)

end IntroToOS.SharedMemory

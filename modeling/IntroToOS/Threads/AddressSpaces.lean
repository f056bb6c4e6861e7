import IntroToOS.Lib.Fold
import IntroToOS.Lib.Run
import IntroToOS.Threads.Kernel

/-! # Address spaces

`freevm` is called by `wait` for the zombie it reaps and by `exec` for the old image, whoever else
uses the page directory. When the reaped zombie, and the caller of `exec`, is the last user of its
page directory (`FreesLast`), no page directory in use is ever freed, and none is freed twice.
-/

namespace IntroToOS.Threads
open Lib
set_option autoImplicit false

/-- Every process in the table has a page directory that has not been freed. -/
structure SpaceInv (s : Kernel) : Prop where
  used : ∀ p, (s.proc p).state ≠ .UNUSED →
    ∃ d, (s.proc p).pgdir = some d ∧ d < s.nextDir ∧ d ∉ s.freed
  lt : ∀ d ∈ s.freed, d < s.nextDir
  nodup : s.freed.Nodup

/-- A step that leaves page directories alone and takes no slot of the table into use. -/
structure SameSpaces (s s' : Kernel) : Prop where
  nextDir : s'.nextDir = s.nextDir
  freed : s'.freed = s.freed
  used : ∀ p, (s'.proc p).state ≠ .UNUSED →
    (s.proc p).state ≠ .UNUSED ∧ (s'.proc p).pgdir = (s.proc p).pgdir

section
variable {s s' t : Kernel} {p q : ProcId}

theorem SameSpaces.refl (s : Kernel) : SameSpaces s s := ⟨rfl, rfl, fun _ h => ⟨h, rfl⟩⟩

theorem SameSpaces.trans (h : SameSpaces s s') (h' : SameSpaces s' t) : SameSpaces s t := by
  refine ⟨h'.nextDir.trans h.nextDir, h'.freed.trans h.freed, fun p hp => ?_⟩
  obtain ⟨hp', hd'⟩ := h'.used p hp
  obtain ⟨hp, hd⟩ := h.used p hp'
  exact ⟨hp, hd'.trans hd⟩

theorem SpaceInv.same (h : SpaceInv s) (hs : SameSpaces s s') : SpaceInv s' where
  used := by
    intro p hp
    obtain ⟨hp, hd⟩ := hs.used p hp
    obtain ⟨d, hpd, hlt, hfree⟩ := h.used p hp
    exact ⟨d, hd.trans hpd, hs.nextDir ▸ hlt, hs.freed ▸ hfree⟩
  lt := by
    rw [hs.freed, hs.nextDir]
    exact h.lt
  nodup := hs.freed ▸ h.nodup

/-- Changing one process. -/
theorem SameSpaces.setProc {x : Proc} (hx : x.state ≠ .UNUSED →
    (s.proc p).state ≠ .UNUSED ∧ x.pgdir = (s.proc p).pgdir) : SameSpaces s (s.setProc p x) where
  nextDir := rfl
  freed := rfl
  used := by
    intro q hq
    by_cases hqp : q = p
    · subst hqp
      simpa [Kernel.setProc] using hx (by simpa [Kernel.setProc] using hq)
    · simpa [Kernel.setProc, hqp] using hq

theorem SameSpaces.setFiles (files : Files) : SameSpaces s (s.setFiles files) :=
  ⟨rfl, rfl, fun _ h => ⟨h, rfl⟩⟩

theorem SameSpaces.wakeup1 (chan : ProcId) : SameSpaces s (wakeup1 s chan) where
  nextDir := rfl
  freed := rfl
  used := by
    intro p hp
    simp only [Threads.wakeup1] at hp ⊢
    split
    · next h =>
      rw [h.1]
      exact ⟨by decide, rfl⟩
    · next h =>
      rw [if_neg h] at hp
      exact ⟨hp, rfl⟩

theorem SameSpaces.reparent (init : ProcId) : SameSpaces s (reparent s p init) := by
  unfold Threads.reparent
  generalize List.finRange NPROC = l
  induction l generalizing s with
  | nil => exact .refl s
  | cons q l ih =>
      rw [List.foldl_cons]
      refine SameSpaces.trans ?_ ih
      split
      · have hset : SameSpaces s (s.setProc q { s.proc q with parent := some init }) :=
          .setProc fun h => ⟨h, rfl⟩
        simp only
        split
        · exact hset.trans (.wakeup1 init)
        · exact hset
      · exact .refl s

/-! ## Taking a slot -/

/-- The table once `allocproc` has found the slot `np`. -/
def Kernel.embryo (s : Kernel) (np : ProcId) : Kernel :=
  { s.setProc np { s.proc np with state := .EMBRYO, pid := s.nextpid } with
    nextpid := s.nextpid + 1 }

theorem findUnused_spec {np : ProcId} (h : findUnused s = some np) :
    (s.proc np).state = .UNUSED := by
  simpa using List.find?_some h

theorem allocproc_some {k : Bool} {np : ProcId} (h : allocproc s k = (s', some np)) :
    (s.proc np).state = .UNUSED ∧ findUnused s = some np ∧ s' = s.embryo np := by
  unfold allocproc at h
  split at h
  · cases h
  · next q hq =>
    cases k with
    | false => cases h
    | true =>
        obtain ⟨rfl, hnp⟩ := Prod.mk.inj h
        obtain rfl := Option.some.inj hnp
        exact ⟨findUnused_spec hq, hq, rfl⟩

theorem allocproc_none {k : Bool} (h : allocproc s k = (s', none)) :
    s' = s ∨ ∃ np, (s.proc np).state = .UNUSED ∧ s' = (s.embryo np).setState np .UNUSED := by
  unfold allocproc at h
  split at h
  · exact .inl (Prod.mk.inj h).1.symm
  · next q hq =>
    cases k with
    | false => exact .inr ⟨q, findUnused_spec hq, (Prod.mk.inj h).1.symm⟩
    | true => cases h

theorem embryo_proc_of_ne {np : ProcId} (h : q ≠ np) : (s.embryo np).proc q = s.proc q := by
  simp [Kernel.embryo, Kernel.setProc, h]

theorem embryo_proc_self (s : Kernel) (np : ProcId) : (s.embryo np).proc np =
    { s.proc np with state := .EMBRYO, pid := s.nextpid } := by
  simp [Kernel.embryo, Kernel.setProc]

/-- The slot is given up again. -/
theorem SameSpaces.abandon {np : ProcId} {u : Kernel} {x : Proc}
    (hu : u.proc = (s.embryo np).proc) (hn : u.nextDir = s.nextDir) (hf : u.freed = s.freed)
    (hx : x.state = .UNUSED) : SameSpaces s (u.setProc np x) where
  nextDir := hn
  freed := hf
  used := by
    intro q hq
    by_cases hqp : q = np
    · subst hqp
      rw [Kernel.setProc_self] at hq
      exact absurd hx hq
    · rw [Kernel.setProc_of_ne hqp, hu, embryo_proc_of_ne hqp] at hq ⊢
      exact ⟨hq, rfl⟩

theorem SameSpaces.allocproc {k : Bool} (h : allocproc s k = (s', none)) : SameSpaces s s' := by
  rcases allocproc_none h with rfl | ⟨np, -, rfl⟩
  · exact .refl _
  · exact .abandon rfl rfl rfl rfl

/-- A new process with a page directory that is in use or fresh. -/
theorem SpaceInv.child (h : SpaceInv s) {np : ProcId} {x : Proc} {d : ℕ}
    (hs : s'.proc = Function.update s.proc np x) (hd : x.pgdir = some d) (hlt : d < s'.nextDir)
    (hn : s.nextDir ≤ s'.nextDir) (hf : s'.freed = s.freed) (hfree : d ∉ s.freed) :
    SpaceInv s' where
  used := by
    intro p hp
    rw [hs] at hp ⊢
    rw [hf]
    by_cases hnp : p = np
    · subst hnp
      rw [Function.update_self]
      exact ⟨d, hd, hlt, hfree⟩
    · rw [Function.update_of_ne hnp] at hp ⊢
      obtain ⟨e, he, helt, hefree⟩ := h.used p hp
      exact ⟨e, he, Nat.lt_of_lt_of_le helt hn, hefree⟩
  lt := by
    intro e he
    rw [hf] at he
    exact Nat.lt_of_lt_of_le (h.lt e he) hn
  nodup := hf ▸ h.nodup

/-! ## Freeing -/

/-- No other process in the table has the page directory of `q`. -/
def LastUser (s : Kernel) (q : ProcId) : Prop :=
  ∀ r, r ≠ q → (s.proc r).state ≠ .UNUSED → (s.proc r).pgdir ≠ (s.proc q).pgdir

instance (s : Kernel) (q : ProcId) : Decidable (LastUser s q) :=
  inferInstanceAs (Decidable (∀ _, _))

/-- The page directory of `q` is freed, and `q` goes on without it. -/
theorem SpaceInv.release (h : SpaceInv s) {d : ℕ} (hq : (s.proc q).state ≠ .UNUSED)
    (hd : (s.proc q).pgdir = some d) (hlast : LastUser s q) (hf : s'.freed = s.freed ++ [d])
    (hn : s.nextDir ≤ s'.nextDir)
    (hother : ∀ r, r ≠ q → (s'.proc r).state ≠ .UNUSED →
      (s.proc r).state ≠ .UNUSED ∧ (s'.proc r).pgdir = (s.proc r).pgdir)
    (hself : (s'.proc q).state = .UNUSED ∨ s.nextDir < s'.nextDir ∧
      (s'.proc q).pgdir = some s.nextDir) : SpaceInv s' := by
  obtain ⟨e, he, hlt, hfree⟩ := h.used q hq
  obtain rfl : d = e := Option.some.inj (hd.symm.trans he)
  constructor
  · intro r hr
    by_cases hrq : r = q
    · subst hrq
      obtain ⟨hlt', hnew⟩ := hself.resolve_left hr
      refine ⟨s.nextDir, hnew, hlt', ?_⟩
      rw [hf, List.mem_append, List.mem_singleton]
      rintro (hmem | heq)
      · exact Nat.lt_irrefl _ (h.lt _ hmem)
      · omega
    · obtain ⟨hr', hpg⟩ := hother r hrq hr
      obtain ⟨c, hc, hclt, hcfree⟩ := h.used r hr'
      refine ⟨c, hpg.trans hc, Nat.lt_of_lt_of_le hclt hn, ?_⟩
      rw [hf, List.mem_append, List.mem_singleton]
      rintro (hmem | rfl)
      · exact hcfree hmem
      · exact hlast r hrq hr' (hc.trans hd.symm)
  · intro c hc
    rw [hf, List.mem_append, List.mem_singleton] at hc
    rcases hc with hc | rfl
    · exact Nat.lt_of_lt_of_le (h.lt c hc) hn
    · exact Nat.lt_of_lt_of_le hlt hn
  · rw [hf, List.nodup_append]
    exact ⟨h.nodup, by simp, fun a ha b hb hab => hfree (by
      rw [List.mem_singleton] at hb
      exact hb ▸ hab ▸ ha)⟩

/-- A page directory that nothing uses yet is made and freed. -/
theorem SpaceInv.discard (h : SpaceInv s) (hf : s'.freed = s.freed ++ [s.nextDir])
    (hn : s'.nextDir = s.nextDir + 1) (hp : s'.proc = s.proc) : SpaceInv s' := by
  constructor
  · intro r hr
    rw [hp] at hr ⊢
    obtain ⟨c, hc, hclt, hcfree⟩ := h.used r hr
    refine ⟨c, hc, by omega, ?_⟩
    rw [hf, List.mem_append, List.mem_singleton]
    rintro (hmem | rfl)
    · exact hcfree hmem
    · exact Nat.lt_irrefl _ hclt
  · intro c hc
    rw [hf, List.mem_append, List.mem_singleton] at hc
    rcases hc with hc | rfl
    · have := h.lt c hc
      omega
    · omega
  · rw [hf, List.nodup_append]
    refine ⟨h.nodup, by simp, fun a ha b hb hab => ?_⟩
    rw [List.mem_singleton] at hb
    subst hb
    exact Nat.lt_irrefl _ (hab ▸ h.lt a ha)

/-! ## The calls -/

theorem namei_found {files files' : Files} {cwd : Option InodeId} {path : Path} {ip : InodeId}
    (h : namei files cwd path = .ok (files', some ip)) : path.found = true := by
  obtain ⟨⟨u, i⟩, -, h⟩ := bind_eq_ok.mp h
  obtain ⟨⟨v, j⟩, -, h⟩ := bind_eq_ok.mp h
  by_contra hf
  simp only [if_neg hf] at h
  obtain ⟨_, -, h⟩ := bind_eq_ok.mp h
  obtain ⟨_, -, h⟩ := bind_eq_ok.mp h
  cases (Prod.mk.inj (Except.ok.inj h)).2

theorem fork_inv {k : Bool} {c : Copy} {r : Reply} (h : SpaceInv s)
    (hf : fork s p k c = .ok (t, r)) : SpaceInv t := by
  unfold fork at hf
  split at hf
  · next u halloc =>
    obtain ⟨rfl, -⟩ := Prod.mk.inj (Except.ok.inj hf)
    exact h.same (.allocproc halloc)
  · next u np halloc =>
    obtain ⟨-, -, rfl⟩ := allocproc_some halloc
    obtain ⟨⟨v, pgdir⟩, hcopy, hf⟩ := bind_eq_ok.mp hf
    cases c with
    | noDir =>
        obtain ⟨rfl, rfl⟩ := Prod.mk.inj (Except.ok.inj hcopy)
        obtain ⟨rfl, -⟩ := Prod.mk.inj (Except.ok.inj hf)
        exact h.same (.abandon rfl rfl rfl rfl)
    | noPage =>
        obtain ⟨rfl, rfl⟩ := Prod.mk.inj (Except.ok.inj hcopy)
        obtain ⟨rfl, -⟩ := Prod.mk.inj (Except.ok.inj hf)
        have hdiscard : SpaceInv { s with
            nextDir := s.nextDir + 1, freed := s.freed ++ [s.nextDir] } := h.discard rfl rfl rfl
        exact hdiscard.same (.abandon rfl rfl rfl rfl)
    | done =>
        obtain ⟨rfl, rfl⟩ := Prod.mk.inj (Except.ok.inj hcopy)
        obtain ⟨⟨files, ofile⟩, -, hf⟩ := bind_eq_ok.mp hf
        obtain ⟨⟨files', cwd⟩, -, hf⟩ := bind_eq_ok.mp hf
        obtain ⟨rfl, -⟩ := Prod.mk.inj (Except.ok.inj hf)
        exact h.child (Function.update_idem ..) rfl (Nat.lt_succ_self _) (Nat.le_succ _) rfl
          fun hmem => Nat.lt_irrefl _ (h.lt _ hmem)

theorem thread_fork_inv {k : Bool} {stack : ℕ} (h : SpaceInv s)
    (hp : (s.proc p).state = .RUNNING) : SpaceInv (thread_fork s p k stack).1 := by
  unfold thread_fork
  split
  · next u halloc => exact h.same (.allocproc halloc)
  · next u np halloc =>
    obtain ⟨hfree, -, rfl⟩ := allocproc_some halloc
    have hne : p ≠ np := by
      rintro rfl
      rw [hp] at hfree
      cases hfree
    obtain ⟨d, hd, hlt, hnot⟩ := h.used p (by rw [hp]; decide)
    refine h.child (Function.update_idem ..) ?_ hlt (Nat.le_refl _) rfl hnot
    show ((s.embryo np).proc p).pgdir = some d
    rw [embryo_proc_of_ne hne]
    exact hd

theorem wakeup1_running (h : (s.proc p).state = .RUNNING) (chan : ProcId) :
    (wakeup1 s chan).proc p = s.proc p := by
  have hno : ¬ ((s.proc p).state = .SLEEPING ∧ (s.proc p).chan = some chan) := by
    rw [h]
    rintro ⟨hs, -⟩
    cases hs
  exact if_neg hno

theorem reparent_running (h : (s.proc p).state = .RUNNING) (init : ProcId) :
    ((reparent s q init).proc p).state = .RUNNING := by
  unfold reparent
  generalize List.finRange NPROC = l
  induction l generalizing s with
  | nil => exact h
  | cons r l ih =>
      rw [List.foldl_cons]
      refine ih ?_
      split
      · have hset : ((s.setProc r { s.proc r with parent := some init }).proc p).state =
            .RUNNING := by
          by_cases hr : p = r
          · subst hr
            rw [Kernel.setProc_self]
            exact h
          · rw [Kernel.setProc_of_ne hr]
            exact h
        simp only
        split
        · rw [wakeup1_running hset]
          exact hset
        · exact hset
      · exact h

theorem zombie_same (h : (s.proc p).state = .RUNNING) : SameSpaces s (s.setState p .ZOMBIE) :=
  .setProc fun _ => ⟨by rw [h]; decide, rfl⟩

theorem exit_same {r : Reply} (hp : (s.proc p).state = .RUNNING)
    (he : exit s p = .ok (t, r)) : SameSpaces s t := by
  unfold exit at he
  split at he
  · cases he
  · next init _ =>
    split at he
    · cases he
    · obtain ⟨⟨files, ofile⟩, -, he⟩ := bind_eq_ok.mp he
      obtain ⟨rfl, -⟩ := Prod.mk.inj (Except.ok.inj he)
      have hclosed : SameSpaces s ((s.setFiles files).setProc p
          { s.proc p with ofile, cwd := none }) :=
        SameSpaces.trans (.setFiles files) (.setProc fun h => ⟨h, rfl⟩)
      have hrun : (((s.setFiles files).setProc p { s.proc p with ofile, cwd := none }).proc p).state =
          .RUNNING := by
        rw [Kernel.setProc_self]
        exact hp
      have hwoken : ∀ u : Kernel, (u.proc p).state = .RUNNING →
          SameSpaces u (wakeupParent u p) ∧ ((wakeupParent u p).proc p).state = .RUNNING := by
        intro u hu
        unfold wakeupParent
        split
        · exact ⟨.refl u, hu⟩
        · rw [wakeup1_running hu]
          exact ⟨.wakeup1 _, hu⟩
      obtain ⟨hsame, hrun'⟩ := hwoken _ hrun
      have hparents := hclosed.trans (hsame.trans (SameSpaces.reparent (p := p) init))
      exact hparents.trans (zombie_same (reparent_running hrun' init))

theorem finish_same : SameSpaces s (finish s p) := .setProc fun h => ⟨h, rfl⟩

theorem sleep_same {c : Blocking} (hp : (s.proc p).state = .RUNNING) :
    SameSpaces s (sleep s p c) := .setProc fun _ => ⟨by rw [hp]; decide, rfl⟩

theorem zombieChild_spec (h : zombieChild s p = some q) :
    (s.proc q).parent = some p ∧ (s.proc q).state = .ZOMBIE := by
  simpa using List.find?_some h

theorem wait_inv {r : Reply} (h : SpaceInv s) (hp : (s.proc p).state = .RUNNING)
    (hlast : ∀ q ∈ zombieChild s p, LastUser s q) (hw : wait s p = .ok (t, r)) : SpaceInv t := by
  unfold wait at hw
  split at hw
  · next q hq =>
    obtain ⟨u, hfree, hw⟩ := bind_eq_ok.mp hw
    obtain ⟨rfl, -⟩ := Prod.mk.inj (Except.ok.inj hw)
    have hz : (s.proc q).state ≠ .UNUSED := by
      rw [(zombieChild_spec hq).2]
      decide
    unfold freevm at hfree
    split at hfree
    · cases hfree
    · next d hd =>
      obtain rfl := Except.ok.inj hfree
      refine SpaceInv.same ?_ finish_same
      refine h.release hz hd (hlast q hq) rfl (Nat.le_refl _) ?_ (.inl ?_)
      · intro r hr hu
        rw [Kernel.setProc_of_ne hr] at hu ⊢
        exact ⟨hu, rfl⟩
      · rw [Kernel.setProc_self]
  · split at hw
    · obtain ⟨rfl, -⟩ := Prod.mk.inj (Except.ok.inj hw)
      exact h.same finish_same
    · obtain ⟨rfl, -⟩ := Prod.mk.inj (Except.ok.inj hw)
      exact h.same (sleep_same hp)

theorem join_same (hp : (s.proc p).state = .RUNNING) : SameSpaces s (join s p).1 := by
  unfold join
  split
  · exact SameSpaces.trans (.setProc fun h => absurd rfl h) finish_same
  · split
    · exact finish_same
    · exact sleep_same hp

theorem kill_same (pid : ℕ) : SameSpaces s (kill s pid).1 := by
  unfold kill
  split
  · exact .refl s
  · next q _ =>
    refine .setProc fun h => ⟨fun hu => h ?_, rfl⟩
    simp [hu]

theorem shareSize_same (sz : ℕ) : SameSpaces s (shareSize s p sz) where
  nextDir := rfl
  freed := rfl
  used := by
    intro q hq
    simp only [shareSize] at hq ⊢
    split
    · next h =>
      rw [if_pos h] at hq
      exact ⟨hq, rfl⟩
    · next h =>
      rw [if_neg h] at hq
      exact ⟨hq, rfl⟩

theorem sbrk_same (n : ℤ) (enough : Bool) : SameSpaces s (sbrk s p n enough).1 := by
  unfold sbrk growproc
  simp only
  split
  · exact .refl s
  · refine SameSpaces.trans ?_ (shareSize_same _)
    exact .setProc fun h => ⟨h, rfl⟩

theorem execLoad_inv {load : Load} {r : Reply} (h : SpaceInv s) (hp : (s.proc p).state = .RUNNING)
    (hlast : ∀ sz, load = .done sz → LastUser s p) (he : execLoad s p load = .ok (t, r)) :
    SpaceInv t := by
  cases load with
  | noDir =>
      obtain ⟨rfl, -⟩ := Prod.mk.inj (Except.ok.inj he)
      exact h
  | bad =>
      obtain ⟨rfl, -⟩ := Prod.mk.inj (Except.ok.inj he)
      exact h.discard rfl rfl rfl
  | done sz =>
      obtain ⟨u, hfree, he⟩ := bind_eq_ok.mp he
      obtain ⟨rfl, -⟩ := Prod.mk.inj (Except.ok.inj he)
      unfold freevm at hfree
      split at hfree
      · cases hfree
      · next d hd =>
        obtain rfl := Except.ok.inj hfree
        refine h.release (by rw [hp]; decide) hd (hlast sz rfl) rfl (Nat.le_succ _) ?_ ?_
        · intro r hr hu
          rw [Kernel.setProc_of_ne hr] at hu ⊢
          exact ⟨hu, rfl⟩
        · exact .inr ⟨Nat.lt_succ_self _, by rw [Kernel.setProc_self]⟩

theorem exec_inv {path : Path} {load : Load} {r : Reply} (h : SpaceInv s)
    (hp : (s.proc p).state = .RUNNING)
    (hlast : ∀ sz, load = .done sz → path.found = true → LastUser s p)
    (he : exec s p path load = .ok (t, r)) : SpaceInv t := by
  obtain ⟨⟨files, ip⟩, hn, he⟩ := bind_eq_ok.mp he
  cases ip with
  | none =>
      obtain ⟨rfl, -⟩ := Prod.mk.inj (Except.ok.inj he)
      exact h.same (.setFiles files)
  | some ip =>
      obtain ⟨-, -, he⟩ := bind_eq_ok.mp he
      obtain ⟨files', -, he⟩ := bind_eq_ok.mp he
      exact execLoad_inv (h.same (.setFiles files')) hp
        (fun sz hsz => hlast sz hsz (namei_found hn)) he

/-- The open files of a process are no concern of the page directories. -/
theorem files_same {files : Files} {ofile : Fin NOFILE → Option Fd} {cwd : Option Cwd} :
    SameSpaces s ((s.setFiles files).setProc p { s.proc p with ofile, cwd }) :=
  SameSpaces.trans (.setFiles files) (.setProc fun h => ⟨h, rfl⟩)

theorem sys_dup_same {fd : ℤ} {r : Reply} (h : sys_dup s p fd = .ok (t, r)) : SameSpaces s t := by
  unfold sys_dup at h
  split at h
  · exact (Prod.mk.inj (Except.ok.inj h)).1 ▸ .refl s
  · split at h
    · exact (Prod.mk.inj (Except.ok.inj h)).1 ▸ .refl s
    · obtain ⟨files, -, h⟩ := bind_eq_ok.mp h
      obtain ⟨rfl, -⟩ := Prod.mk.inj (Except.ok.inj h)
      exact files_same

theorem sys_close_same {fd : ℤ} {r : Reply} (h : sys_close s p fd = .ok (t, r)) :
    SameSpaces s t := by
  unfold sys_close at h
  split at h
  · exact (Prod.mk.inj (Except.ok.inj h)).1 ▸ .refl s
  · obtain ⟨files, -, h⟩ := bind_eq_ok.mp h
    obtain ⟨rfl, -⟩ := Prod.mk.inj (Except.ok.inj h)
    refine SameSpaces.trans ?_ (.setFiles files)
    exact .setProc fun h => ⟨h, rfl⟩

theorem sys_fstat_same {fd : ℤ} {r : Reply} (h : sys_fstat s p fd = .ok (t, r)) :
    SameSpaces s t := by
  unfold sys_fstat at h
  split at h
  · exact (Prod.mk.inj (Except.ok.inj h)).1 ▸ .refl s
  · obtain ⟨x, -, h⟩ := bind_eq_ok.mp h
    exact (Prod.mk.inj (Except.ok.inj h)).1 ▸ .refl s

theorem openInode_same {ip : InodeId} {r : Reply} (h : openInode s p ip = .ok (t, r)) :
    SameSpaces s t := by
  unfold openInode at h
  split at h
  · obtain ⟨files, -, h⟩ := bind_eq_ok.mp h
    exact (Prod.mk.inj (Except.ok.inj h)).1 ▸ .setFiles files
  · split at h
    · obtain ⟨_, -, h⟩ := bind_eq_ok.mp h
      obtain ⟨files, -, h⟩ := bind_eq_ok.mp h
      exact (Prod.mk.inj (Except.ok.inj h)).1 ▸ .setFiles files
    · obtain ⟨_, -, h⟩ := bind_eq_ok.mp h
      obtain ⟨rfl, -⟩ := Prod.mk.inj (Except.ok.inj h)
      exact files_same

theorem sys_open_same {path : Path} {refused : Bool} {r : Reply}
    (h : sys_open s p path refused = .ok (t, r)) : SameSpaces s t := by
  obtain ⟨⟨files, ip⟩, -, h⟩ := bind_eq_ok.mp h
  cases ip with
  | none => exact (Prod.mk.inj (Except.ok.inj h)).1 ▸ .setFiles files
  | some ip =>
      obtain ⟨-, -, h⟩ := bind_eq_ok.mp h
      cases refused with
      | false => exact SameSpaces.trans (.setFiles files) (openInode_same h)
      | true =>
          obtain ⟨files', -, h⟩ := bind_eq_ok.mp h
          exact (Prod.mk.inj (Except.ok.inj h)).1 ▸ .setFiles files'

theorem sys_chdir_same {path : Path} {isDir : Bool} {r : Reply}
    (h : sys_chdir s p path isDir = .ok (t, r)) : SameSpaces s t := by
  obtain ⟨⟨files, ip⟩, -, h⟩ := bind_eq_ok.mp h
  cases ip with
  | none => exact (Prod.mk.inj (Except.ok.inj h)).1 ▸ .setFiles files
  | some ip =>
      obtain ⟨-, -, h⟩ := bind_eq_ok.mp h
      cases isDir with
      | false =>
          obtain ⟨files', -, h⟩ := bind_eq_ok.mp h
          exact (Prod.mk.inj (Except.ok.inj h)).1 ▸ .setFiles files'
      | true =>
          obtain ⟨-, -, h⟩ := bind_eq_ok.mp h
          obtain ⟨files', -, h⟩ := bind_eq_ok.mp h
          obtain ⟨rfl, -⟩ := Prod.mk.inj (Except.ok.inj h)
          exact files_same

/-! ## Runs -/

/-- Whoever has its page directory freed is the last one in the table to have it. -/
def FreesLast (s : Kernel) : Call → Prop
  | .wait p => ∀ q ∈ zombieChild s p, LastUser s q
  | .exec p path (.done _) => path.found = true → LastUser s p
  | _ => True

instance FreesLast.decidable (s : Kernel) : ∀ a, Decidable (FreesLast s a)
  | .wait p => inferInstanceAs (Decidable (∀ q ∈ zombieChild s p, LastUser s q))
  | .exec p path (.done _) => inferInstanceAs (Decidable (path.found = true → LastUser s p))
  | .exec _ _ .noDir | .exec _ _ .bad | .schedule _ | .yield _ | .fork .. | .clone .. | .exit _
  | .join _ | .kill .. | .sbrk .. | .open .. | .close .. | .dup .. | .fstat .. | .chdir .. =>
    isTrue trivial

theorem call_inv {a : Call} {r : Reply} (h : SpaceInv s) (hok : FreesLast s a)
    (hen : enabled s a = true) (hc : call s a = .ok (t, r)) : SpaceInv t := by
  cases a with
  | schedule p =>
      have hp : (s.proc p).state = .RUNNABLE := of_decide_eq_true hen
      obtain ⟨rfl, -⟩ := Prod.mk.inj (Except.ok.inj hc)
      exact h.same (.setProc fun _ => ⟨by rw [hp]; decide, rfl⟩)
  | yield p =>
      have hp : (s.proc p).state = .RUNNING := of_decide_eq_true hen
      obtain ⟨rfl, -⟩ := Prod.mk.inj (Except.ok.inj hc)
      exact h.same (.setProc fun _ => ⟨by rw [hp]; decide, rfl⟩)
  | fork p k c => exact fork_inv h hc
  | clone p k stack =>
      obtain rfl := congrArg Prod.fst (Except.ok.inj hc)
      exact thread_fork_inv h (of_decide_eq_true hen).1
  | exec p path load =>
      refine exec_inv h (of_decide_eq_true hen).1 (fun sz hsz hf => ?_) hc
      subst hsz
      exact hok hf
  | exit p => exact h.same (exit_same (of_decide_eq_true hen).1 hc)
  | wait p => exact wait_inv h (of_decide_eq_true hen).1 hok hc
  | join p =>
      obtain rfl := congrArg Prod.fst (Except.ok.inj hc)
      exact h.same (join_same (of_decide_eq_true hen).1)
  | kill p pid =>
      obtain rfl := congrArg Prod.fst (Except.ok.inj hc)
      exact h.same (kill_same pid)
  | sbrk p n enough =>
      obtain rfl := congrArg Prod.fst (Except.ok.inj hc)
      exact h.same (sbrk_same n enough)
  | «open» p path refused => exact h.same (sys_open_same hc)
  | close p fd => exact h.same (sys_close_same hc)
  | dup p fd => exact h.same (sys_dup_same hc)
  | fstat p fd => exact h.same (sys_fstat_same hc)
  | chdir p path isDir => exact h.same (sys_chdir_same hc)

theorem empty_inv : SpaceInv {} where
  used _ hp := absurd rfl hp
  lt := by simp
  nodup := List.nodup_nil

theorem userinit_inv (h : userinit = .ok s) : SpaceInv s := by
  unfold userinit at h
  split at h
  · next u halloc => exact Except.ok.inj h ▸ empty_inv.same (.allocproc halloc)
  · next u np halloc =>
    obtain ⟨-, -, rfl⟩ := allocproc_some halloc
    obtain ⟨⟨files, ip⟩, -, h⟩ := bind_eq_ok.mp h
    obtain rfl := Except.ok.inj h
    exact empty_inv.child (Function.update_idem ..) rfl (Nat.lt_succ_self _) (Nat.le_succ _) rfl
      (by simp)

/-- The page directory of every process that may still run has not been freed, and no page
directory has been freed twice. -/
structure SpacesSafe (s : Kernel) : Prop where
  live : ∀ p, (s.proc p).state ≠ .UNUSED → (s.proc p).state ≠ .ZOMBIE →
    ∃ d, (s.proc p).pgdir = some d ∧ d ∉ s.freed
  once : s.freed.Nodup

theorem SpaceInv.safe (h : SpaceInv s) : SpacesSafe s where
  live p hp _ := (h.used p hp).imp fun _ hd => ⟨hd.1, hd.2.2⟩
  once := h.nodup

theorem spaces_safe_of_run (h : userinit = .ok s) (hrun : Run step FreesLast s t) :
    SpacesSafe t := by
  refine SpaceInv.safe (hrun.invariant (userinit_inv h) fun u a v hu hok hs => ?_)
  obtain ⟨hen, r, hc⟩ := step_eq_some.mp hs
  exact call_inv hu hok hen hc

end

/-- A thread is cloned, leaves and is joined; then a child is forked, execs, leaves and is waited
for. -/
def joinedThenReaped : List Call :=
  [.schedule 0, .clone 0 true 4096, .yield 0, .schedule 1, .exit 1, .schedule 0, .join 0,
    .fork 0 true .done, .wait 0, .schedule 1, .exec 1 ⟨true, [2], true⟩ (.done 8192), .exit 1,
    .schedule 0, .wait 0]

theorem joinedThenReaped_safe : ∃ s t, userinit = .ok s ∧
    play step joinedThenReaped s = some t ∧ SpacesSafe t := by
  have hsome : (userinit.toOption.bind fun s =>
      if PlayOk step FreesLast joinedThenReaped s then play step joinedThenReaped s
      else none).isSome = true := by decide +kernel
  obtain ⟨t, ht⟩ := Option.isSome_iff_exists.mp hsome
  obtain ⟨s, hs, ht⟩ := Option.bind_eq_some_iff.mp ht
  obtain ⟨hok, ht⟩ := Option.ite_none_right_eq_some.mp ht
  have hinit : userinit = .ok s := toOption_eq_some.mp hs
  exact ⟨s, t, hinit, ht, spaces_safe_of_run hinit (.of_playOk hok ht)⟩

/-- `init` reaps a thread of its own and runs on a page directory that has been freed. -/
theorem reaped_thread_frees : ∃ s t, userinit = .ok s ∧
    play step [.schedule 0, .clone 0 true 4096, .yield 0, .schedule 1, .exit 1, .schedule 0,
      .wait 0] s = some t ∧ ¬ SpacesSafe t := by
  have hfreed : (userinit.toOption.bind fun s => (play step [.schedule 0, .clone 0 true 4096,
      .yield 0, .schedule 1, .exit 1, .schedule 0, .wait 0] s).map fun t =>
        decide ((t.proc 0).state = .RUNNING) && decide ((t.proc 0).pgdir = some 0) &&
          t.freed.contains 0) = some true := by decide +kernel
  obtain ⟨s, hs, ht⟩ := Option.bind_eq_some_iff.mp hfreed
  obtain ⟨t, ht, hall⟩ := Option.map_eq_some_iff.mp ht
  simp only [Bool.and_eq_true, decide_eq_true_eq, List.contains_iff_mem] at hall
  obtain ⟨⟨hrun, hdir⟩, hmem⟩ := hall
  refine ⟨s, t, toOption_eq_some.mp hs, ht, fun hsafe => ?_⟩
  obtain ⟨d, hd, hnot⟩ := hsafe.live 0 (by rw [hrun]; decide) (by rw [hrun]; decide)
  obtain rfl := Option.some.inj (hdir.symm.trans hd)
  exact hnot hmem

end IntroToOS.Threads

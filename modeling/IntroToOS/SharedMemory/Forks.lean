import IntroToOS.SharedMemory.Images

/-! # Children

`allocproc` takes the first UNUSED slot and a frame for the kernel stack. `forkChild` then makes the
address space; it needs the pages of the parent's heap to be there, and when memory runs out only a
failure within `setupkvm` loses frames (`ForkFails`).
-/

namespace IntroToOS.SharedMemory
open Lib
set_option autoImplicit false

section
variable {s s' : Kernel} {p q np : ProcId} {x : Proc}

@[simp] theorem setProc_self : (s.setProc p x).proc p = x := Function.update_self ..

theorem setProc_of_ne (h : q ≠ p) : (s.setProc p x).proc q = s.proc q :=
  Function.update_of_ne h ..

theorem state_of_findUnused (h : findUnused s = some np) : (s.proc np).state = .UNUSED := by
  have := List.find?_some h
  exact of_decide_eq_true this

/-- What `allocproc` makes of the slot `np`. -/
def newProc (s : Kernel) (np : ProcId) (kstack : Frame) : Proc :=
  { s.proc np with
    state := .EMBRYO
    pid := s.nextpid
    kstack
    current_top := USERTOP
    key_addresses := fun _ => 0 }

inductive Allocproc (s : Kernel) : Kernel → Option ProcId → Prop
  | full : findUnused s = none → Allocproc s s none
  | noStack (np : ProcId) : findUnused s = some np → s.freelist = [] →
      Allocproc s { s.setProc np { s.proc np with
        state := .UNUSED, pid := s.nextpid, kstack := 0 } with nextpid := s.nextpid + 1 } none
  | new (np : ProcId) (f : Frame) (l : List Frame) : findUnused s = some np →
      s.freelist = f :: l →
      Allocproc s { s.setProc np (newProc s np f) with
        nextpid := s.nextpid + 1, freelist := l } (some np)

theorem allocproc_spec (s : Kernel) : Allocproc s (allocproc s).1 (allocproc s).2 := by
  unfold allocproc
  cases hfind : findUnused s with
  | none => exact .full hfind
  | some np =>
      cases hfree : s.freelist with
      | nil =>
          have hk : kalloc { s.setProc np { s.proc np with state := .EMBRYO, pid := s.nextpid } with
              nextpid := s.nextpid + 1 } = none := kalloc_of_nil hfree
          simp only [hk]
          simpa [Kernel.setProc] using Allocproc.noStack np hfind hfree
      | cons f l =>
          have hk := kalloc_of_cons (s := { s.setProc np
            { s.proc np with state := .EMBRYO, pid := s.nextpid } with nextpid := s.nextpid + 1 })
            (f := f) (l := l) hfree
          simp only [hk]
          simpa [Kernel.setProc, newProc] using Allocproc.new np f l hfind hfree

/-! ## `forkChild` -/

/-- What `fork` relies on in the calling process. -/
structure CanFork (s : Kernel) (p : ProcId) : Prop where
  good : GoodList s
  used : (s.proc p).state ≠ .UNUSED
  pgdir : (s.proc p).pgdir ∉ s.freelist
  sz : pages (s.proc p).sz ≤ pages (s.proc p).current_top
  top : (s.proc p).current_top ≤ USERTOP

/-- A slot without a process is as it was, or it is the one that the failed call has used. -/
structure ForkFails (s s' : Kernel) : Prop where
  kend : s'.kend = s.kend
  spages : s'.spages = s.spages
  initproc : s'.initproc = s.initproc
  others : ∀ q, findUnused s ≠ some q → s'.proc q = s.proc q
  unused : ∀ q, findUnused s = some q → (s'.proc q).state = .UNUSED ∧
    ((s'.proc q).key_addresses = (s.proc q).key_addresses ∨ (s'.proc q).key_addresses = fun _ => 0)
  dir : ∀ f, f ∉ s.freelist → s'.dir f = s.dir f
  taken : ∀ f, s'.freelist.count f ≤ s.freelist.count f
  kept : (∀ q, findUnused s = some q → s.freelist.length < 2 ∨ kmap.length + 1 < s.freelist.length) →
    s'.freelist.Perm s.freelist
  lost : (∃ q, findUnused s = some q) → 2 ≤ s.freelist.length →
    s.freelist.length ≤ kmap.length + 1 → s'.freelist.length = 1

/-- The child `np` with the address space at `d` and a new kernel stack. -/
structure ForkMakes (s : Kernel) (p : ProcId) (np : ProcId) (s' : Kernel) (d kstack : Frame)
    (ts fs : List Frame) : Prop where
  kend : s'.kend = s.kend
  spages : s'.spages = s.spages
  initproc : s'.initproc = s.initproc
  slot : findUnused s = some np
  others : ∀ q, q ≠ np → s'.proc q = s.proc q
  child : s'.proc np = { newProc s np kstack with
    pgdir := d, sz := (s.proc p).sz, parent := some p, state := .RUNNABLE }
  dirs : ∀ f, f ≠ d → s'.dir f = s.dir f
  tables : (s'.dir d).tables = ts
  tables_length : ts.length = kmap.length
  pte : ∀ x, (s'.dir d).pte x = if x < pages (s.proc p).sz then fs[x]?
    else if pages (s.proc p).current_top ≤ x ∧ x < userPages then
      (s.dir (s.proc p).pgdir).pte x else none
  length : fs.length = pages (s.proc p).sz
  freelist : s.freelist.Perm (kstack :: d :: ts ++ fs ++ s'.freelist)

def ForkEnds (s : Kernel) (p : ProcId) (r : Kernel × Option ProcId) : Prop :=
  match r.2 with
  | some np => ∃ d kstack ts fs, ForkMakes s p np r.1 d kstack ts fs
  | none => ForkFails s r.1

/-- `allocproc` has put a new process with kernel stack `f` into the slot `np`. -/
structure Begun (s : Kernel) (np : ProcId) (f : Frame) (t : Kernel) : Prop where
  slot : findUnused s = some np
  freelist : s.freelist = f :: t.freelist
  self : t.proc np = newProc s np f
  others : ∀ q, q ≠ np → t.proc q = s.proc q
  kend : t.kend = s.kend
  spages : t.spages = s.spages
  initproc : t.initproc = s.initproc
  dir : t.dir = s.dir

theorem begun_new {f : Frame} {l : List Frame} (hfind : findUnused s = some np)
    (hfree : s.freelist = f :: l) : Begun s np f { s.setProc np (newProc s np f) with
      nextpid := s.nextpid + 1, freelist := l } :=
  ⟨hfind, hfree, setProc_self, fun _ hq => setProc_of_ne hq, rfl, rfl, rfl, rfl⟩

section
variable {f d : Frame} {t u w : Kernel} {ts fs : List Frame}

theorem Begun.mem (hb : Begun s np f t) {g : Frame} (hg : g ∈ t.freelist) : g ∈ s.freelist := by
  rw [hb.freelist]
  exact List.mem_cons_of_mem f hg

theorem Begun.valid (hb : Begun s np f t) (g : Frame) : ValidFrame t g ↔ ValidFrame s g := by
  rw [ValidFrame, ValidFrame, hb.kend]

theorem Begun.good (hb : Begun s np f t) (hg : GoodList s) : GoodList t :=
  ⟨hb.kend ▸ hg.kend_pos, fun g hin => (hb.valid g).mpr (hg.valid g (hb.mem hin))⟩

theorem Begun.parent (hb : Begun s np f t) (hused : (s.proc p).state ≠ .UNUSED) :
    t.proc p = s.proc p :=
  hb.others p fun he => hused (he ▸ state_of_findUnused hb.slot)

/-- The address space has been copied. -/
theorem Begun.forkMakes (hb : Begun s np f t) (hp : t.proc p = s.proc p)
    (hc : CopyOf t (s.proc p).pgdir (s.proc p).sz (s.proc p).current_top ts fs d u) :
    ForkMakes s p np (u.setProc np { u.proc np with
      pgdir := d, sz := (u.proc p).sz, parent := some p, state := .RUNNABLE }) d f ts fs where
  kend := hc.same.kend.trans hb.kend
  spages := hc.same.spages.trans hb.spages
  initproc := hc.same.initproc.trans hb.initproc
  slot := hb.slot
  others q hq := by rw [setProc_of_ne hq, hc.same.proc, hb.others q hq]
  child := by rw [setProc_self, hc.same.proc, hp, hb.self]
  dirs g hg := (hc.others g hg).trans (congrFun hb.dir g)
  tables := hc.tables
  tables_length := hc.tables_length
  pte x := by
    rw [← hb.dir]
    exact hc.pte x
  length := hc.length
  freelist := by
    rw [hb.freelist]
    exact hc.freelist.cons f

/-- The frames of the copy that failed, and what it has done to the directories. -/
theorem Begun.failed (hb : Begun s np f t)
    (hr : OutOfFrames t u ∨ kmap.length < t.freelist.length ∧ Returned t u) :
    SameProcs t u ∧ (∀ g, g ∉ s.freelist → u.dir g = s.dir g) ∧
      (∀ g, u.freelist.count g ≤ t.freelist.count g) ∧
      (t.freelist.length = 0 ∨ kmap.length < t.freelist.length → u.freelist.Perm t.freelist) ∧
      (t.freelist.length ≤ kmap.length → u.freelist = []) := by
  have hnot : ∀ g, g ∉ s.freelist → g ∉ t.freelist := fun g hg hin => hg (hb.mem hin)
  rcases hr with hr | ⟨hlt, hr⟩
  · refine ⟨hr.same, fun g hg => ?_, fun g => ?_, fun hlen => ?_, fun _ => hr.freelist⟩
    · rw [hr.others g (hnot g hg), hb.dir]
    · rw [show u.freelist = [] from hr.freelist, List.count_nil]
      exact Nat.zero_le _
    · have hl := hr.length
      have hzero : t.freelist.length = 0 := by omega
      rw [show u.freelist = [] from hr.freelist, List.length_eq_zero_iff.mp hzero]
  · refine ⟨hr.same, fun g hg => ?_, fun g => Nat.le_of_eq (hr.freelist.count_eq g),
      fun _ => hr.freelist, fun hle => absurd hlt (Nat.not_lt.mpr hle)⟩
    rw [hr.others g (hnot g hg), hb.dir]

/-- The copy has failed, and the kernel stack has been given back. -/
theorem Begun.forkFails (hb : Begun s np f t)
    (hr : OutOfFrames t u ∨ kmap.length < t.freelist.length ∧ Returned t u) {x : Proc}
    (hback : GivesBack [f] (u.setProc np x) w) (hx : x = { newProc s np f with pgdir := 0 }) :
    ForkFails s (w.setProc np { w.proc np with kstack := 0, state := .UNUSED }) := by
  obtain ⟨hsame, hdir, htaken, hkept, hlost⟩ := hb.failed hr
  have hfree : w.freelist = f :: u.freelist := hback.freelist
  exact {
    kend := (hback.same.kend.trans hsame.kend).trans hb.kend
    spages := (hback.same.spages.trans hsame.spages).trans hb.spages
    initproc := (hback.same.initproc.trans hsame.initproc).trans hb.initproc
    others := fun q hq => by
      have hqn : q ≠ np := fun he => hq (he ▸ hb.slot)
      rw [setProc_of_ne hqn, hback.same.proc, setProc_of_ne hqn, hsame.proc, hb.others q hqn]
    unused := fun q hq => by
      obtain rfl : np = q := Option.some.inj (hb.slot.symm.trans hq)
      rw [setProc_self, hback.same.proc, setProc_self, hx]
      exact ⟨rfl, .inr rfl⟩
    dir := fun g hg => by
      show w.dir g = s.dir g
      rw [hback.dir]
      exact hdir g hg
    taken := fun g => by
      show w.freelist.count g ≤ s.freelist.count g
      rw [hfree, hb.freelist, List.count_cons, List.count_cons]
      exact Nat.add_le_add_right (htaken g) _
    kept := fun hlen => by
      show w.freelist.Perm s.freelist
      rw [hfree, hb.freelist]
      refine (hkept ?_).cons f
      have hor := hlen np hb.slot
      rw [hb.freelist, List.length_cons] at hor
      omega
    lost := fun _ _ hle => by
      show w.freelist.length = 1
      rw [hb.freelist, List.length_cons] at hle
      rw [hfree, hlost (Nat.le_of_succ_le_succ hle)]
      rfl }

end

theorem forkFails_full (hfind : findUnused s = none) : ForkFails s s :=
  ⟨rfl, rfl, rfl, fun _ _ => rfl, fun q hq => absurd (hfind.symm.trans hq) (by simp),
    fun _ _ => rfl, fun _ => Nat.le_refl _, fun _ => .refl _,
    fun ⟨q, hq⟩ => absurd (hfind.symm.trans hq) (by simp)⟩

/-- There is no frame for the kernel stack. -/
theorem forkFails_noStack (hfind : findUnused s = some np) (hfree : s.freelist = []) :
    ForkFails s { s.setProc np { s.proc np with
      state := .UNUSED, pid := s.nextpid, kstack := 0 } with nextpid := s.nextpid + 1 } := by
  refine ⟨rfl, rfl, rfl, fun q hq => ?_, fun q hq => ?_, fun _ _ => rfl,
    fun _ => Nat.le_refl _, fun _ => .refl _, fun _ hlen => ?_⟩
  · exact setProc_of_ne fun he => hq (he ▸ hfind)
  · obtain rfl : np = q := Option.some.inj (hfind.symm.trans hq)
    exact ⟨by simp, .inl (by simp)⟩
  · rw [hfree] at hlen
    exact absurd hlen (by decide)

theorem forkChild_spec (h : CanFork s p) : Ends (forkChild s p) (ForkEnds s p) fun e =>
    e = .pageNotPresent ∧ kmap.length + 1 < s.freelist.length ∧
      ∃ x < pages (s.proc p).sz, (s.dir (s.proc p).pgdir).pte x = none := by
  unfold forkChild
  have hspec := allocproc_spec s
  revert hspec
  generalize allocproc s = r
  obtain ⟨t, onp⟩ := r
  intro hspec
  cases hspec with
  | full hfind => exact forkFails_full hfind
  | noStack np hfind hfree => exact forkFails_noStack hfind hfree
  | new np f l hfind hfree =>
      have hb := begun_new hfind hfree
      generalize ({ s.setProc np (newProc s np f) with
        nextpid := s.nextpid + 1, freelist := l } : Kernel) = t at hb
      have hp := hb.parent h.used
      have hcopy := copyuvm_spec (s := t) (s.proc p).pgdir (s.proc p).sz p (hb.good h.good)
        (fun hin => h.pgdir (hb.mem hin)) (by rw [hp]; exact h.sz) (by rw [hp]; exact h.top)
      simp only [hp]
      rw [hp, hb.dir] at hcopy
      rw [hb.freelist, List.length_cons]
      refine Ends.bind (ends_iff.mpr ⟨(ends_iff.mp hcopy).1, fun e he => ?_⟩) fun r hr => ?_
      · obtain ⟨rfl, hlen, hx⟩ := (ends_iff.mp hcopy).2 e he
        exact ⟨rfl, Nat.succ_lt_succ hlen, hx⟩
      obtain ⟨u, od⟩ := r
      cases od with
      | some d =>
          obtain ⟨ts, fs, hc⟩ := hr
          exact ⟨d, f, ts, fs, hb.forkMakes hp hc⟩
      | none =>
          have hsame := (hb.failed hr).1
          have hself : u.proc np = newProc s np f := by rw [hsame.proc, hb.self]
          have hstack : (u.proc np).kstack = f := by rw [hself]; rfl
          have hvalid : ValidFrame (u.setProc np { u.proc np with pgdir := 0 }) f := by
            show ValidFrame u f
            refine hsame.valid.mpr ((hb.valid f).mpr (h.good.valid f ?_))
            rw [hb.freelist]
            exact List.mem_cons_self
          obtain ⟨w, hw, hback⟩ := kfree_spec hvalid
          simp only
          rw [(congrArg (kfree _) hstack).trans hw, ok_bind]
          exact hb.forkFails hr hback (by rw [hself])

end

end IntroToOS.SharedMemory

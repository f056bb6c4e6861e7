import IntroToOS.Lib.Windows
import IntroToOS.SharedMemory.Exec

/-! # What the memory routines do

For each routine of the memory what it takes from the free list or gives back to it, and what it
does to the page directory it works on. Frames are taken from the front of the free list and given
back to it, so that a directory under construction and the list add up to the list before (`Places`,
`NewDir`). A routine that fails part way gives back what it has taken (`Restored`); the
exception is `setupkvm`.
-/

namespace IntroToOS.SharedMemory
open Lib
set_option autoImplicit false

/-- What `kfree` accepts. -/
def ValidFrame (s : Kernel) (f : Frame) : Prop := s.kend ≤ f ∧ f < physPages

instance (s : Kernel) (f : Frame) : Decidable (ValidFrame s f) := inferInstanceAs (Decidable (_ ∧ _))

/-- Nothing but frames and page directories has changed. -/
structure SameProcs (s s' : Kernel) : Prop where
  kend : s'.kend = s.kend
  spages : s'.spages = s.spages
  proc : s'.proc = s.proc
  initproc : s'.initproc = s.initproc
  nextpid : s'.nextpid = s.nextpid

section
variable {s s' s'' t : Kernel} {d f pgdir : Frame} {v n m : ℕ} {l fs gs : List Frame}
  {proc : ProcId}

theorem SameProcs.refl (s : Kernel) : SameProcs s s := ⟨rfl, rfl, rfl, rfl, rfl⟩

theorem SameProcs.trans (h : SameProcs s s') (h' : SameProcs s' s'') : SameProcs s s'' :=
  ⟨h'.kend.trans h.kend, h'.spages.trans h.spages, h'.proc.trans h.proc,
    h'.initproc.trans h.initproc, h'.nextpid.trans h.nextpid⟩

theorem SameProcs.valid (h : SameProcs s s') : ValidFrame s' f ↔ ValidFrame s f := by
  rw [ValidFrame, ValidFrame, h.kend]

/-! ## `kalloc` and `kfree` -/

theorem kalloc_of_cons (h : s.freelist = f :: l) : kalloc s = some (f, { s with freelist := l }) := by
  rw [kalloc, h]

theorem kalloc_of_nil (h : s.freelist = []) : kalloc s = none := by
  rw [kalloc, h]

theorem kfree_of_valid (h : ValidFrame s f) :
    kfree s f = .ok { s.setPage f (fun _ => 1) with freelist := f :: s.freelist } := by
  refine if_neg ?_
  rintro (hlt | hle)
  · exact absurd h.1 (Nat.not_le.mpr hlt)
  · exact absurd h.2 (Nat.not_lt.mpr hle)

/-- Frames are given back one after the other. -/
structure GivesBack (l : List Frame) (s s' : Kernel) : Prop where
  same : SameProcs s s'
  dir : s'.dir = s.dir
  freelist : s'.freelist = l.reverse ++ s.freelist

theorem kfree_spec (h : ValidFrame s f) : ∃ s', kfree s f = .ok s' ∧ GivesBack [f] s s' :=
  ⟨_, kfree_of_valid h, ⟨rfl, rfl, rfl, rfl, rfl⟩, rfl, rfl⟩

theorem kfrees_spec (h : ∀ f ∈ l, ValidFrame s f) :
    ∃ s', l.foldlM kfree s = .ok s' ∧ GivesBack l s s' := by
  induction l generalizing s with
  | nil => exact ⟨s, rfl, .refl s, rfl, rfl⟩
  | cons f l ih =>
      obtain ⟨t, ht, hback⟩ := kfree_spec (h f List.mem_cons_self)
      obtain ⟨u, hu, hback'⟩ := ih fun g hg =>
        hback.same.valid.mpr (h g (List.mem_cons_of_mem f hg))
      refine ⟨u, ?_, hback.same.trans hback'.same, hback'.dir.trans hback.dir, ?_⟩
      · rw [List.foldlM_cons, ht]
        exact hu
      · rw [hback'.freelist, hback.freelist, List.reverse_cons, List.append_assoc]
        simp

/-! ## `setupkvm` -/

theorem mapKernel_true {idx : List ℕ} (h : mapKernel d idx s = (s', true)) :
    ∃ ts, s.freelist = ts ++ s'.freelist ∧ ts.length = idx.length ∧ SameProcs s s' ∧
      s'.dir d = { s.dir d with tables := (s.dir d).tables ++ ts } ∧
      ∀ f, f ≠ d → s'.dir f = s.dir f := by
  induction idx generalizing s with
  | nil =>
      obtain ⟨rfl, -⟩ := Prod.mk.inj h
      exact ⟨[], rfl, rfl, .refl _, by rw [List.append_nil], fun _ _ => rfl⟩
  | cons i idx ih =>
      cases hfree : s.freelist with
      | nil =>
          rw [mapKernel, kalloc_of_nil hfree] at h
          exact absurd (Prod.mk.inj h).2 (by decide)
      | cons t rest =>
          rw [mapKernel, kalloc_of_cons hfree] at h
          obtain ⟨ts, hts, hlen, hsame, hd, hothers⟩ := ih h
          refine ⟨t :: ts, by rw [List.cons_append, ← hts]; rfl, by simp [hlen],
            ⟨hsame.kend, hsame.spages, hsame.proc, hsame.initproc, hsame.nextpid⟩, ?_,
            fun f hf => ?_⟩
          · rw [hd]
            simp [Kernel.setDir, Kernel.setPage]
          · rw [hothers f hf]
            simp [Kernel.setDir, Kernel.setPage, hf]

theorem mapKernel_false {idx : List ℕ} (h : mapKernel d idx s = (s', false)) :
    s'.freelist = [] ∧ s.freelist.length < idx.length ∧ SameProcs s s' ∧
      ∀ f, f ≠ d → s'.dir f = s.dir f := by
  induction idx generalizing s with
  | nil => exact absurd (Prod.mk.inj h).2 (by decide)
  | cons i idx ih =>
      cases hfree : s.freelist with
      | nil =>
          rw [mapKernel, kalloc_of_nil hfree] at h
          obtain ⟨rfl, -⟩ := Prod.mk.inj h
          exact ⟨hfree, Nat.succ_pos _, .refl _, fun _ _ => rfl⟩
      | cons t rest =>
          rw [mapKernel, kalloc_of_cons hfree] at h
          obtain ⟨hnil, hlen, hsame, hothers⟩ := ih h
          refine ⟨hnil, Nat.succ_lt_succ hlen,
            ⟨hsame.kend, hsame.spages, hsame.proc, hsame.initproc, hsame.nextpid⟩, fun f hf => ?_⟩
          rw [hothers f hf]
          simp [Kernel.setDir, Kernel.setPage, hf]

/-- `d` is a new page directory without user pages, made of the first frames of the free list. -/
structure NewDir (ts : List Frame) (s : Kernel) (d : Frame) (s' : Kernel) : Prop where
  same : SameProcs s s'
  others : ∀ f, f ≠ d → s'.dir f = s.dir f
  dir : s'.dir d = { tables := ts }
  length : ts.length = kmap.length
  freelist : s.freelist = d :: ts ++ s'.freelist

theorem setupkvm_some (h : setupkvm s = (s', some d)) : ∃ ts, NewDir ts s d s' := by
  unfold setupkvm at h
  cases hfree : s.freelist with
  | nil =>
      rw [kalloc_of_nil hfree] at h
      exact absurd (Prod.mk.inj h).2 (by simp)
  | cons f rest =>
      rw [kalloc_of_cons hfree] at h
      simp only at h
      split at h
      · exact absurd (Prod.mk.inj h).2 (by simp)
      · next t hmap =>
        obtain ⟨rfl, hd⟩ := Prod.mk.inj h
        obtain rfl : f = d := Option.some.inj hd
        obtain ⟨ts, hts, hlen, hsame, hdir, hothers⟩ := mapKernel_true hmap
        refine ⟨ts, ⟨hsame.kend, hsame.spages, hsame.proc, hsame.initproc, hsame.nextpid⟩,
          fun g hg => ?_, ?_, hlen, ?_⟩
        · rw [hothers g hg]
          simp [Kernel.setDir, Kernel.setPage, hg]
        · rw [hdir]
          simp [Kernel.setDir]
        · rw [hfree, List.cons_append, ← hts]
          rfl

/-- When it fails, `setupkvm` has used up the free list. -/
structure OutOfFrames (s s' : Kernel) : Prop where
  same : SameProcs s s'
  others : ∀ f, f ∉ s.freelist → s'.dir f = s.dir f
  length : s.freelist.length < kmap.length + 1
  freelist : s'.freelist = []

theorem setupkvm_none (h : setupkvm s = (s', none)) : OutOfFrames s s' := by
  unfold setupkvm at h
  cases hfree : s.freelist with
  | nil =>
      rw [kalloc_of_nil hfree] at h
      obtain ⟨rfl, -⟩ := Prod.mk.inj h
      exact ⟨.refl _, fun _ _ => rfl, by rw [hfree]; exact Nat.succ_pos _, hfree⟩
  | cons f rest =>
      rw [kalloc_of_cons hfree] at h
      simp only at h
      split at h
      · next t hmap =>
        obtain ⟨rfl, -⟩ := Prod.mk.inj h
        obtain ⟨hnil, hlen, hsame, hothers⟩ := mapKernel_false hmap
        refine ⟨⟨hsame.kend, hsame.spages, hsame.proc, hsame.initproc, hsame.nextpid⟩,
          fun g hg => ?_, ?_, hnil⟩
        · have hg : g ≠ f := fun he => hg (by rw [hfree, he]; exact List.mem_cons_self)
          rw [hothers g hg]
          simp [Kernel.setDir, Kernel.setPage, hg]
        · rw [hfree]
          exact Nat.succ_lt_succ hlen
      · exact absurd (Prod.mk.inj h).2 (by simp)

/-! ## Pages of a directory -/

/-- The frames `fs` of the free list have become the pages from `v` on. -/
structure Places (d : Frame) (v : ℕ) (fs : List Frame) (s s' : Kernel) : Prop where
  same : SameProcs s s'
  others : ∀ f, f ≠ d → s'.dir f = s.dir f
  tables : (s'.dir d).tables = (s.dir d).tables
  pte : (s'.dir d).pte = place (s.dir d).pte v fs
  freelist : s.freelist.Perm (fs ++ s'.freelist)

theorem Places.refl (s : Kernel) : Places d v [] s s :=
  ⟨.refl s, fun _ _ => rfl, rfl, (place_nil ..).symm, .refl _⟩

theorem Places.trans (h : Places d v fs s s') (h' : Places d (v + fs.length) gs s' s'') :
    Places d v (fs ++ gs) s s'' where
  same := h.same.trans h'.same
  others f hf := (h'.others f hf).trans (h.others f hf)
  tables := h'.tables.trans h.tables
  pte := by rw [h'.pte, h.pte, place_append]
  freelist := by
    rw [List.append_assoc]
    exact h.freelist.trans (h'.freelist.append_left fs)

/-- One page, with any contents. -/
theorem mappages_new (data : ℕ → Byte) (hv : v < userPages) (hnone : (s.dir d).pte v = none)
    (hfree : s.freelist = f :: l) :
    ∃ s', mappages (({ s with freelist := l } : Kernel).setPage f data) d v f = .ok s' ∧
      Places d v [f] s s' ∧ s'.freelist = l ∧ s'.mem = Function.update s.mem f data := by
  have hok : ¬ (userPages ≤ v ∨ ((s.dir d).pte v).isSome) := by
    rw [hnone]
    rintro (h | h)
    · omega
    · cases h
  refine ⟨_, if_neg hok, ⟨⟨rfl, rfl, rfl, rfl, rfl⟩, fun g hg => ?_, ?_, ?_, ?_⟩,
    rfl, rfl⟩
  · simp [Kernel.setPte, Kernel.setDir, Kernel.setPage, hg]
  · simp [Kernel.setPte, Kernel.setDir, Kernel.setPage]
  · simp [Kernel.setPte, Kernel.setDir, Kernel.setPage, place_singleton]
  · rw [hfree]
    exact .refl _

theorem Places.pte_of_lt (h : Places d v fs s s') {x : ℕ} (hx : ¬ (v ≤ x ∧ x < v + fs.length)) :
    (s'.dir d).pte x = (s.dir d).pte x := by
  rw [h.pte]
  exact place_of_not_mem hx

/-- The pages that the loop of `allocuvm` gets, all of them zeroed. -/
theorem allocPages_spec (hn : v + n ≤ userPages)
    (hnone : ∀ x, v ≤ x → x < v + n → (s.dir d).pte x = none) :
    ∃ s', allocPages d n v s = .ok (s', decide (n ≤ s.freelist.length)) ∧
      Places d v (s.freelist.take n) s s' ∧
      ∀ f, s'.mem f = if f ∈ s.freelist.take n then fun _ => 0 else s.mem f := by
  induction n generalizing s v with
  | zero => exact ⟨s, rfl, .refl s, fun f => by simp⟩
  | succ n ih =>
      cases hfree : s.freelist with
      | nil =>
          refine ⟨s, ?_, by rw [List.take_nil]; exact .refl s, fun f => by simp⟩
          rw [allocPages, kalloc_of_nil hfree]
          rfl
      | cons f l =>
          obtain ⟨t, ht, hplace, hl, hmem⟩ :=
            mappages_new (fun _ => 0) (by omega) (hnone v (Nat.le_refl v) (by omega)) hfree
          obtain ⟨u, hu, hplaces, hmems⟩ := ih (s := t) (v := v + 1) (by omega) fun x h1 h2 => by
            rw [hplace.pte_of_lt (by simp only [List.length_singleton]; omega)]
            exact hnone x (by omega) (by omega)
          refine ⟨u, ?_, ?_, fun g => ?_⟩
          · rw [allocPages, kalloc_of_cons hfree]
            simp only [ht, ok_bind, hu, hl, List.length_cons, Nat.succ_le_succ_iff]
          · rw [hl] at hplaces
            exact hplace.trans hplaces
          · simp only [hmems g, hl, hmem, List.take_succ_cons, List.mem_cons]
            by_cases hg : g ∈ l.take n
            · rw [if_pos hg, if_pos (.inr hg)]
            · rw [if_neg hg]
              by_cases hgf : g = f
              · rw [hgf, Function.update_self, if_pos (.inl rfl)]
              · rw [Function.update_of_ne hgf, if_neg (by tauto)]

/-- The pages from `v` on have been given back. -/
structure Clears (d : Frame) (v n : ℕ) (s s' : Kernel) : Prop where
  same : SameProcs s s'
  others : ∀ f, f ≠ d → s'.dir f = s.dir f
  tables : (s'.dir d).tables = (s.dir d).tables
  pte : (s'.dir d).pte = clear (s.dir d).pte v n
  freelist : s'.freelist = (window (s.dir d).pte v n).reverse ++ s.freelist

theorem deallocPages_spec (h : ∀ f ∈ window (s.dir d).pte v n, ValidFrame s f) :
    ∃ s', (List.range' v n).foldlM (deallocPage d) s = .ok s' ∧ Clears d v n s s' := by
  induction n generalizing s v with
  | zero => exact ⟨s, rfl, .refl s, fun _ _ => rfl, rfl, (clear_zero ..).symm, rfl⟩
  | succ n ih =>
      rw [List.range'_succ, List.foldlM_cons, deallocPage]
      rw [window_one_add] at h
      cases hpte : (s.dir d).pte v with
      | none =>
          rw [hpte] at h
          obtain ⟨u, hu, hclear⟩ := ih (v := v + 1) h
          have hsame : Function.update (s.dir d).pte v none = (s.dir d).pte := by
            rw [← hpte, Function.update_eq_self]
          refine ⟨u, hu, hclear.same, hclear.others, hclear.tables, ?_, ?_⟩
          · rw [hclear.pte, clear_succ, hsame]
          · rw [hclear.freelist, window_one_add, hpte]
            rfl
      | some pa =>
          rw [hpte] at h
          obtain ⟨t, ht, hback⟩ := kfree_spec (h pa (by simp))
          have hdir : ((t.setPte d v none).dir d).pte = Function.update (s.dir d).pte v none := by
            simp [Kernel.setPte, Kernel.setDir, hback.dir]
          have hrest : window ((t.setPte d v none).dir d).pte (v + 1) n =
              window (s.dir d).pte (v + 1) n := by
            rw [hdir]
            refine window_congr fun x h1 h2 => Function.update_of_ne ?_ ..
            omega
          obtain ⟨u, hu, hclear⟩ := ih (s := t.setPte d v none) (v := v + 1) fun f hf => by
            rw [hrest] at hf
            exact hback.same.valid.mpr (h f (by simp [hf]))
          have hsame : SameProcs s (t.setPte d v none) := .trans hback.same ⟨rfl, rfl, rfl, rfl, rfl⟩
          refine ⟨u, ?_, hsame.trans hclear.same, fun f hf => ?_, ?_, ?_, ?_⟩
          · simp only [ht, bind, Except.bind]
            exact hu
          · rw [hclear.others f hf]
            simp [Kernel.setPte, Kernel.setDir, hf, hback.dir]
          · rw [hclear.tables]
            simp [Kernel.setPte, Kernel.setDir, hback.dir]
          · rw [hclear.pte, hdir, clear_succ]
          · rw [hclear.freelist, hrest, window_one_add, hpte]
            simp [Kernel.setPte, Kernel.setDir, hback.freelist]

/-! ## `allocuvm` and `freevm` -/

/-- Everything is as before, but for the order of the free list. -/
structure Restored (s s' : Kernel) : Prop where
  same : SameProcs s s'
  dir : s'.dir = s.dir
  freelist : s'.freelist.Perm s.freelist

theorem Restored.refl (s : Kernel) : Restored s s := ⟨.refl s, rfl, .refl _⟩

/-- Pages that were placed are taken away again. -/
theorem Places.restore (h : Places d v fs s s') (hn : fs.length ≤ n)
    (hnone : ∀ x, v ≤ x → x < v + n → (s.dir d).pte x = none) (h' : Clears d v n s' s'') :
    Restored s s'' where
  same := h.same.trans h'.same
  dir := by
    funext f
    by_cases hf : f = d
    · rw [hf]
      exact PageDir.ext (h'.tables.trans h.tables) (by rw [h'.pte, h.pte, clear_place hn hnone])
    · rw [h'.others f hf, h.others f hf]
  freelist := by
    have hwin : window (s'.dir d).pte v n = fs := by
      rw [h.pte]
      refine (window_of_le hn fun x h1 h2 => ?_).trans (window_place ..)
      rw [place_of_not_mem (by omega)]
      exact hnone x (by omega) h2
    rw [h'.freelist, hwin]
    exact ((List.reverse_perm fs).append_right _).trans h.freelist.symm

theorem Places.restored (h : Places d v fs s s') (h' : Restored s' s'') : Places d v fs s s'' where
  same := h.same.trans h'.same
  others f hf := (congrFun h'.dir f).trans (h.others f hf)
  tables := (congrArg (fun g => (g d).tables) h'.dir).trans h.tables
  pte := (congrArg (fun g => (g d).pte) h'.dir).trans h.pte
  freelist := h.freelist.trans (h'.freelist.symm.append_left fs)

/-- What `allocuvm` can do. -/
inductive Allocates (s : Kernel) (proc : ProcId) (d : Frame) (oldsz newsz : ℕ) : Kernel → ℕ → Prop
  | refused (s' : Kernel) : Restored s s' → Allocates s proc d oldsz newsz s' 0
  | smaller : newsz < oldsz → newsz ≤ (s.proc proc).current_top →
      Allocates s proc d oldsz newsz s oldsz
  | grown (s' : Kernel) : oldsz ≤ newsz → newsz ≤ (s.proc proc).current_top →
      pages newsz - pages oldsz ≤ s.freelist.length →
      Places d (pages oldsz) (s.freelist.take (pages newsz - pages oldsz)) s s' →
      (∀ f ∈ s.freelist.take (pages newsz - pages oldsz), s'.mem f = fun _ => 0) →
      Allocates s proc d oldsz newsz s' newsz

theorem pages_mono {a b : ℕ} (h : a ≤ b) : pages a ≤ pages b := by
  show (a + 4096 - 1) / 4096 ≤ (b + 4096 - 1) / 4096
  omega

theorem pages_le_user {a : ℕ} (h : a ≤ USERTOP) : pages a ≤ userPages :=
  pages_mono (b := USERTOP) h

theorem allocuvm_spec (proc : ProcId) (d : Frame) (oldsz newsz : ℕ)
    (htop : (s.proc proc).current_top ≤ USERTOP)
    (hnone : ∀ x, pages oldsz ≤ x → x < pages newsz → (s.dir d).pte x = none)
    (hfree : ∀ f ∈ s.freelist, ValidFrame s f) :
    ∃ s' sz, allocuvm s proc d oldsz newsz = .ok (s', sz) ∧
      Allocates s proc d oldsz newsz s' sz := by
  unfold allocuvm
  by_cases htoo : (s.proc proc).current_top < newsz
  · rw [if_pos htoo]
    exact ⟨s, 0, rfl, .refused s (.refl s)⟩
  · rw [if_neg htoo]
    by_cases hlt : newsz < oldsz
    · rw [if_pos hlt]
      exact ⟨s, oldsz, rfl, .smaller hlt (Nat.not_lt.mp htoo)⟩
    · rw [if_neg hlt]
      have hle : pages oldsz ≤ pages newsz := pages_mono (Nat.not_lt.mp hlt)
      have huser : pages newsz ≤ userPages := pages_le_user (by omega)
      have hnone' : ∀ x, pages oldsz ≤ x → x < pages oldsz + (pages newsz - pages oldsz) →
          (s.dir d).pte x = none := fun x h1 h2 => hnone x h1 (by omega)
      obtain ⟨t, ht, hplace, hmem⟩ :=
        allocPages_spec (s := s) (d := d) (v := pages oldsz) (n := pages newsz - pages oldsz)
          (by omega) hnone'
      by_cases henough : pages newsz - pages oldsz ≤ s.freelist.length
      · refine ⟨t, newsz, ?_, .grown t (by omega) (by omega) henough hplace fun f hf => ?_⟩
        · simp only [ht, ok_bind, decide_eq_true henough, if_true]
        · rw [hmem, if_pos hf]
      · -- the pages that were there are given back
        have hlen : (s.freelist.take (pages newsz - pages oldsz)).length ≤
            pages newsz - pages oldsz := by
          rw [List.length_take]
          omega
        have hvalid : ∀ f ∈ window (t.dir d).pte (pages oldsz) (pages newsz - pages oldsz),
            ValidFrame t f := by
          intro f hf
          obtain ⟨x, ⟨h1, h2⟩, hx⟩ := mem_window.mp hf
          rw [hplace.same.valid]
          by_cases hin : x < pages oldsz + (s.freelist.take (pages newsz - pages oldsz)).length
          · rw [hplace.pte, place_of_mem h1 hin] at hx
            exact hfree f (List.mem_of_mem_take (List.mem_of_getElem? hx))
          · rw [hplace.pte_of_lt (by omega), hnone' x h1 h2] at hx
            cases hx
        obtain ⟨u, hu, hclear⟩ := deallocPages_spec hvalid
        have hne : ¬ newsz ≤ oldsz := fun h => by
          have := pages_mono h
          omega
        refine ⟨u, 0, ?_, .refused u (hplace.restore hlen hnone' hclear)⟩
        simp only [ht, ok_bind, decide_eq_false henough, Bool.false_eq_true, if_false, deallocuvm,
          if_neg hne, hu]

/-- A page directory is given back with all its pages. -/
structure Frees (d : Frame) (s s' : Kernel) : Prop where
  same : SameProcs s s'
  others : ∀ f, f ≠ d → s'.dir f = s.dir f
  freelist : s'.freelist.Perm
    (d :: (s.dir d).tables ++ window (s.dir d).pte 0 userPages ++ s.freelist)

theorem freevm_spec (hd : d ≠ 0) (hvalid : ValidFrame s d)
    (htables : ∀ f ∈ (s.dir d).tables, ValidFrame s f)
    (hpages : ∀ f ∈ window (s.dir d).pte 0 userPages, ValidFrame s f) :
    ∃ s', freevm s d = .ok s' ∧ Frees d s s' := by
  obtain ⟨t, ht, hclear⟩ := deallocPages_spec hpages
  obtain ⟨u, hu, hback⟩ := kfrees_spec (s := t) (l := (t.dir d).tables) fun f hf => by
    rw [hclear.tables] at hf
    exact hclear.same.valid.mpr (htables f hf)
  obtain ⟨w, hw, hlast⟩ := kfree_spec (s := u)
    (hback.same.valid.mpr (hclear.same.valid.mpr hvalid))
  have hdealloc : deallocuvm s d USERTOP 0 = .ok (t, 0) := by
    have hne : ¬ USERTOP ≤ 0 := by decide
    rw [deallocuvm, if_neg hne, show pages 0 = 0 from rfl, show pages USERTOP - 0 = userPages from rfl]
    simp only [ht, ok_bind]
  refine ⟨w, ?_, (hclear.same.trans hback.same).trans hlast.same, fun f hf => ?_, ?_⟩
  · rw [freevm, if_neg hd]
    simp only [hdealloc, ok_bind, hu, hw]
  · rw [hlast.dir, hback.dir, hclear.others f hf]
  · rw [hlast.freelist, hback.freelist, hclear.freelist, hclear.tables]
    refine List.Perm.cons d ?_
    have happ := ((List.reverse_perm (s.dir d).tables).append
      ((List.reverse_perm (window (s.dir d).pte 0 userPages)).append_right s.freelist))
    exact happ.trans (by rw [← List.append_assoc]; rfl)

end

end IntroToOS.SharedMemory

import IntroToOS.Lib.Run
import IntroToOS.Threads.AddressSpaces
import IntroToOS.Threads.References

/-! # Open files and current directories

`thread_fork` copies the entries of `ofile` and the `cwd` of the creator and takes no reference.
As long as no thread gives up what it has copied, nobody gives up the last reference of what a
thread still uses, and no slot with left-over copies is taken into use (`ReferencesKept`), every
entry and directory in use has a reference.
-/

namespace IntroToOS.Threads
open Lib
set_option autoImplicit false

def Proc.live (x : Proc) : Bool := x.state ≠ .UNUSED ∧ x.state ≠ .ZOMBIE

def Proc.holding (x : Proc) : Holding :=
  { live := x.live, is_thread := x.is_thread, ofile := x.ofile, cwd := x.cwd }

def Kernel.table (s : Kernel) : Table := fun p => (s.proc p).holding

/-- Between two calls: no reference is held outside the table, whoever lives has a directory, and
only threads use what they have no reference of. -/
structure TableInv (fs : Files) (T : Table) : Prop where
  files : FileInv fs T (fun _ => 0) (fun _ => 0)
  cwd : ∀ p, (T p).live = true → ∃ c, (T p).cwd = some c
  owners : ∀ p, (T p).live = true → (T p).is_thread = false →
    (∀ k, ∀ e ∈ (T p).ofile k, e.borrowed = false) ∧ ∀ c ∈ (T p).cwd, c.borrowed = false

section
variable {s t : Kernel} {p q np : ProcId} {fs : Files} {T : Table} {x : Holding}
  {a : InodeId → ℕ} {b : FileId → ℕ}

theorem table_setProc (s : Kernel) (p : ProcId) (y : Proc) :
    (s.setProc p y).table = s.table.setSlot p y.holding := by
  funext q
  by_cases hq : q = p
  · subst hq
    rw [setSlot_self, Kernel.table, Kernel.setProc_self]
  · rw [setSlot_of_ne hq, Kernel.table, Kernel.setProc_of_ne hq, Kernel.table]

theorem setSlot_same (h : x = T p) : T.setSlot p x = T := by
  rw [h]
  exact Function.update_eq_self ..

theorem table_setProc_same {y : Proc} (h : y.holding = (s.proc p).holding) :
    (s.setProc p y).table = s.table := by
  rw [table_setProc]
  exact setSlot_same h

theorem live_of_running (h : (s.proc p).state = .RUNNING) : (s.table p).live = true := by
  simp [Kernel.table, Proc.holding, Proc.live, h]

theorem setSlot_setSlot (T : Table) (p : ProcId) (x y : Holding) :
    (T.setSlot p x).setSlot p y = T.setSlot p y := Function.update_idem ..

theorem setSlot_setEntry (T : Table) (p : ProcId) (x : Holding) (k : Fin NOFILE) (v : Option Fd) :
    (T.setSlot p x).setEntry p k v =
      T.setSlot p { x with ofile := Function.update x.ofile k v } := by
  rw [Table.setEntry, setSlot_setSlot, setSlot_self]

theorem setSlot_setCwd (T : Table) (p : ProcId) (x : Holding) (c : Option Cwd) :
    (T.setSlot p x).setCwd p c = T.setSlot p { x with cwd := c } := by
  rw [Table.setCwd, setSlot_setSlot, setSlot_self]

theorem TableInv.setFiles (h : TableInv fs T) {fs' : Files}
    (hfiles : FileInv fs' T (fun _ => 0) (fun _ => 0)) : TableInv fs' T :=
  ⟨hfiles, h.cwd, h.owners⟩

theorem TableInv.setSlot (h : TableInv fs T) {fs' : Files}
    (hfiles : FileInv fs' (T.setSlot p x) (fun _ => 0) (fun _ => 0))
    (hcwd : x.live = true → ∃ c, x.cwd = some c)
    (howners : x.live = true → x.is_thread = false →
      (∀ k, ∀ e ∈ x.ofile k, e.borrowed = false) ∧ ∀ c ∈ x.cwd, c.borrowed = false) :
    TableInv fs' (T.setSlot p x) := by
  refine ⟨hfiles, fun q hq => ?_, fun q hq => ?_⟩ <;> by_cases hqp : q = p
  · subst hqp
    rw [setSlot_self] at hq ⊢
    exact hcwd hq
  · rw [setSlot_of_ne hqp] at hq ⊢
    exact h.cwd q hq
  · subst hqp
    rw [setSlot_self] at hq ⊢
    exact howners hq
  · rw [setSlot_of_ne hqp] at hq ⊢
    exact h.owners q hq

/-- The table is as before where only the state of a process is new, and it is not taken into use. -/
theorem setState_table {st : ProcState} (hst : st = .ZOMBIE ∨ st = .UNUSED) :
    (s.setState p st).table = s.table.setSlot p { s.table p with live := false } := by
  rw [Kernel.setState, table_setProc]
  rcases hst with rfl | rfl <;> simp [Proc.holding, Proc.live, Kernel.table]

/-! ## Processes that come and go -/

theorem wakeup1_table (s : Kernel) (chan : ProcId) : (wakeup1 s chan).table = s.table := by
  funext q
  show (if _ then _ else _ : Proc).holding = _
  split
  · next h => simp [Proc.holding, Proc.live, Kernel.table, h.1]
  · rfl

theorem reparent_table (s : Kernel) (p init : ProcId) :
    (reparent s p init).table = s.table ∧ (reparent s p init).files = s.files := by
  unfold reparent
  generalize List.finRange NPROC = l
  induction l generalizing s with
  | nil => exact ⟨rfl, rfl⟩
  | cons q l ih =>
      rw [List.foldl_cons]
      obtain ⟨htable, hfiles⟩ := ih (if (s.proc q).parent = some p then
        let s := s.setProc q { s.proc q with parent := some init }
        if (s.proc q).state = .ZOMBIE then wakeup1 s init else s else s)
      rw [htable, hfiles]
      have hset : (s.setProc q { s.proc q with parent := some init }).table = s.table :=
        table_setProc_same rfl
      split
      · simp only
        split
        · rw [wakeup1_table, hset]
          exact ⟨rfl, rfl⟩
        · exact ⟨hset, rfl⟩
      · exact ⟨rfl, rfl⟩

theorem wakeupParent_table (s : Kernel) (p : ProcId) :
    (wakeupParent s p).table = s.table ∧ (wakeupParent s p).files = s.files := by
  unfold wakeupParent
  split
  · exact ⟨rfl, rfl⟩
  · exact ⟨wakeup1_table .., rfl⟩

theorem embryo_table (s : Kernel) (np : ProcId) :
    (s.embryo np).table = s.table.setSlot np { s.table np with live := true } :=
  table_setProc s np { s.proc np with state := .EMBRYO, pid := s.nextpid }

theorem unused_live (h : (s.proc np).state = .UNUSED) : (s.table np).live = false := by
  simp [Kernel.table, Proc.holding, Proc.live, h]

/-- The slot of the embryo is given up again. -/
theorem abandon_table {u : Kernel} {y : Proc} (hnp : (s.proc np).state = .UNUSED)
    (hu : u.table = (s.embryo np).table)
    (hy : y.holding = { s.table np with live := false }) : (u.setProc np y).table = s.table := by
  rw [table_setProc, hu, embryo_table, setSlot_setSlot, hy]
  refine setSlot_same ?_
  rw [← unused_live hnp]

theorem allocproc_table {k : Bool} (h : allocproc s k = (t, none)) :
    t.table = s.table ∧ t.files = s.files := by
  rcases allocproc_none h with rfl | ⟨np, hnp, rfl⟩
  · exact ⟨rfl, rfl⟩
  · refine ⟨abandon_table hnp rfl ?_, rfl⟩
    rw [embryo_proc_self]
    rfl

/-- The files of the child: what it has now counts, except for copies left over in the slot. -/
theorem ends_dupFiles (inv : FileInv fs T a b) (hp : (T p).live = true)
    (hnp : (T np).live = false) :
    Ends ((List.finRange NOFILE).foldlM (dupFile (T p).ofile) (fs, (T np).ofile)) (fun r =>
      FileInv r.1 (T.setSlot np { T np with ofile := r.2 }) a b ∧
      ∀ k, ∀ e ∈ r.2 k, e.borrowed = false ∨ (T np).ofile k = some e ∧ (T p).ofile k = none)
      Unrelated := by
  have hne : p ≠ np := by
    rintro rfl
    rw [hp] at hnp
    cases hnp
  refine Ends.mono (Ends.foldlM (P := fun l r =>
    FileInv r.1 (T.setSlot np { T np with ofile := r.2 }) a b ∧
      ∀ k, ∀ e ∈ r.2 k, e.borrowed = false ∨
        (T np).ofile k = some e ∧ (k ∈ l ∨ (T p).ofile k = none)) ?_ ?_) ?_
  · refine ⟨?_, fun k e he => .inr ⟨he, .inl (List.mem_finRange k)⟩⟩
    have hself : T.setSlot np { T np with ofile := (T np).ofile } = T := setSlot_same rfl
    exact hself.symm ▸ inv
  · rintro i l ⟨files, row⟩ ⟨hinv, hrow⟩
    simp only at hinv hrow
    unfold dupFile
    split
    · next hnone =>
      refine ⟨hinv, fun k e he => (hrow k e he).imp_right fun ⟨hold, hor⟩ => ⟨hold, ?_⟩⟩
      rcases hor with hmem | hk
      · rcases List.mem_cons.mp hmem with rfl | hmem
        · exact .inr hnone
        · exact .inl hmem
      · exact .inr hk
    · next e he =>
      have hslot : (T.setSlot np { T np with ofile := row }) p = T p := setSlot_of_ne hne
      obtain ⟨href, hgen⟩ := hinv.entry (p := p) (by rw [hslot]; exact hp)
        (by rw [hslot]; exact he)
      refine (ends_filedup hinv (by omega)).bind fun files' hf => ⟨?_, fun k e' he' => ?_⟩
      · have hstore := hf.1.storeEntry (p := np) (k := i) (e := { e with borrowed := false }) rfl rfl
          ((hf.2 e.file).trans hgen)
        rw [setSlot_setEntry] at hstore
        exact hstore
      · simp only at he'
        by_cases hki : k = i
        · subst hki
          rw [Function.update_self] at he'
          obtain rfl := Option.some.inj he'
          exact .inl rfl
        · rw [Function.update_of_ne hki] at he'
          refine (hrow k e' he').imp_right fun ⟨hold, hor⟩ => ⟨hold, hor.imp_left fun hmem => ?_⟩
          exact (List.mem_cons.mp hmem).resolve_left hki
  · rintro ⟨files, row⟩ ⟨hinv, hrow⟩
    refine ⟨hinv, fun k e he => (hrow k e he).imp_right fun ⟨hold, hor⟩ => ⟨hold, ?_⟩⟩
    exact hor.resolve_left List.not_mem_nil

/-- Nothing that was copied without a reference is left over where the creator has no entry. -/
def CleanSlot (s : Kernel) (p : ProcId) : Prop :=
  ∀ np ∈ findUnused s, ∀ k, (s.proc p).ofile k = none →
    ∀ e ∈ (s.proc np).ofile k, e.borrowed = false

instance (s : Kernel) (p : ProcId) : Decidable (CleanSlot s p) := inferInstanceAs (Decidable (∀ _, _))

theorem allocproc_kstack {k : Bool} (h : allocproc s k = (t, some np)) : k = true := by
  unfold allocproc at h
  split at h
  · cases h
  · cases k with
    | true => rfl
    | false =>
        have hnone := congrArg Prod.snd h
        cases hnone

theorem ne_of_live (hp : (T p).live = true) (hnp : (T np).live = false) : p ≠ np := by
  rintro rfl
  rw [hp] at hnp
  cases hnp

/-- From the table of an embryo to that of the process in its place. -/
theorem embryo_setProc {u : Kernel} (hu : u.proc = (s.embryo np).proc) (y : Proc) :
    (u.setProc np y).table = s.table.setSlot np y.holding := by
  have htable : u.table = (s.embryo np).table := by
    funext q
    rw [Kernel.table, hu, Kernel.table]
  rw [table_setProc, htable, embryo_table, setSlot_setSlot]

theorem embryo_inv {u : Kernel} {y : Proc} (hu : u.proc = (s.embryo np).proc)
    (h : TableInv u.files (s.table.setSlot np y.holding)) :
    TableInv (u.setProc np y).files (u.setProc np y).table := by
  rw [embryo_setProc hu]
  exact h

/-- `fork` gives up the slot. -/
theorem fork_fails {u : Kernel} {y : Proc} (h : TableInv s.files s.table)
    (hfree : (s.proc np).state = .UNUSED) (hu : u.proc = (s.embryo np).proc)
    (hfiles : u.files = s.files)
    (hy : y = { u.proc np with pgdir := none, state := .UNUSED }) :
    TableInv (u.setProc np y).files (u.setProc np y).table := by
  refine embryo_inv hu ?_
  have hsame : s.table.setSlot np y.holding = s.table := by
    refine setSlot_same ?_
    rw [hy, hu, embryo_proc_self]
    simp [Proc.holding, Proc.live, Kernel.table, hfree]
  rw [hsame, hfiles]
  exact h

/-- The child holds references of its own to all that its parent uses. -/
theorem TableInv.forked {files : Files} {row : Fin NOFILE → Option Fd} {c : Cwd}
    (h : TableInv fs T) (hclean : ∀ k, (T p).ofile k = none → ∀ e ∈ (T np).ofile k,
      e.borrowed = false)
    (hinv : FileInv files (T.setSlot np { T np with ofile := row, cwd := some ⟨c.inode, false⟩ })
      (fun _ => 0) (fun _ => 0))
    (hrow : ∀ k, ∀ e ∈ row k, e.borrowed = false ∨
      (T np).ofile k = some e ∧ (T p).ofile k = none)
    (hx : x.live = true ∧ x.ofile = row ∧ x.cwd = some ⟨c.inode, false⟩) :
    TableInv files (T.setSlot np x) := by
  have howned : ∀ k, ∀ e ∈ x.ofile k, e.borrowed = false := by
    intro k e he
    rw [hx.2.1] at he
    rcases hrow k e he with hb | ⟨hold, hnone⟩
    · exact hb
    · exact hclean k hnone e hold
  have hcwd : ∀ d ∈ x.cwd, d.borrowed = false := by
    intro d hd
    rw [hx.2.2] at hd
    obtain rfl := Option.some.inj hd
    rfl
  have hfiles : FileInv files (T.setSlot np x) (fun _ => 0) (fun _ => 0) := by
    have hset := hinv.setSlot (p := np) (x := x) ?_ ?_ ?_ ?_
    · rwa [setSlot_setSlot] at hset
    · intro k e he _
      refine hinv.current np k e ?_ (.inl (howned k e he))
      rw [setSlot_self]
      exact hx.2.1 ▸ he
    · intro g
      rw [setSlot_self, hx.2.1]
    · intro j
      rw [setSlot_self, hx.2.2]
    · intro _
      refine ⟨fun k e he hb => ?_, fun d hd hb => ?_⟩
      · rw [howned k e he] at hb
        cases hb
      · rw [hcwd d hd] at hb
        cases hb
  exact h.setSlot hfiles (fun _ => ⟨_, hx.2.2⟩) fun _ _ => ⟨howned, hcwd⟩

theorem ends_fork {k : Bool} {c : Copy} (h : TableInv s.files s.table)
    (hp : (s.proc p).state = .RUNNING) (hok : k = true → c = .done → CleanSlot s p) :
    Ends (fork s p k c) (fun r => TableInv r.1.files r.1.table) Unrelated := by
  unfold fork
  split
  · next u halloc =>
    obtain ⟨htable, hfiles⟩ := allocproc_table halloc
    show TableInv u.files u.table
    rw [htable, hfiles]
    exact h
  · next u np halloc =>
    have hkstack := allocproc_kstack halloc
    obtain ⟨hfree, hnp, rfl⟩ := allocproc_some halloc
    have hdead := unused_live hfree
    have hlive := live_of_running hp
    have hne := ne_of_live hlive hdead
    cases c with
    | noDir => exact fork_fails h hfree rfl rfl rfl
    | noPage => exact fork_fails h hfree rfl rfl rfl
    | done =>
        obtain ⟨c, hc⟩ := h.cwd p hlive
        have hp' : (s.embryo np).proc p = s.proc p := embryo_proc_of_ne hne
        have hnp' : ((s.embryo np).proc np).ofile = (s.table np).ofile := by
          rw [embryo_proc_self]
          rfl
        show Ends ((List.foldlM (dupFile ((s.embryo np).proc p).ofile)
          (s.files, ((s.embryo np).proc np).ofile) (List.finRange NOFILE)) >>= _) _ _
        rw [hp', hnp', show (s.proc p).cwd = some c from hc]
        refine (ends_dupFiles h.files hlive hdead).bind ?_
        rintro ⟨files, ofile⟩ ⟨hinv, hrow⟩
        have hslot : (s.table.setSlot np { s.table np with ofile := ofile }) p = s.table p :=
          setSlot_of_ne hne
        have hdir := hinv.dir (p := p) (by rw [hslot]; exact hlive) (by rw [hslot]; exact hc)
        have hstore := (hinv.walk (idup_walk hinv.cached (i := c.inode) (by omega))).storeCwd
          (p := np)
        rw [setSlot_setCwd] at hstore
        refine embryo_inv rfl ?_
        exact h.forked (hok hkstack rfl np hnp) hstore hrow ⟨rfl, rfl, rfl⟩

theorem fdRefs_borrowFile (ofile old : Fin NOFILE → Option Fd) (g : FileId) (k : Fin NOFILE) :
    fdRefs g (borrowFile ofile old k) ≤ fdRefs g (old k) := by
  unfold borrowFile
  split
  · exact Nat.le_refl _
  · rw [fdRefs_borrowed rfl]
    exact Nat.zero_le _

/-- The copies of a thread are those of what its live creator has. -/
theorem TableInv.cloned (h : TableInv fs T) (hp : (T p).live = true)
    (hclean : ∀ k, (T p).ofile k = none → ∀ e ∈ (T np).ofile k, e.borrowed = false)
    (hthread : x.is_thread = true)
    (hfiles : x.ofile = borrowFile (T p).ofile (T np).ofile)
    (hdir : x.cwd = (T p).cwd.map fun c => { c with borrowed := true }) :
    TableInv fs (T.setSlot np x) := by
  have hentry : ∀ k, ∀ e ∈ x.ofile k, (∃ e₀ ∈ (T p).ofile k, e = { e₀ with borrowed := true }) ∨
      e ∈ (T np).ofile k ∧ e.borrowed = false := by
    intro k e he
    rw [hfiles, borrowFile] at he
    split at he
    · next hnone => exact .inr ⟨he, hclean k hnone e he⟩
    · next e₀ he₀ => exact .inl ⟨e₀, he₀, (Option.some.inj he).symm⟩
  refine h.setSlot (h.files.setSlot (fun k e he hor => ?_) (fun g => ?_) (fun j => ?_)
    fun _ => ⟨fun k e he hb => ?_, fun c hc hb => ?_⟩) (fun _ => ?_) fun _ hno => ?_
  · rcases hentry k e he with ⟨e₀, he₀, rfl⟩ | ⟨hold, hb⟩
    · exact h.files.current p k e₀ he₀ (.inr hp)
    · exact h.files.current np k e hold (.inl hb)
  · rw [hfiles]
    exact tally_mono fun k => fdRefs_borrowFile ..
  · rw [hdir]
    cases (T p).cwd <;> exact Nat.zero_le _
  · rcases hentry k e he with ⟨e₀, he₀, rfl⟩ | ⟨-, hb'⟩
    · cases hb₀ : e₀.borrowed with
      | false => exact .inl (fileRefs_pos (e := e₀) he₀ hb₀)
      | true => exact .inr ⟨p, hp, k, e₀, he₀, hb₀, rfl⟩
    · rw [hb'] at hb
      cases hb
  · rw [hdir] at hc
    obtain ⟨c₀, hc₀, rfl⟩ := Option.map_eq_some_iff.mp hc
    cases hb₀ : c₀.borrowed with
    | false => exact .inl (dirRefs_pos (c := c₀) hc₀ hb₀)
    | true => exact .inr ⟨p, hp, c₀, hc₀, hb₀, rfl⟩
  · obtain ⟨c, hc⟩ := h.cwd p hp
    rw [hdir, hc]
    exact ⟨_, rfl⟩
  · rw [hthread] at hno
    cases hno

theorem thread_fork_table {k : Bool} {stack : ℕ} (h : TableInv s.files s.table)
    (hp : (s.proc p).state = .RUNNING) (hok : k = true → CleanSlot s p) :
    TableInv (thread_fork s p k stack).1.files (thread_fork s p k stack).1.table := by
  unfold thread_fork
  split
  · next u halloc =>
    obtain ⟨htable, hfiles⟩ := allocproc_table halloc
    show TableInv u.files u.table
    rw [htable, hfiles]
    exact h
  · next u np halloc =>
    have hkstack := allocproc_kstack halloc
    obtain ⟨hfree, hnp, rfl⟩ := allocproc_some halloc
    have hlive := live_of_running hp
    have hp' : (s.embryo np).proc p = s.proc p :=
      embryo_proc_of_ne (ne_of_live hlive (unused_live hfree))
    refine embryo_inv rfl (h.cloned hlive (hok hkstack np hnp) rfl ?_ ?_)
    · show borrowFile ((s.embryo np).proc p).ofile ((s.embryo np).proc np).ofile = _
      rw [hp', embryo_proc_self]
      rfl
    · show ((s.embryo np).proc p).cwd.map _ = _
      rw [hp']
      rfl

/-! ## Leaving -/

theorem lentFile_setSlot {f : FileId} (hx : x.live = false) (hl : (T.setSlot p x).lentFile f) :
    T.lentFile f := by
  obtain ⟨q, hlive, k, e, he, hb, rfl⟩ := hl
  by_cases hq : q = p
  · rw [hq, setSlot_self, hx] at hlive
    cases hlive
  · rw [setSlot_of_ne hq] at hlive he
    exact ⟨q, hlive, k, e, he, hb, rfl⟩

theorem lentDir_setSlot {i : InodeId} (hx : x.live = false) (hl : (T.setSlot p x).lentDir i) :
    T.lentDir i := by
  obtain ⟨q, hlive, c, hc, hb, rfl⟩ := hl
  by_cases hq : q = p
  · rw [hq, setSlot_self, hx] at hlive
    cases hlive
  · rw [setSlot_of_ne hq] at hlive hc
    exact ⟨q, hlive, c, hc, hb, rfl⟩

/-- Whatever a thread uses of what `p` has open, `p` does not have the only references. -/
def FilesOutlive (fs : Files) (T : Table) (row : Fin NOFILE → Option Fd) : Prop :=
  ∀ f, T.lentFile f → (rowRefs f row : ℤ) < (fs.file f).ref

/-- The loop of `exit`: the files of `p` are closed, one after the other. -/
theorem ends_closeFiles {row : Fin NOFILE → Option Fd}
    (inv : FileInv fs (T.setSlot p { x with live := false, ofile := row }) a (fun _ => 0))
    (howned : ∀ k, ∀ e ∈ row k, e.borrowed = false) (hout : FilesOutlive fs T row) :
    Ends ((List.finRange NOFILE).foldlM closeFile (fs, row)) (fun r =>
      FileInv r.1 (T.setSlot p { x with live := false, ofile := r.2 }) a (fun _ => 0) ∧
      ∀ i, (r.1.inode i).ref - onInode r.1 i = (fs.inode i).ref - onInode fs i) Unrelated := by
  refine Ends.mono (Ends.foldlM (P := fun _ r =>
    FileInv r.1 (T.setSlot p { x with live := false, ofile := r.2 }) a (fun _ => 0) ∧
      (∀ k, ∀ e ∈ r.2 k, e.borrowed = false) ∧ FilesOutlive r.1 T r.2 ∧
      ∀ i, (r.1.inode i).ref - onInode r.1 i = (fs.inode i).ref - onInode fs i)
    ?_ ?_) fun r hr => ⟨hr.1, hr.2.2.2⟩
  · exact ⟨inv, howned, hout, fun _ => rfl⟩
  rintro k l ⟨files, row⟩ ⟨hinv, howned, hout, hsame⟩
  simp only at hinv howned hout hsame
  unfold closeFile
  split
  · exact ⟨hinv, howned, hout, hsame⟩
  · next e he =>
    simp only at he
    have hb := howned k e he
    have hrow : ∀ g, rowRefs g (Function.update row k none) + one e.file g = rowRefs g row := by
      intro g
      have := rowRefs_update (f := g) row k none
      rw [he, fdRefs_owned hb, fdRefs_none] at this
      omega
    have hkept : (T.setSlot p { x with live := false, ofile := row }).lentFile e.file →
        (0 : ℕ) + 2 ≤ (files.file e.file).ref := by
      intro hl
      have := hout e.file (lentFile_setSlot rfl hl)
      have := hrow e.file
      rw [one_self] at this
      omega
    have hslot : ((T.setSlot p { x with live := false, ofile := row }) p).ofile k = some e := by
      rw [setSlot_self]
      exact he
    have htake := hinv.takeEntry hslot hb hkept
    rw [setSlot_setEntry] at htake
    refine (ends_fileclose htake).bind fun files' ⟨hinv', hclosed⟩ => ?_
    refine ⟨hinv', fun j e' he' => ?_, fun g hg => ?_, fun i => (hclosed.inodes i).trans (hsame i)⟩
    · simp only at he'
      by_cases hjk : j = k
      · subst hjk
        rw [Function.update_self] at he'
        cases he'
      · rw [Function.update_of_ne hjk] at he'
        exact howned j e' he'
    · have := hout g hg
      have := hclosed.refs g
      have := hrow g
      simp only
      omega

/-- The directory of a process that a thread uses too has another reference. -/
def DirOutlives (fs : Files) (T : Table) (c : Cwd) : Prop :=
  T.lentDir c.inode → (onInode fs c.inode + 2 : ℤ) ≤ (fs.inode c.inode).ref

theorem ends_closeAll {y : Proc} (h : TableInv fs T) (hy : y.holding = T p)
    (hp : (T p).live = true) (hok : y.is_thread = false →
      FilesOutlive fs T y.ofile ∧ ∀ c ∈ y.cwd, DirOutlives fs T c) :
    Ends (closeAll fs y) (fun r =>
      FileInv r.1 (T.setSlot p { T p with live := false, ofile := r.2, cwd := none })
        (fun _ => 0) (fun _ => 0)) Unrelated := by
  have hofile : y.ofile = (T p).ofile := congrArg Holding.ofile hy
  have hcwd : y.cwd = (T p).cwd := congrArg Holding.cwd hy
  have hthread : y.is_thread = (T p).is_thread := congrArg Holding.is_thread hy
  unfold closeAll
  split
  · refine h.files.setSlot (fun k e he hor => ?_) (fun g => ?_) (fun j => Nat.zero_le _)
      (by simp)
    · exact h.files.current p k e (hofile ▸ he) (.inr hp)
    · rw [hofile]
  · next hno =>
    have hno' : y.is_thread = false := by simpa using hno
    obtain ⟨hfiles, hdirs⟩ := hok hno'
    obtain ⟨howned, hcwds⟩ := h.owners p hp (hthread ▸ hno')
    obtain ⟨c, hc⟩ := h.cwd p hp
    have hdead : FileInv fs (T.setSlot p { T p with live := false, ofile := y.ofile })
        (fun _ => 0) (fun _ => 0) := by
      rw [hofile]
      exact h.files.setSlot (fun k e he _ => h.files.current p k e he (.inr hp))
        (fun _ => Nat.le_refl _) (fun _ => Nat.le_refl _) (by simp)
    refine (ends_closeFiles hdead (hofile ▸ howned) hfiles).bind ?_
    rintro ⟨files, row⟩ ⟨hinv, hsame⟩
    rw [hcwd, hc]
    have hslot : ((T.setSlot p { T p with live := false, ofile := row }) p).cwd = some c := by
      rw [setSlot_self]
      exact hc
    have hkept : (T.setSlot p { T p with live := false, ofile := row }).lentDir c.inode →
        (0 : ℕ) + onInode files c.inode + 2 ≤ (files.inode c.inode).ref := by
      intro hl
      have := hdirs c (hcwd ▸ hc) (lentDir_setSlot rfl hl)
      have := hsame c.inode
      simp only at this
      omega
    have htake := hinv.takeCwd hslot (hcwds c hc) hkept
    rw [setSlot_setCwd] at htake
    exact htake.iput

/-- The process becomes a zombie, after the wake-ups of `exit`. -/
theorem zombie_inv {u v : Kernel} (h : TableInv fs T) (hu : u.table = T.setSlot p x)
    (hv : v.table = u.table ∧ v.files = u.files)
    (hinv : FileInv u.files (T.setSlot p { x with live := false }) (fun _ => 0) (fun _ => 0)) :
    TableInv (v.setState p .ZOMBIE).files (v.setState p .ZOMBIE).table := by
  rw [setState_table (.inl rfl), hv.1, hu, setSlot_setSlot, setSlot_self]
  show TableInv v.files _
  rw [hv.2]
  exact h.setSlot hinv (by simp) (by simp)

theorem ends_exit (h : TableInv s.files s.table) (hp : (s.proc p).state = .RUNNING)
    (hok : (s.proc p).is_thread = false → FilesOutlive s.files s.table (s.proc p).ofile ∧
      ∀ c ∈ (s.proc p).cwd, DirOutlives s.files s.table c) :
    Ends (exit s p) (fun r => TableInv r.1.files r.1.table) Unrelated := by
  unfold exit
  split
  · trivial
  · next init _ =>
    split
    · trivial
    · refine (ends_closeAll (p := p) h rfl (live_of_running hp) hok).bind ?_
      rintro ⟨files, ofile⟩ hinv
      have hquiet : ∀ u : Kernel, (reparent (wakeupParent u p) p init).table = u.table ∧
          (reparent (wakeupParent u p) p init).files = u.files := by
        intro u
        rw [(reparent_table ..).1, (reparent_table ..).2]
        exact wakeupParent_table u p
      exact zombie_inv (x := { s.table p with ofile := ofile, cwd := none }) h
        (table_setProc (s.setFiles files) p _) (hquiet _) hinv

/-! ## The other calls -/

theorem finish_table (s : Kernel) (p : ProcId) : (finish s p).table = s.table :=
  table_setProc_same rfl

theorem sleep_table {c : Blocking} (hp : (s.proc p).state = .RUNNING) :
    (sleep s p c).table = s.table := by
  refine table_setProc_same ?_
  simp [Proc.holding, Proc.live, hp]

theorem finish_inv (h : TableInv s.files s.table) :
    TableInv (finish s p).files (finish s p).table := by
  rw [finish_table]
  exact h

theorem sleep_inv {c : Blocking} (h : TableInv s.files s.table)
    (hp : (s.proc p).state = .RUNNING) :
    TableInv (sleep s p c).files (sleep s p c).table := by
  rw [sleep_table hp]
  exact h

/-- A slot that is given up keeps what it has. -/
theorem reap_inv {u : Kernel} {y : Proc} (h : TableInv s.files s.table) (hu : u.proc = s.proc)
    (hf : u.files = s.files) (hq : (s.proc q).state = .ZOMBIE)
    (hy : y = { u.proc q with state := .UNUSED, pid := 0, parent := none, killed := false }) :
    TableInv (u.setProc q y).files (u.setProc q y).table := by
  have htable : u.table = s.table := by
    funext r
    rw [Kernel.table, hu, Kernel.table]
  have hsame : y.holding = s.table q := by
    simp [hy, hu, Proc.holding, Proc.live, Kernel.table, hq]
  rw [table_setProc, htable, setSlot_same hsame]
  exact hf ▸ h

theorem ends_wait (h : TableInv s.files s.table) (hp : (s.proc p).state = .RUNNING) :
    Ends (wait s p) (fun r => TableInv r.1.files r.1.table) Unrelated := by
  unfold wait
  split
  · next q hq =>
    unfold freevm
    split
    · trivial
    · exact finish_inv (reap_inv h rfl rfl (zombieChild_spec hq).2 rfl)
  · split
    · exact finish_inv h
    · exact sleep_inv h hp

theorem join_table (h : TableInv s.files s.table) (hp : (s.proc p).state = .RUNNING) :
    TableInv (join s p).1.files (join s p).1.table := by
  unfold join
  split
  · next q hq =>
    have hz : (s.proc q).parent = some p ∧ (s.proc q).is_thread = true ∧
      (s.proc q).state = .ZOMBIE := by simpa using List.find?_some hq
    have hdead : (s.table q).live = false := by
      simp [Kernel.table, Proc.holding, Proc.live, hz.2.2]
    show TableInv _ (finish _ p).table
    rw [finish_table, table_setProc]
    refine h.setSlot (h.files.setSlot (fun k e he hor => ?_) (fun _ => Nat.le_refl _)
      (fun _ => Nat.le_refl _) fun hx => ?_) (fun hx => ?_) fun hx => ?_
    · exact h.files.current q k e he (.inl (hor.resolve_right (by simp [Proc.holding, Proc.live])))
    all_goals simp [Proc.holding, Proc.live] at hx
  · split
    · exact finish_inv h
    · exact sleep_inv h hp

theorem kill_table (s : Kernel) (pid : ℕ) :
    (kill s pid).1.table = s.table ∧ (kill s pid).1.files = s.files := by
  unfold kill
  split
  · exact ⟨rfl, rfl⟩
  · next q _ =>
    refine ⟨table_setProc_same ?_, rfl⟩
    by_cases hs : (s.proc q).state = .SLEEPING
    · simp [Proc.holding, Proc.live, hs]
    · simp [Proc.holding, Proc.live, hs]

theorem sbrk_table (s : Kernel) (p : ProcId) (n : ℤ) (enough : Bool) :
    (sbrk s p n enough).1.table = s.table ∧ (sbrk s p n enough).1.files = s.files := by
  have hshare : ∀ (u : Kernel) (sz : ℕ), (shareSize u p sz).table = u.table := by
    intro u sz
    funext q
    show (if _ then _ else _ : Proc).holding = _
    split <;> rfl
  unfold sbrk growproc
  simp only
  split
  · exact ⟨rfl, rfl⟩
  · exact ⟨(hshare _ _).trans (table_setProc_same rfl), rfl⟩

theorem execLoad_table {load : Load} : Ends (execLoad s p load)
    (fun r => r.1.table = s.table ∧ r.1.files = s.files) Unrelated := by
  cases load with
  | noDir => exact ⟨rfl, rfl⟩
  | bad => exact ⟨rfl, rfl⟩
  | done sz =>
      unfold execLoad freevm
      cases (s.proc p).pgdir with
      | none => trivial
      | some d => exact ⟨table_setProc_same (s := s) rfl, rfl⟩

/-- What the calls that look a path up have in common. -/
theorem ends_lookup (h : TableInv s.files s.table) (hp : (s.proc p).state = .RUNNING)
    {path : Path} {next : Files × Option InodeId → Kern (Kernel × Reply)}
    (hnone : ∀ files, TableInv files s.table →
      Ends (next (files, none)) (fun r => TableInv r.1.files r.1.table) Unrelated)
    (hsome : ∀ files ip c, (s.proc p).cwd = some c → path.found = true →
      FileInv files s.table (plus (fun _ => 0) ip) (fun _ => 0) →
      Walk s.files files ip (path.target (s.files.inode c.inode).inum) →
      Ends (next (files, some ip)) (fun r => TableInv r.1.files r.1.table) Unrelated) :
    Ends (namei s.files ((s.proc p).cwd.map Cwd.inode) path >>= next)
      (fun r => TableInv r.1.files r.1.table) Unrelated := by
  obtain ⟨c, hc⟩ := h.cwd p (live_of_running hp)
  have hc' : (s.proc p).cwd = some c := hc
  rw [hc', Option.map_some]
  refine (ends_namei h.files (live_of_running hp) hc path).bind ?_
  rintro ⟨files, ip⟩ ⟨hip, hno⟩
  cases ip with
  | none => exact hnone files (h.setFiles (hno rfl))
  | some ip =>
      obtain ⟨hfound, hinv, hwalk⟩ := hip ip rfl
      exact hsome files ip c hc' hfound hinv hwalk

theorem ends_exec {path : Path} {load : Load} (h : TableInv s.files s.table)
    (hp : (s.proc p).state = .RUNNING) :
    Ends (exec s p path load) (fun r => TableInv r.1.files r.1.table) Unrelated := by
  refine ends_lookup h hp (fun files hf => hf) fun files ip c _ _ hinv _ => ?_
  refine (ends_ilock hinv.held_pos).bind fun _ _ => ?_
  refine (ends_iunlockput_held hinv).bind fun files' ⟨_, hput⟩ => ?_
  refine execLoad_table.mono fun r ⟨htable, hfiles⟩ => ?_
  rw [htable, hfiles]
  exact h.setFiles hput

theorem TableInv.setEntry {fs' : Files} {k : Fin NOFILE} {v : Option Fd} (h : TableInv fs T)
    (hfiles : FileInv fs' (T.setEntry p k v) (fun _ => 0) (fun _ => 0))
    (hv : ∀ e ∈ v, e.borrowed = false) : TableInv fs' (T.setEntry p k v) := by
  refine h.setSlot hfiles (h.cwd p) fun hp hno => ⟨fun j e he => ?_, (h.owners p hp hno).2⟩
  simp only at he
  by_cases hjk : j = k
  · subst hjk
    rw [Function.update_self] at he
    exact hv e he
  · rw [Function.update_of_ne hjk] at he
    exact (h.owners p hp hno).1 j e he

theorem TableInv.setCwd {fs' : Files} {i : InodeId} (h : TableInv fs T)
    (hfiles : FileInv fs' (T.setCwd p (some ⟨i, false⟩)) (fun _ => 0) (fun _ => 0)) :
    TableInv fs' (T.setCwd p (some ⟨i, false⟩)) := by
  refine h.setSlot hfiles (fun _ => ⟨_, rfl⟩) fun hp hno => ⟨(h.owners p hp hno).1, ?_⟩
  intro c hc
  obtain rfl := Option.some.inj hc
  rfl

theorem argfd_spec {y : Proc} {fd : ℤ} {k : Fin NOFILE} {e : Fd} (h : argfd y fd = some (k, e)) :
    y.ofile k = some e := by
  unfold argfd at h
  split at h
  · obtain ⟨e', he', heq⟩ := Option.map_eq_some_iff.mp h
    obtain ⟨rfl, rfl⟩ := Prod.mk.inj heq
    exact he'
  · cases h

theorem setProc_ofile_table (s : Kernel) (p : ProcId) (k : Fin NOFILE) (v : Option Fd) :
    (s.setProc p { s.proc p with ofile := Function.update (s.proc p).ofile k v }).table =
      s.table.setEntry p k v := table_setProc ..

theorem setProc_cwd_table (s : Kernel) (p : ProcId) (c : Option Cwd) :
    (s.setProc p { s.proc p with cwd := c }).table = s.table.setCwd p c := table_setProc ..

theorem ends_close {fd : ℤ} (h : TableInv s.files s.table)
    (hok : ∀ r ∈ argfd (s.proc p) fd, r.2.borrowed = false ∧
      (s.table.lentFile r.2.file → (s.files.file r.2.file).ref ≠ 1)) :
    Ends (sys_close s p fd) (fun r => TableInv r.1.files r.1.table) Unrelated := by
  unfold sys_close
  split
  · exact h
  · next k e hfd =>
    obtain ⟨hb, hlast⟩ := hok _ hfd
    have he : (s.table p).ofile k = some e := argfd_spec hfd
    have href : (0 : ℕ) + 1 ≤ (s.files.file e.file).ref :=
      h.files.files.covered (.inl (fileRefs_pos he hb))
    have htake := h.files.takeEntry he hb fun hl => by
      have := hlast hl
      simp only at this
      omega
    refine (ends_fileclose htake).bind fun files ⟨hinv, _⟩ => ?_
    show TableInv files (Kernel.table (s.setProc p _))
    rw [setProc_ofile_table]
    exact h.setEntry hinv (by simp)

theorem ends_dup {fd : ℤ} (h : TableInv s.files s.table) (hp : (s.proc p).state = .RUNNING) :
    Ends (sys_dup s p fd) (fun r => TableInv r.1.files r.1.table) Unrelated := by
  unfold sys_dup
  split
  · exact h
  · next k e hfd =>
    split
    · exact h
    · next i _ =>
      obtain ⟨href, hgen⟩ := h.files.entry (live_of_running hp) (argfd_spec hfd)
      refine (ends_filedup h.files (f := e.file) (by omega)).bind fun files ⟨hinv, hgens⟩ => ?_
      show TableInv files (Kernel.table ((s.setFiles files).setProc p _))
      rw [show (s.setFiles files).setProc p _ = (s.setProc p _).setFiles files from rfl]
      show TableInv files (Kernel.table (s.setProc p _))
      rw [setProc_ofile_table]
      refine h.setEntry (hinv.storeEntry rfl rfl ((hgens _).trans hgen)) ?_
      rintro a ha
      obtain rfl := Option.some.inj ha
      rfl

theorem ends_fstat {fd : ℤ} (h : TableInv s.files s.table) :
    Ends (sys_fstat s p fd) (fun r => TableInv r.1.files r.1.table) Unrelated := by
  unfold sys_fstat
  split
  · exact h
  · exact (ends_filestat h.files _).bind fun _ _ => h

theorem setCwd_self {c : Cwd} (hc : (T p).cwd = some c) : T.setCwd p (some c) = T := by
  refine setSlot_same ?_
  rw [← hc]

theorem ends_openInode {ip : InodeId} {files : Files} (h : TableInv s.files s.table)
    (hinv : FileInv files s.table (plus (fun _ => 0) ip) (fun _ => 0)) :
    Ends (openInode (s.setFiles files) p ip) (fun r => TableInv r.1.files r.1.table) Unrelated := by
  unfold openInode
  split
  · next files' halloc =>
    have hsame : files' = files := by
      unfold filealloc at halloc
      split at halloc
      · cases halloc
      · exact (Prod.mk.inj halloc).1.symm
    subst hsame
    exact (ends_iunlockput_held hinv).bind fun files'' ⟨_, hput⟩ => h.setFiles hput
  · next files' f halloc =>
    obtain ⟨hnew, htype, href, hinode⟩ := hinv.filealloc halloc
    split
    · refine (ends_fileclose hnew).bind fun files₁ ⟨hclosed, _⟩ => ?_
      exact (ends_iunlockput_held hclosed).bind fun files₂ ⟨_, hput⟩ => h.setFiles hput
    · next i _ =>
      refine (ends_iunlock hnew.held_pos).bind fun _ _ => ?_
      have hopen := hnew.openFile htype href
      have hstore := hopen.storeEntry (p := p) (k := i)
        (e := { file := f, gen := (files'.file f).gen, borrowed := false }) rfl rfl
        (by rw [Files.setFile_self])
      show TableInv _ (Kernel.table (s.setProc p _))
      rw [Files.setFile_self]
      exact (congrArg (TableInv _) (setProc_ofile_table s p i _)).mpr (h.setEntry hstore (by simp))

theorem ends_open {path : Path} {refused : Bool} (h : TableInv s.files s.table)
    (hp : (s.proc p).state = .RUNNING) :
    Ends (sys_open s p path refused) (fun r => TableInv r.1.files r.1.table) Unrelated := by
  refine ends_lookup h hp (fun files hf => hf) fun files ip c _ _ hinv _ => ?_
  refine (ends_ilock hinv.held_pos).bind fun _ _ => ?_
  cases refused with
  | false => exact ends_openInode h hinv
  | true => exact (ends_iunlockput_held hinv).bind fun files' ⟨_, hput⟩ => h.setFiles hput

/-- `p` gives up a directory only if it has a reference of its own, and the last one only if nobody
else uses the directory. -/
def LeavesDir (s : Kernel) (p : ProcId) (path : Path) : Prop :=
  ∀ c ∈ (s.proc p).cwd, c.borrowed = false ∧
    (path.target (s.files.inode c.inode).inum ≠ (s.files.inode c.inode).inum →
      DirOutlives s.files s.table c)

theorem ends_chdir {path : Path} {isDir : Bool} (h : TableInv s.files s.table)
    (hp : (s.proc p).state = .RUNNING)
    (hok : isDir = true → path.found = true → LeavesDir s p path) :
    Ends (sys_chdir s p path isDir) (fun r => TableInv r.1.files r.1.table) Unrelated := by
  refine ends_lookup h hp (fun files hf => hf) fun files ip c hc hfound hinv hwalk => ?_
  refine (ends_ilock hinv.held_pos).bind fun _ _ => ?_
  cases isDir with
  | false => exact (ends_iunlockput_held hinv).bind fun files' ⟨_, hput⟩ => h.setFiles hput
  | true =>
      obtain ⟨hb, hout⟩ := hok rfl hfound c hc
      have hlive := live_of_running hp
      refine (ends_iunlock hinv.held_pos).bind fun _ _ => ?_
      rw [hc]
      show TableInv (iput files c.inode) (Kernel.table (s.setProc p _))
      rw [setProc_cwd_table]
      have hcount : (1 : ℤ) ≤ (s.files.inode c.inode).ref := by
        have := h.files.dir hlive hc
        omega
      suffices hfiles : FileInv (iput files c.inode) (s.table.setCwd p (some ⟨ip, false⟩))
          (fun _ => 0) (fun _ => 0) from h.setCwd hfiles
      by_cases hsame : path.target (s.files.inode c.inode).inum = (s.files.inode c.inode).inum
      · -- the walk has come back to where it started
        have hrefs := hwalk.refs c.inode
        have hip : ip = c.inode := by
          refine hwalk.cached ip c.inode (by have := hinv.held_pos; omega) (by omega) ?_
          rw [hwalk.inum, hsame, hwalk.nums c.inode (by omega)]
        have hown : c = ⟨c.inode, false⟩ := by rw [← hb]
        rw [hip] at hinv ⊢
        rw [setCwd_self (hown ▸ hc)]
        exact hinv.iput
      · have hkept : s.table.lentDir c.inode →
            plus (fun _ => 0) ip c.inode + onInode files c.inode + 2 ≤
              (files.inode c.inode).ref := by
          intro hl
          have hkeep := hout hsame hl
          have hrefs := hwalk.refs c.inode
          have hon : onInode files c.inode = onInode s.files c.inode := by
            rw [onInode, hwalk.file, onInode]
          simp only [plus]
          omega
        have htake := hinv.takeCwd (p := p) hc hb hkept
        have hstore := htake.iput.storeCwd (p := p)
        rwa [Table.setCwd, Table.setCwd, setSlot_setSlot, setSlot_self] at hstore

/-! ## Runs -/

/-- What is used without a reference is not given up, and outlives its user. -/
def ReferencesKept (s : Kernel) : Call → Prop
  | .close p fd => ∀ r ∈ argfd (s.proc p) fd, r.2.borrowed = false ∧
      (s.table.lentFile r.2.file → (s.files.file r.2.file).ref ≠ 1)
  | .exit p => (s.proc p).is_thread = false → FilesOutlive s.files s.table (s.proc p).ofile ∧
      ∀ c ∈ (s.proc p).cwd, DirOutlives s.files s.table c
  | .chdir p path isDir => isDir = true → path.found = true → LeavesDir s p path
  | .fork p kstack copied => kstack = true → copied = .done → CleanSlot s p
  | .clone p kstack _ => kstack = true → CleanSlot s p
  | _ => True

theorem ends_call {a : Call} (h : TableInv s.files s.table) (hen : enabled s a = true)
    (hok : ReferencesKept s a) :
    Ends (call s a) (fun r => TableInv r.1.files r.1.table) Unrelated := by
  cases a with
  | schedule p =>
      have hp : (s.proc p).state = .RUNNABLE := of_decide_eq_true hen
      show TableInv s.files (Kernel.table (s.setProc p _))
      rw [table_setProc_same (by simp [Proc.holding, Proc.live, hp])]
      exact h
  | yield p =>
      have hp : (s.proc p).state = .RUNNING := of_decide_eq_true hen
      show TableInv s.files (Kernel.table (s.setProc p _))
      rw [table_setProc_same (by simp [Proc.holding, Proc.live, hp])]
      exact h
  | fork p k c => exact ends_fork h (of_decide_eq_true hen).1 hok
  | clone p k stack => exact thread_fork_table h (of_decide_eq_true hen).1 hok
  | exec p path load => exact ends_exec h (of_decide_eq_true hen).1
  | exit p => exact ends_exit h (of_decide_eq_true hen).1 hok
  | wait p => exact ends_wait h (of_decide_eq_true hen).1
  | join p => exact join_table h (of_decide_eq_true hen).1
  | kill p pid =>
      show TableInv (kill s pid).1.files (kill s pid).1.table
      rw [(kill_table s pid).1, (kill_table s pid).2]
      exact h
  | sbrk p n enough =>
      show TableInv (sbrk s p n enough).1.files (sbrk s p n enough).1.table
      rw [(sbrk_table s p n enough).1, (sbrk_table s p n enough).2]
      exact h
  | «open» p path refused => exact ends_open h (of_decide_eq_true hen).1
  | close p fd => exact ends_close h hok
  | dup p fd => exact ends_dup h (of_decide_eq_true hen).1
  | fstat p fd => exact ends_fstat h
  | chdir p path isDir => exact ends_chdir h (of_decide_eq_true hen).1 hok

theorem empty_table : TableInv ({} : Kernel).files ({} : Kernel).table where
  files :=
    { current := fun p k e he => by cases he
      closed := fun _ _ => rfl
      files :=
        { covers := fun f => by
            have hzero : ({} : Kernel).table.fileRefs f = 0 :=
              tally_eq_zero fun p => tally_eq_zero fun k => rfl
            rw [hzero]
            exact Int.le_refl 0
          lends := fun f ⟨p, _, k, e, he, _⟩ => by cases he }
      inodes :=
        { covers := fun i => by
            have hzero : ({} : Kernel).table.dirRefs i = 0 := tally_eq_zero fun p => rfl
            have hon : onInode {} i = 0 := tally_eq_zero fun f => rfl
            show ((0 + onInode {} i : ℕ) : ℤ) + ({} : Kernel).table.dirRefs i ≤ 0
            rw [hzero, hon]
            exact Int.le_refl 0
          lends := fun i ⟨p, _, c, hc, _⟩ => by cases hc }
      cached := fun i j hi => absurd hi (Int.lt_irrefl 0) }
  cwd p hp := by cases hp
  owners p hp := by cases hp

theorem userinit_table (h : userinit = .ok s) : TableInv s.files s.table := by
  unfold userinit at h
  split at h
  · next u halloc =>
    obtain ⟨htable, hfiles⟩ := allocproc_table halloc
    obtain rfl := Except.ok.inj h
    rw [htable, hfiles]
    exact empty_table
  · next u np halloc =>
    obtain ⟨-, -, rfl⟩ := allocproc_some halloc
    obtain ⟨⟨files, ip⟩, hget, h⟩ := bind_eq_ok.mp h
    obtain rfl := Except.ok.inj h
    have hwalk : Walk ({} : Kernel).files files ip ROOTINO :=
      (ends_iff.mp (iget_walk empty_table.files.cached ROOTINO)).1 _ hget
    have hstore := (empty_table.files.walk hwalk).storeCwd (p := np)
    have hlive := hstore.setSlot (p := np)
      (x := { live := true, is_thread := false, ofile := fun _ => none, cwd := some ⟨ip, false⟩ })
      (fun k e he => by cases he) (fun g => Nat.le_of_eq (by rw [Table.setCwd, setSlot_self]; rfl))
      (fun j => Nat.le_of_eq (by rw [Table.setCwd, setSlot_self]))
      fun _ => ⟨fun k e he => (by cases he), fun c hc hb => (by cases hc; cases hb)⟩
    rw [Table.setCwd, setSlot_setSlot] at hlive
    have hinit := empty_table.setSlot hlive (fun _ => ⟨_, rfl⟩)
      fun _ _ => ⟨fun k e he => (by cases he), fun c hc => (by cases hc; rfl)⟩
    refine (congrArg (TableInv files) (embryo_setProc (s := {}) rfl _)).mpr ?_
    show TableInv files (Table.setSlot _ np (Proc.holding { (({} : Kernel).embryo np).proc np with
      pgdir := _, sz := _, cwd := some ⟨ip, false⟩, state := .RUNNABLE }))
    rw [embryo_proc_self]
    exact hinit

/-- Every open file and directory of a process that may still run has a reference, and no file has
been handed out again since its entry was made. -/
structure FilesSafe (s : Kernel) : Prop where
  files : ∀ p, (s.proc p).state ≠ .UNUSED → (s.proc p).state ≠ .ZOMBIE →
    ∀ k, ∀ e ∈ (s.proc p).ofile k, 1 ≤ (s.files.file e.file).ref ∧ (s.files.file e.file).gen = e.gen
  cwd : ∀ p, (s.proc p).state ≠ .UNUSED → (s.proc p).state ≠ .ZOMBIE →
    ∃ c, (s.proc p).cwd = some c ∧ 1 ≤ (s.files.inode c.inode).ref

theorem TableInv.safe (h : TableInv s.files s.table) : FilesSafe s where
  files p hu hz k e he := by
    have hlive : (s.table p).live = true := decide_eq_true ⟨hu, hz⟩
    obtain ⟨href, hgen⟩ := h.files.entry hlive he
    exact ⟨by omega, hgen⟩
  cwd p hu hz := by
    have hlive : (s.table p).live = true := decide_eq_true ⟨hu, hz⟩
    obtain ⟨c, hc⟩ := h.cwd p hlive
    have := h.files.dir hlive hc
    exact ⟨c, hc, by omega⟩

/-- In a state with the invariant no call that keeps the references panics over a count. -/
theorem no_count_panic {a : Call} (h : TableInv s.files s.table) (hen : enabled s a = true)
    (hok : ReferencesKept s a) : ∀ e ∈ [Panic.filedup, .fileclose, .ilock], call s a ≠ .error e := by
  intro e he hc
  have hun := (ends_iff.mp (ends_call h hen hok)).2 e hc
  simp only [List.mem_cons, List.not_mem_nil, or_false] at he
  rcases he with rfl | rfl | rfl <;> exact hun

theorem files_safe_of_run (h : userinit = .ok s) (hrun : Run step ReferencesKept s t) :
    FilesSafe t ∧ ∀ a, enabled t a = true → ReferencesKept t a →
      ∀ e ∈ [Panic.filedup, .fileclose, .ilock], call t a ≠ .error e := by
  have hinv : TableInv t.files t.table := by
    refine hrun.invariant (P := fun u => TableInv u.files u.table) (userinit_table h)
      fun u a v hu hok hs => ?_
    obtain ⟨hen, r, hc⟩ := step_eq_some.mp hs
    exact (ends_iff.mp (ends_call hu hen hok)).1 _ hc
  exact ⟨hinv.safe, fun a => no_count_panic hinv⟩

end

instance (T : Table) (f : FileId) : Decidable (T.lentFile f) :=
  inferInstanceAs (Decidable (∃ p, (T p).live = true ∧ ∃ k, ∃ e ∈ (T p).ofile k, _ ∧ _))

instance (T : Table) (i : InodeId) : Decidable (T.lentDir i) :=
  inferInstanceAs (Decidable (∃ p, (T p).live = true ∧ ∃ c ∈ (T p).cwd, _ ∧ _))

instance (fs : Files) (T : Table) (row : Fin NOFILE → Option Fd) :
    Decidable (FilesOutlive fs T row) := inferInstanceAs (Decidable (∀ f, T.lentFile f → _ < _))

instance (fs : Files) (T : Table) (c : Cwd) : Decidable (DirOutlives fs T c) :=
  inferInstanceAs (Decidable (T.lentDir c.inode → _ ≤ _))

instance (s : Kernel) (p : ProcId) (path : Path) : Decidable (LeavesDir s p path) :=
  inferInstanceAs (Decidable (∀ c ∈ (s.proc p).cwd, _ ∧ (_ ≠ _ → DirOutlives s.files s.table c)))

instance ReferencesKept.decidable (s : Kernel) : ∀ a, Decidable (ReferencesKept s a)
  | .close p fd => inferInstanceAs (Decidable (∀ r ∈ argfd (s.proc p) fd, _ ∧ (_ → _ ≠ _)))
  | .exit p => inferInstanceAs (Decidable ((s.proc p).is_thread = false →
      FilesOutlive s.files s.table (s.proc p).ofile ∧
        ∀ c ∈ (s.proc p).cwd, DirOutlives s.files s.table c))
  | .chdir p path isDir =>
    inferInstanceAs (Decidable (isDir = true → path.found = true → LeavesDir s p path))
  | .fork p kstack .done => decidable_of_iff (kstack = true → CleanSlot s p)
      ⟨fun h hk _ => h hk, fun h hk => h hk rfl⟩
  | .fork _ _ .noDir | .fork _ _ .noPage => isTrue fun _ hc => nomatch hc
  | .clone p kstack _ => inferInstanceAs (Decidable (kstack = true → CleanSlot s p))
  | .schedule _ | .yield _ | .exec .. | .wait _ | .join _ | .kill .. | .sbrk .. | .open ..
  | .dup .. | .fstat .. => isTrue trivial

/-- A thread uses the open file and the directory of its creator, opens one of its own and leaves;
then a child is forked in its slot. -/
def sharedThenForked : List Call :=
  [.schedule 0, .open 0 ⟨true, [2], true⟩ false, .clone 0 true 4096, .yield 0, .schedule 1,
    .fstat 1 0, .open 1 ⟨false, [3], true⟩ false, .close 1 1, .exit 1, .schedule 0, .join 0,
    .fork 0 true .done, .yield 0, .schedule 1, .close 1 0, .chdir 1 ⟨false, [4], true⟩ true, .exit 1]

theorem sharedThenForked_safe : ∃ s t, userinit = .ok s ∧
    play step sharedThenForked s = some t ∧ FilesSafe t := by
  have hsome : (userinit.toOption.bind fun s =>
      if PlayOk step ReferencesKept sharedThenForked s then play step sharedThenForked s
      else none).isSome = true := by decide +kernel
  obtain ⟨t, ht⟩ := Option.isSome_iff_exists.mp hsome
  obtain ⟨s, hs, ht⟩ := Option.bind_eq_some_iff.mp ht
  obtain ⟨hok, ht⟩ := Option.ite_none_right_eq_some.mp ht
  have hinit : userinit = .ok s := toOption_eq_some.mp hs
  exact ⟨s, t, hinit, ht, (files_safe_of_run hinit (.of_playOk hok ht)).1⟩

/-- `init` closes a file that its thread goes on to name. -/
theorem closed_under_thread : ∃ s t, userinit = .ok s ∧
    play step [.schedule 0, .open 0 ⟨true, [2], true⟩ false, .clone 0 true 4096, .close 0 0] s =
      some t ∧ ¬ FilesSafe t := by
  have hclosed : (userinit.toOption.bind fun s => (play step [.schedule 0,
      .open 0 ⟨true, [2], true⟩ false, .clone 0 true 4096, .close 0 0] s).map fun t =>
        decide ((t.proc 1).state = .RUNNABLE) && ((t.proc 1).ofile 0).any fun e =>
          decide ((t.files.file e.file).ref = 0)) = some true := by decide +kernel
  obtain ⟨s, hs, ht⟩ := Option.bind_eq_some_iff.mp hclosed
  obtain ⟨t, ht, hall⟩ := Option.map_eq_some_iff.mp ht
  obtain ⟨hrun, hany⟩ := Bool.and_eq_true_iff.mp hall
  obtain ⟨e, he, hzero⟩ := (Option.any_eq_true ..).mp hany
  have hrun' := of_decide_eq_true hrun
  refine ⟨s, t, toOption_eq_some.mp hs, ht, fun hsafe => ?_⟩
  have := (hsafe.files 1 (by rw [hrun']; decide) (by rw [hrun']; decide) 0 e he).1
  rw [of_decide_eq_true hzero] at this
  exact absurd this (by decide)

end IntroToOS.Threads

import IntroToOS.Lib.Run
import IntroToOS.Lib.Slots
import IntroToOS.Mlfq.Kernel

/-! # Every live process is queued exactly once

The queues of Project2b hold pointers into the process table. A process is put into them by
`userinit` and `fork`, moved by the demotions of `scheduler` and by the starvation check, and
taken out only lazily, when a scan of its row finds it UNUSED. So a slot can outlive the process
it was filled for: `allocproc` may recycle the process before the slot is scanned, and `fork` then
stores the same pointer a second time. `QueuedOnce` holds in every run in which no `fork` does so
(`queuedOnce_of_run`), and a run of eight steps breaks it (`fork_queues_twice`).
-/

namespace IntroToOS.Mlfq
open Lib
set_option autoImplicit false

def IsSlot (x : Slot) : Prop := x.1 < 4 ∧ x.2 < NPROC

def Live (x : Proc) : Prop :=
  x.state = .RUNNABLE ∨ x.state = .RUNNING ∨ x.state = .SLEEPING

/-- `p` stands in exactly one slot of `ptable.queues`, in the row of its priority, and the
priority is one of the four levels. -/
def QueuedOnce (s : Kernel) (p : ProcId) : Prop :=
  (∃! x, IsSlot x ∧ s.queues x = some p) ∧
    (∀ x, IsSlot x → s.queues x = some p → x.1 = (s.proc p).priority) ∧ (s.proc p).priority ≤ 3

/-- No slot of `ptable.queues` points to `p`. -/
def Unqueued (s : Kernel) (p : ProcId) : Prop :=
  ∀ r < 4, ∀ i < NPROC, s.queues (r, i) ≠ some p

/-- The condition on a step: a `fork` that gets as far as queueing its child has been given a
process by `allocproc` that no slot still points to. -/
def ForksUnqueued (s : Kernel) : Call → Prop
  | .fork _ true true => ∀ p, findUnused s = some p → Unqueued s p
  | _ => True

/-! ## Moving one process to a row -/

/-- `T'` is `T` with `p` in exactly one slot, of row `r`, and every other process where it was. -/
structure Moved (T T' : Queues) (p : ProcId) (r : ℕ) : Prop where
  single : Single IsSlot T'
  here : ∃ x, IsSlot x ∧ T' x = some p
  row : ∀ x, IsSlot x → T' x = some p → x.1 = r
  others : ∀ x q, q ≠ p → (T' x = some q ↔ T x = some q)

/-- A process that is in no slot finds a free one in every row. -/
theorem exists_firstNull {T : Queues} {p : ProcId} {r : ℕ} (h : Single IsSlot T)
    (ha : Absent IsSlot T p) (hr : r < 4) :
    ∃ i < NPROC, T (r, i) = none ∧ enqueue T r p = Function.update T (r, i) (some p) := by
  obtain ⟨i, hi⟩ := h.exists_free ha (le_of_eq (Fintype.card_fin NPROC)) (fun i : Fin NPROC => (r, i.1))
    (fun i j hij => Fin.ext (Prod.mk.inj hij).2) (fun i => ⟨hr, i.2⟩)
  unfold enqueue
  cases hf : (List.range NPROC).find? fun i => (T (r, i)).isNone with
  | none =>
      have hno := List.find?_eq_none.mp hf i.1 (List.mem_range.mpr i.2)
      simp [hi] at hno
  | some j =>
      have hj := List.find?_some hf
      have hmem := List.mem_range.mp (List.mem_of_find?_eq_some hf)
      exact ⟨j, hmem, by simpa using hj, rfl⟩

theorem enqueue_moved {T : Queues} {p : ProcId} {r : ℕ} (h : Single IsSlot T)
    (ha : Absent IsSlot T p) (hr : r < 4) : Moved T (enqueue T r p) p r := by
  obtain ⟨i, hi, hnull, he⟩ := exists_firstNull h ha hr
  rw [he]
  refine ⟨h.put ha _, ⟨(r, i), ⟨hr, hi⟩, by simp⟩, ?_, ?_⟩
  · intro x hx hxp
    by_cases hxi : x = (r, i)
    · rw [hxi]
    · rw [Function.update_of_ne hxi] at hxp
      exact absurd hxp (ha x hx)
  · intro x q hq
    by_cases hxi : x = (r, i)
    · subst hxi
      simp [hnull, Ne.symm hq]
    · rw [Function.update_of_ne hxi]

/-- Emptying the slot of `p` and storing `p` in row `r` moves it there. -/
theorem clear_enqueue_moved {T : Queues} {p : ProcId} {x : Slot} {r : ℕ} (h : Single IsSlot T)
    (hx : IsSlot x) (hp : T x = some p) (hr : r < 4) :
    Moved T (enqueue (Function.update T x none) r p) p r := by
  have hm := enqueue_moved (h.clear x) (h.absent_clear hx hp) hr
  refine ⟨hm.single, hm.here, hm.row, fun y q hq => (hm.others y q hq).trans ?_⟩
  by_cases hyx : y = x
  · subst hyx
    simp [hp, Ne.symm hq]
  · rw [Function.update_of_ne hyx]

theorem dequeue_eq {T : Queues} {p : ProcId} {x : Slot} (h : Single IsSlot T) (hx : IsSlot x)
    (hp : T x = some p) : dequeue T x.1 p = Function.update T x none := by
  unfold dequeue
  cases hf : (List.range NPROC).find? fun i => T (x.1, i) = some p with
  | none =>
      have hno := List.find?_eq_none.mp hf x.2 (List.mem_range.mpr hx.2)
      simp [hp] at hno
  | some j =>
      have hj : T (x.1, j) = some p := by simpa using List.find?_some hf
      have hmem := List.mem_range.mp (List.mem_of_find?_eq_some hf)
      have hxj : (x.1, j) = x := h _ _ p ⟨hx.1, hmem⟩ hx hj hp
      simp only [hxj]

/-! ## The invariant -/

/-- The joint invariant of the queues and the dispatched processes. A stale slot, of a process
that has been reaped since, keeps the row of that process's priority too. -/
structure Inv (s : Kernel) : Prop where
  single : Single IsSlot s.queues
  row : ∀ x p, IsSlot x → s.queues x = some p → (s.proc p).priority = x.1
  live : ∀ p, Live (s.proc p) → ∃ x, IsSlot x ∧ s.queues x = some p
  current : ∀ c d, (s.cpu c).current = some d →
    IsSlot d.q ∧ s.queues d.q = some d.p ∧ (s.proc d.p).state = .RUNNING
  apart : ∀ c c' d d', (s.cpu c).current = some d → (s.cpu c').current = some d' →
    d.p = d'.p → c = c'
  lastRR : ∀ c i, (s.cpu c).lastRR = some i → i < NPROC

theorem Inv.queuedOnce {s : Kernel} (h : Inv s) {p : ProcId} (hp : Live (s.proc p)) :
    QueuedOnce s p := by
  obtain ⟨x, hx, hxp⟩ := h.live p hp
  refine ⟨⟨x, ⟨hx, hxp⟩, fun y hy => h.single y x p hy.1 hx hy.2 hxp⟩, ?_, ?_⟩
  · intro y hy hyp
    exact (h.row y p hy hyp).symm
  · have hrow := h.row x p hx hxp
    have := hx.1
    omega

theorem Inv.not_current {s : Kernel} (h : Inv s) {c : ℕ} {d : Dispatch} {p : ProcId}
    (hc : (s.cpu c).current = some d) (hp : (s.proc p).state ≠ .RUNNING) : d.p ≠ p := by
  intro he
  exact hp (he ▸ (h.current c d hc).2.2)

/-- Steps that leave the queues and the priorities alone. -/
theorem Inv.keep {s s' : Kernel} (h : Inv s) (hq : s'.queues = s.queues)
    (hprio : ∀ p, (s'.proc p).priority = (s.proc p).priority)
    (hlive : ∀ p, Live (s'.proc p) → Live (s.proc p))
    (hcpu : ∀ c d, (s'.cpu c).current = some d →
      (s.cpu c).current = some d ∧ (s'.proc d.p).state = .RUNNING)
    (hrr : ∀ c i, (s'.cpu c).lastRR = some i → i < NPROC) : Inv s' where
  single := hq ▸ h.single
  row := by
    intro x p hx hxp
    rw [hprio]
    exact h.row x p hx (hq ▸ hxp)
  live := by
    intro p hp
    rw [hq]
    exact h.live p (hlive p hp)
  current := by
    intro c d hd
    obtain ⟨hd', hrun⟩ := hcpu c d hd
    obtain ⟨h1, h2, -⟩ := h.current c d hd'
    exact ⟨h1, hq ▸ h2, hrun⟩
  apart := fun c c' d d' hd hd' => h.apart c c' d d' (hcpu c d hd).1 (hcpu c' d' hd').1
  lastRR := hrr

/-- Steps that change one process and move it to the row of its new priority. -/
theorem Inv.move {s s' : Kernel} (h : Inv s) {p : ProcId} {x : Proc}
    (hproc : s'.proc = Function.update s.proc p x) (hm : Moved s.queues s'.queues p x.priority)
    (hcpu : ∀ c d, (s'.cpu c).current = some d → (s.cpu c).current = some d ∧ d.p ≠ p)
    (hrr : ∀ c i, (s'.cpu c).lastRR = some i → i < NPROC) : Inv s' where
  single := hm.single
  row := by
    intro y q hy hyq
    by_cases hqp : q = p
    · subst hqp
      rw [hproc, Function.update_self]
      exact (hm.row y hy hyq).symm
    · rw [hproc, Function.update_of_ne hqp]
      exact h.row y q hy ((hm.others y q hqp).mp hyq)
  live := by
    intro q hq
    by_cases hqp : q = p
    · exact hqp ▸ hm.here
    · rw [hproc, Function.update_of_ne hqp] at hq
      obtain ⟨y, hy, hyq⟩ := h.live q hq
      exact ⟨y, hy, (hm.others y q hqp).mpr hyq⟩
  current := by
    intro c d hd
    obtain ⟨hd', hne⟩ := hcpu c d hd
    obtain ⟨h1, h2, h3⟩ := h.current c d hd'
    refine ⟨h1, (hm.others _ _ hne).mpr h2, ?_⟩
    rw [hproc, Function.update_of_ne hne]
    exact h3
  apart := fun c c' d d' hd hd' => h.apart c c' d d' (hcpu c d hd).1 (hcpu c' d' hd').1
  lastRR := hrr

/-! ## Wake-ups, kill, reaping and slot allocation -/

theorem wakeup1_inv {s : Kernel} (h : Inv s) (chan : Chan) : Inv (wakeup1 s chan) := by
  refine h.keep rfl ?_ ?_ ?_ h.lastRR
  · intro p
    simp only [wakeup1]
    split <;> rfl
  · intro p hp
    simp only [wakeup1] at hp
    split at hp
    · next hs => exact .inr (.inr hs.1)
    · exact hp
  · intro c d hd
    have hrun := (h.current c d hd).2.2
    exact ⟨hd, by simp [wakeup1, hrun]⟩

@[simp] theorem wakeup1_cpu (s : Kernel) (chan : Chan) : (wakeup1 s chan).cpu = s.cpu := rfl

/-- Changing one process that no CPU runs, without making it live. -/
theorem Inv.setProc {s : Kernel} (h : Inv s) {p : ProcId} {x : Proc}
    (hp : (s.proc p).state ≠ .RUNNING) (hprio : x.priority = (s.proc p).priority)
    (hlive : Live x → Live (s.proc p)) : Inv (s.setProc p x) := by
  refine h.keep rfl ?_ ?_ ?_ h.lastRR
  · intro q
    by_cases hqp : q = p
    · subst hqp
      simpa [Kernel.setProc] using hprio
    · simp [Kernel.setProc, Function.update_of_ne hqp]
  · intro q hq
    by_cases hqp : q = p
    · subst hqp
      exact hlive (by simpa [Kernel.setProc] using hq)
    · simpa [Kernel.setProc, Function.update_of_ne hqp] using hq
  · intro c d hd
    have hne := h.not_current hd hp
    exact ⟨hd, by simpa [Kernel.setProc, Function.update_of_ne hne] using (h.current c d hd).2.2⟩

theorem findUnused_state {s : Kernel} {p : ProcId} (hf : findUnused s = some p) :
    (s.proc p).state = .UNUSED := by
  simpa using List.find?_some hf

theorem not_live_of_eq {x : Proc} {st : ProcState} (hx : x.state = st) (h1 : st ≠ .RUNNABLE)
    (h2 : st ≠ .RUNNING) (h3 : st ≠ .SLEEPING) : ¬ Live x := by
  rintro (h | h | h)
  · exact h1 (hx ▸ h)
  · exact h2 (hx ▸ h)
  · exact h3 (hx ▸ h)

/-- What `allocproc` returns: a process that was UNUSED, now EMBRYO, in the queues as before. -/
theorem allocproc_inv {s s' : Kernel} {kstack : Bool} {r : Option ProcId} (h : Inv s)
    (ha : allocproc s kstack = (s', r)) :
    Inv s' ∧ s'.queues = s.queues ∧
      ∀ p, r = some p → findUnused s = some p ∧ kstack = true ∧ (s'.proc p).state = .EMBRYO := by
  unfold allocproc at ha
  cases hf : findUnused s with
  | none =>
      rw [hf] at ha
      obtain ⟨rfl, rfl⟩ := Prod.mk.inj ha
      exact ⟨h, rfl, by simp⟩
  | some p =>
      have hp := findUnused_state hf
      have hne : (s.proc p).state ≠ .RUNNING := by simp [hp]
      rw [hf] at ha
      have h₁ : Inv (s.setProc p { s.proc p with state := .EMBRYO, pid := s.nextpid }) :=
        h.setProc hne rfl fun hl => absurd hl (not_live_of_eq rfl (by simp) (by simp) (by simp))
      have hE : Inv { s.setProc p { s.proc p with state := .EMBRYO, pid := s.nextpid } with
          nextpid := s.nextpid + 1 } :=
        h₁.keep rfl (fun _ => rfl) (fun _ hl => hl) (fun c d hd =>
          ⟨hd, (h₁.current c d hd).2.2⟩) h₁.lastRR
      cases kstack with
      | true =>
          obtain ⟨rfl, rfl⟩ := Prod.mk.inj ha
          refine ⟨hE, rfl, ?_⟩
          intro q hq
          obtain rfl := Option.some.inj hq
          exact ⟨rfl, rfl, by simp [Kernel.setProc]⟩
      | false =>
          obtain ⟨rfl, rfl⟩ := Prod.mk.inj ha
          refine ⟨hE.setProc ?_ ?_ ?_, rfl, by simp⟩
          · simp [Kernel.setProc]
          · simp
          · exact fun hl => absurd hl (not_live_of_eq rfl (by simp) (by simp) (by simp))

theorem fork_inv {s : Kernel} (h : Inv s) (p : ProcId) (kstack copied : Bool)
    (hok : kstack = true → copied = true → ∀ q, findUnused s = some q → Unqueued s q) :
    Inv (fork s p kstack copied) := by
  unfold fork
  cases ha : allocproc s kstack with
  | mk s' r =>
      obtain ⟨h', hq, hr⟩ := allocproc_inv h ha
      cases r with
      | none => exact h'
      | some np =>
          obtain ⟨hf, hk, hE⟩ := hr np rfl
          have hne : (s'.proc np).state ≠ .RUNNING := by simp [hE]
          cases copied with
          | false =>
              exact h'.setProc hne rfl fun hl =>
                absurd hl (not_live_of_eq rfl (by simp) (by simp) (by simp))
          | true =>
              have habs : Absent IsSlot s'.queues np := by
                intro x hx
                rw [hq]
                exact hok hk rfl np hf x.1 hx.1 x.2 hx.2
              exact h'.move rfl (enqueue_moved h'.single habs (by omega))
                (fun c d hd => ⟨hd, h'.not_current hd hne⟩) h'.lastRR

theorem kill_inv {s : Kernel} (h : Inv s) (pid : ℕ) : Inv (kill s pid) := by
  unfold kill
  split
  · exact h
  · next p _ =>
    refine h.keep rfl ?_ ?_ ?_ h.lastRR
    · intro q
      by_cases hqp : q = p
      · subst hqp; simp [Kernel.setProc]
      · simp [Kernel.setProc, Function.update_of_ne hqp]
    · intro q hq
      by_cases hqp : q = p
      · subst hqp
        by_cases hs : (s.proc q).state = .SLEEPING
        · exact .inr (.inr hs)
        · simpa [Kernel.setProc, Live, hs] using hq
      · simpa [Kernel.setProc, Function.update_of_ne hqp] using hq
    · intro c d hd
      have hrun := (h.current c d hd).2.2
      refine ⟨hd, ?_⟩
      by_cases hdp : d.p = p
      · simp [Kernel.setProc, ← hdp, hrun]
      · simpa [Kernel.setProc, Function.update_of_ne hdp] using hrun

/-! ## Giving the CPU up -/

/-- Whatever the dispatched process becomes, the code after `swtch` restores the invariant: it
moves the process down with its slot, or leaves the queues alone. -/
theorem afterSwtch_inv {s : Kernel} (h : Inv s) {c : ℕ} {d : Dispatch}
    (hc : (s.cpu c).current = some d) (x : Proc) (hx : x.priority = (s.proc d.p).priority) :
    Inv (afterSwtch (s.setProc d.p x) c d) := by
  obtain ⟨hslot, hq, hrun⟩ := h.current c d hc
  have hprio := h.row d.q d.p hslot hq
  -- the other CPUs run other processes
  have hcpu : ∀ cp : Cpu, cp.current = none → ∀ c' d',
      ((Function.update s.cpu c cp) c').current = some d' →
        (s.cpu c').current = some d' ∧ d'.p ≠ d.p := by
    intro cp hcp c' d' hd'
    by_cases hcc : c' = c
    · subst hcc
      simp [hcp] at hd'
    · rw [Function.update_of_ne hcc] at hd'
      exact ⟨hd', fun he => hcc (h.apart c' c d' d hd' hc he)⟩
  have hrr : ∀ cp : Cpu, (∀ i, cp.lastRR = some i → i < NPROC) → ∀ c' i,
      ((Function.update s.cpu c cp) c').lastRR = some i → i < NPROC := by
    intro cp hcp c' i hi
    by_cases hcc : c' = c
    · subst hcc
      exact hcp i (by simpa using hi)
    · rw [Function.update_of_ne hcc] at hi
      exact h.lastRR c' i hi
  have hstay : ∀ (y : Proc) (cp : Cpu), y.priority = x.priority → cp.current = none →
      (∀ i, cp.lastRR = some i → i < NPROC) →
      Inv { s.setProc d.p y with cpu := Function.update s.cpu c cp } := by
    intro y cp hy hcp hcprr
    refine h.keep rfl ?_ ?_ ?_ (hrr cp hcprr)
    · intro q
      by_cases hqp : q = d.p
      · subst hqp; simp [Kernel.setProc, hy, hx]
      · simp [Kernel.setProc, Function.update_of_ne hqp]
    · intro q hl
      by_cases hqp : q = d.p
      · exact hqp ▸ .inr (.inl hrun)
      · simpa [Kernel.setProc, Function.update_of_ne hqp] using hl
    · intro c' d' hd'
      obtain ⟨h1, h2⟩ := hcpu cp hcp c' d' hd'
      refine ⟨h1, ?_⟩
      simpa [Kernel.setProc, Function.update_of_ne h2] using (h.current c' d' h1).2.2
  unfold afterSwtch
  simp only [Kernel.setProc, Function.update_self, Function.update_idem]
  split
  · split
    · next hrow =>
      refine h.move rfl ?_ (hcpu _ rfl) (hrr _ (h.lastRR c))
      have hr : x.priority + 1 = d.q.1 + 1 := by omega
      simp only [hr]
      exact clear_enqueue_moved h.single hslot hq (by omega)
    · refine hstay _ _ rfl rfl ?_
      intro i hi
      have hcol := hslot.2
      simp only [Option.some.injEq] at hi
      split at hi <;> omega
  · exact hstay _ _ rfl rfl (h.lastRR c)

theorem setState_afterSwtch_inv {s : Kernel} (h : Inv s) {c : ℕ} {d : Dispatch}
    (hc : (s.cpu c).current = some d) (st : ProcState) :
    Inv (afterSwtch (s.setState d.p st) c d) :=
  afterSwtch_inv h hc _ rfl

theorem yield_inv {s : Kernel} (h : Inv s) {c : ℕ} {d : Dispatch}
    (hc : (s.cpu c).current = some d) : Inv (yield s c d) :=
  setState_afterSwtch_inv h hc .RUNNABLE

theorem sleep_inv {s : Kernel} (h : Inv s) {c : ℕ} {d : Dispatch}
    (hc : (s.cpu c).current = some d) (chan : Chan) : Inv (sleep s c d chan) := by
  have := afterSwtch_inv h hc { s.proc d.p with chan := some chan, state := .SLEEPING } rfl
  simpa [sleep, Kernel.setState, Kernel.setProc] using this

theorem reparent_inv {s : Kernel} (h : Inv s) (p init : ProcId) :
    Inv (reparent s p init) ∧ (reparent s p init).cpu = s.cpu := by
  unfold reparent
  generalize List.finRange NPROC = l
  induction l generalizing s with
  | nil => exact ⟨h, rfl⟩
  | cons q l ih =>
      rw [List.foldl_cons]
      split
      · have hset : Inv (s.setProc q { s.proc q with parent := some init }) := by
          refine h.keep rfl ?_ ?_ ?_ h.lastRR
          · intro r
            by_cases hr : r = q
            · subst hr; simp [Kernel.setProc]
            · simp [Kernel.setProc, Function.update_of_ne hr]
          · intro r hl
            by_cases hr : r = q
            · subst hr; simpa [Kernel.setProc, Live] using hl
            · simpa [Kernel.setProc, Function.update_of_ne hr] using hl
          · intro c d hd
            have hrun := (h.current c d hd).2.2
            refine ⟨hd, ?_⟩
            by_cases hr : d.p = q
            · simpa [Kernel.setProc, ← hr] using hrun
            · simpa [Kernel.setProc, Function.update_of_ne hr] using hrun
        simp only
        split
        · exact ih (wakeup1_inv hset _)
        · exact ih hset
      · exact ih h

theorem exit_inv {s s' : Kernel} (h : Inv s) {c : ℕ} {d : Dispatch}
    (hc : (s.cpu c).current = some d) (he : exit s c d = some s') : Inv s' := by
  unfold exit at he
  cases hi : s.initproc with
  | none => simp [hi] at he
  | some init =>
      simp only [hi] at he
      split at he
      · cases he
      · obtain rfl := Option.some.inj he
        have hw : ∀ s₁ : Kernel, Inv s₁ → s₁.cpu = s.cpu →
            Inv (afterSwtch ((reparent s₁ d.p init).setState d.p .ZOMBIE) c d) := by
          intro s₁ h₁ hcpu
          obtain ⟨h₂, hcpu₂⟩ := reparent_inv h₁ d.p init
          exact setState_afterSwtch_inv h₂ (by rw [hcpu₂, hcpu]; exact hc) .ZOMBIE
        split
        · exact hw _ (wakeup1_inv h _) rfl
        · exact hw _ h rfl

theorem wait_inv {s : Kernel} (h : Inv s) {c : ℕ} {d : Dispatch}
    (hc : (s.cpu c).current = some d) : Inv (wait s c d) := by
  unfold wait
  split
  · next q hf =>
    have hz : (s.proc q).parent = some d.p ∧ (s.proc q).state = .ZOMBIE := by
      simpa using List.find?_some hf
    exact h.setProc (by simp [hz.2]) rfl fun hl =>
      absurd hl (not_live_of_eq rfl (by simp) (by simp) (by simp))
  · split
    · exact h
    · exact sleep_inv h hc _

/-! ## The starvation check and the timer -/

theorem boost_inv {s : Kernel} (h : Inv s) (now : ℕ) (p : ProcId) :
    Inv (boost now s p) ∧ (boost now s p).cpu = s.cpu := by
  unfold boost
  simp only
  split
  · next hrun =>
    split
    · next hpos =>
      refine ⟨?_, rfl⟩
      obtain ⟨x, hx, hxp⟩ := h.live p (.inl hrun.1)
      have hrow := h.row x p hx hxp
      refine h.move rfl ?_ (fun c d hd => ⟨hd, h.not_current hd (by simp [hrun.1])⟩) h.lastRR
      simp only [hrow]
      rw [dequeue_eq h.single hx hxp]
      exact clear_enqueue_moved h.single hx hxp (by have := hx.1; omega)
    · exact ⟨h, rfl⟩
  · exact ⟨h, rfl⟩

theorem boost_all_inv (now : ℕ) (l : List ProcId) {s : Kernel} (h : Inv s) :
    Inv (l.foldl (boost now) s) ∧ (l.foldl (boost now) s).cpu = s.cpu := by
  induction l generalizing s with
  | nil => exact ⟨h, rfl⟩
  | cons p l ih =>
      obtain ⟨h1, hcpu1⟩ := boost_inv h now p
      obtain ⟨h2, hcpu2⟩ := ih h1
      exact ⟨h2, hcpu2.trans hcpu1⟩

theorem starvationCheck_inv {s : Kernel} (h : Inv s) :
    Inv (starvationCheck s) ∧ (starvationCheck s).cpu = s.cpu := by
  unfold starvationCheck
  split
  · have h0 : Inv { s with starvTicks := 0 } :=
      h.keep rfl (fun _ => rfl) (fun _ hl => hl) (fun c d hd => ⟨hd, (h.current c d hd).2.2⟩) h.lastRR
    exact boost_all_inv s.ticks _ h0
  · exact ⟨h, rfl⟩

theorem account_inv {s : Kernel} (h : Inv s) (p : ProcId) : Inv (account s p) := by
  refine h.keep rfl ?_ ?_ ?_ h.lastRR
  · intro q
    by_cases hqp : q = p
    · subst hqp; simp [account, Kernel.setProc]
    · simp [account, Kernel.setProc, Function.update_of_ne hqp]
  · intro q hl
    by_cases hqp : q = p
    · subst hqp; simpa [account, Kernel.setProc, Live] using hl
    · simpa [account, Kernel.setProc, Function.update_of_ne hqp] using hl
  · intro c d hd
    have hrun := (h.current c d hd).2.2
    refine ⟨hd, ?_⟩
    by_cases hdp : d.p = p
    · simpa [account, Kernel.setProc, ← hdp] using hrun
    · simpa [account, Kernel.setProc, Function.update_of_ne hdp] using hrun

theorem timer_inv {s s' : Kernel} (h : Inv s) {c : ℕ} {user : Bool}
    (ht : timer s c user = some s') : Inv s' := by
  have htick : Inv { s with ticks := (s.ticks + 1) % 2 ^ 32 } :=
    h.keep rfl (fun _ => rfl) (fun _ hl => hl) (fun c d hd => ⟨hd, (h.current c d hd).2.2⟩) h.lastRR
  unfold timer at ht
  simp only at ht
  have hs₁ : Inv (if c = 0 then wakeup1 { s with ticks := (s.ticks + 1) % 2 ^ 32 } .ticks else s) := by
    split
    · exact wakeup1_inv htick _
    · exact h
  generalize (if c = 0 then wakeup1 { s with ticks := (s.ticks + 1) % 2 ^ 32 } .ticks else s) = s₁
    at ht hs₁
  cases hd : (s₁.cpu c).current with
  | none =>
      simp only [hd, Option.some.injEq] at ht
      exact ht ▸ hs₁
  | some d =>
      simp only [hd] at ht
      split at ht
      · exact exit_inv hs₁ hd ht
      · split at ht
        · obtain rfl := Option.some.inj ht
          obtain ⟨h₂, hcpu⟩ := starvationCheck_inv (account_inv hs₁ d.p)
          exact yield_inv h₂ (by rw [hcpu]; exact hd)
        · obtain rfl := Option.some.inj ht
          exact hs₁

/-! ## Dispatching -/

/-- A scan only empties slots of UNUSED processes, and what it finds is a RUNNABLE process in one
of the slots scanned. -/
theorem scan_spec (proc : ProcId → Proc) (l : List Slot) (qs : Queues) :
    (∀ x p, (scan proc l qs).1 x = some p → qs x = some p) ∧
      (∀ x p, qs x = some p → (proc p).state ≠ .UNUSED → (scan proc l qs).1 x = some p) ∧
      ∀ d, (scan proc l qs).2 = some d →
        d.q ∈ l ∧ (scan proc l qs).1 d.q = some d.p ∧ (proc d.p).state = .RUNNABLE := by
  induction l generalizing qs with
  | nil => exact ⟨fun _ _ h => h, fun _ _ h _ => h, fun _ hd => by simp [scan] at hd⟩
  | cons q l ih =>
      unfold scan
      cases hq : qs q with
      | none =>
          obtain ⟨h1, h2, h3⟩ := ih qs
          exact ⟨h1, h2, fun d hd => ⟨List.mem_cons_of_mem _ (h3 d hd).1, (h3 d hd).2⟩⟩
      | some p =>
          simp only
          split
          · next hun =>
            obtain ⟨h1, h2, h3⟩ := ih (Function.update qs q none)
            refine ⟨fun x r hx => (update_none_eq_some (h1 x r hx)).2, ?_,
              fun d hd => ⟨List.mem_cons_of_mem _ (h3 d hd).1, (h3 d hd).2⟩⟩
            intro x r hx hr
            refine h2 x r ?_ hr
            by_cases hxq : x = q
            · subst hxq
              rw [hq, Option.some.injEq] at hx
              exact absurd (hx ▸ hun) hr
            · rw [Function.update_of_ne hxq]
              exact hx
          · split
            · obtain ⟨h1, h2, h3⟩ := ih qs
              exact ⟨h1, h2, fun d hd => ⟨List.mem_cons_of_mem _ (h3 d hd).1, (h3 d hd).2⟩⟩
            · next hrun =>
              refine ⟨fun x r hx => hx, fun x r hx _ => hx, ?_⟩
              intro d hd
              obtain rfl := Option.some.inj hd
              exact ⟨List.mem_cons_self, hq, by simpa using hrun⟩

/-- Slots of UNUSED processes may be emptied. -/
theorem Inv.clean {s : Kernel} (h : Inv s) {qs : Queues}
    (h1 : ∀ x p, qs x = some p → s.queues x = some p)
    (h2 : ∀ x p, s.queues x = some p → (s.proc p).state ≠ .UNUSED → qs x = some p) :
    Inv { s with queues := qs } where
  single := fun x y p hx hy hxp hyp => h.single x y p hx hy (h1 x p hxp) (h1 y p hyp)
  row := fun x p hx hxp => h.row x p hx (h1 x p hxp)
  live := by
    intro p hp
    obtain ⟨x, hx, hxp⟩ := h.live p hp
    refine ⟨x, hx, h2 x p hxp ?_⟩
    intro hu
    exact not_live_of_eq hu (by simp) (by simp) (by simp) hp
  current := by
    intro c d hd
    obtain ⟨h3, h4, h5⟩ := h.current c d hd
    exact ⟨h3, h2 _ _ h4 (by simp [h5]), h5⟩
  apart := h.apart
  lastRR := h.lastRR

/-- `lastRR` only ever points into row 3, so every slot scanned is one of the table. -/
theorem isSlot_of_mem_scanOrder {lastRR : Option ℕ} (hl : ∀ i, lastRR = some i → i < NPROC)
    {x : Slot} (hx : x ∈ scanOrder lastRR) : IsSlot x := by
  have hstart : lastRR.getD 0 < NPROC := by
    cases lastRR with
    | none => simp
    | some i => exact hl i rfl
  simp only [scanOrder, List.mem_append, List.mem_map, List.mem_range, List.mem_range'_1] at hx
  rcases hx with (((⟨i, hi, rfl⟩ | ⟨i, hi, rfl⟩) | ⟨i, hi, rfl⟩) | ⟨i, hi, rfl⟩) | ⟨i, hi, rfl⟩ <;>
    exact ⟨by simp, by simp only; omega⟩

theorem dispatch_inv {s : Kernel} (h : Inv s) (c : ℕ) : Inv (dispatch s c) := by
  obtain ⟨h1, h2, h3⟩ := scan_spec s.proc (scanOrder (s.cpu c).lastRR) s.queues
  unfold dispatch
  cases hs : scan s.proc (scanOrder (s.cpu c).lastRR) s.queues with
  | mk qs r =>
      rw [hs] at h1 h2 h3
      have hc := h.clean h1 h2
      cases r with
      | none => exact hc
      | some d =>
          obtain ⟨hmem, hq, hrun⟩ := h3 d rfl
          have hslot := isSlot_of_mem_scanOrder (h.lastRR c) hmem
          have hne : (s.proc d.p).state ≠ .RUNNING := by simp [hrun]
          refine ⟨hc.single, ?_, ?_, ?_, ?_, ?_⟩
          · intro x p hx hxp
            by_cases hp : p = d.p
            · subst hp
              simpa [Kernel.setProc] using hc.row x d.p hx hxp
            · simpa [Kernel.setProc, Function.update_of_ne hp] using hc.row x p hx hxp
          · intro p hp
            by_cases hpd : p = d.p
            · exact ⟨d.q, hslot, hpd ▸ hq⟩
            · exact hc.live p (by simpa [Kernel.setProc, Function.update_of_ne hpd] using hp)
          · intro c' d' hd'
            by_cases hcc : c' = c
            · subst hcc
              have hdd : d = d' := by simpa using hd'
              subst hdd
              exact ⟨hslot, hq, by simp [Kernel.setProc]⟩
            · have hd'' : (s.cpu c').current = some d' := by
                simpa [Function.update_of_ne hcc] using hd'
              obtain ⟨h4, h5, h6⟩ := hc.current c' d' hd''
              have hne' := h.not_current hd'' hne
              exact ⟨h4, h5, by simpa [Kernel.setProc, Function.update_of_ne hne'] using h6⟩
          · intro c₁ c₂ d₁ d₂ hd₁ hd₂ he
            by_cases h₁ : c₁ = c <;> by_cases h₂ : c₂ = c
            · rw [h₁, h₂]
            · subst h₁
              have hdd : d = d₁ := by simpa using hd₁
              have hd₂' : (s.cpu c₂).current = some d₂ := by simpa [Function.update_of_ne h₂] using hd₂
              exact absurd (hdd ▸ he).symm (h.not_current hd₂' hne)
            · subst h₂
              have hdd : d = d₂ := by simpa using hd₂
              have hd₁' : (s.cpu c₁).current = some d₁ := by simpa [Function.update_of_ne h₁] using hd₁
              exact absurd (hdd ▸ he) (h.not_current hd₁' hne)
            · exact h.apart c₁ c₂ d₁ d₂ (by simpa [Function.update_of_ne h₁] using hd₁)
                (by simpa [Function.update_of_ne h₂] using hd₂) he
          · intro c' i hi
            by_cases hcc : c' = c
            · subst hcc
              exact h.lastRR c' i (by simpa using hi)
            · exact h.lastRR c' i (by simpa [Function.update_of_ne hcc] using hi)

/-! ## Runs -/

theorem step_inv {s s' : Kernel} {a : Call} (h : Inv s) (hok : ForksUnqueued s a)
    (hs : step s a = some s') : Inv s' := by
  cases a with
  | dispatch c =>
      simp only [step, Option.ite_none_right_eq_some, Option.some.injEq] at hs
      exact hs.2 ▸ dispatch_inv h c
  | fork c kstack copied =>
      obtain ⟨d, -, rfl⟩ := Option.map_eq_some_iff.mp hs
      refine fork_inv h d.p kstack copied ?_
      rintro rfl rfl
      exact hok
  | exit c =>
      obtain ⟨d, hd, he⟩ := Option.bind_eq_some_iff.mp hs
      exact exit_inv h hd he
  | wait c =>
      obtain ⟨d, hd, rfl⟩ := Option.map_eq_some_iff.mp hs
      exact wait_inv h hd
  | sleep c chan =>
      obtain ⟨d, hd, rfl⟩ := Option.map_eq_some_iff.mp hs
      exact sleep_inv h hd chan
  | wakeup chan => exact Option.some.inj hs ▸ wakeup1_inv h chan
  | kill pid => exact Option.some.inj hs ▸ kill_inv h pid
  | timer c user => exact timer_inv h hs

theorem userinit_inv : Inv userinit := by
  have h0 : Inv ({} : Kernel) := by
    refine ⟨?_, ?_, ?_, ?_, ?_, ?_⟩ <;> simp [Single, Live]
  unfold userinit
  cases ha : allocproc {} true with
  | mk s' r =>
      obtain ⟨h', hq, hr⟩ := allocproc_inv h0 ha
      cases r with
      | none => exact h'
      | some p =>
          have hne : (s'.proc p).state ≠ .RUNNING := by simp [(hr p rfl).2.2]
          have habs : Absent IsSlot s'.queues p := by
            intro x _
            simp [hq]
          exact h'.move rfl (enqueue_moved h'.single habs (by omega))
            (fun c d hd => ⟨hd, h'.not_current hd hne⟩) h'.lastRR

/-- In every run from `userinit` in which no `fork` queues a process that a slot still points to,
every live process stands in exactly one slot, in the row of its priority. -/
theorem queuedOnce_of_run {s : Kernel} (h : Run step ForksUnqueued userinit s) (p : ProcId)
    (hp : Live (s.proc p)) : QueuedOnce s p :=
  (h.invariant userinit_inv fun _ _ _ hi hok hs => step_inv hi hok hs).queuedOnce hp

instance (s : Kernel) (p : ProcId) : Decidable (Unqueued s p) :=
  inferInstanceAs (Decidable (∀ r < 4, ∀ i < NPROC, s.queues (r, i) ≠ some p))

instance (s : Kernel) (a : Call) : Decidable (ForksUnqueued s a) :=
  match a with
  | .fork _ true true =>
    inferInstanceAs (Decidable (∀ p, findUnused s = some p → Unqueued s p))
  | .fork _ true false | .fork _ false _ | .dispatch _ | .exit _ | .wait _ | .sleep _ _
  | .wakeup _ | .kill _ | .timer _ _ => isTrue trivial

/-- `init` forks a child, which is then waiting in a slot of its own. -/
theorem queuedOnce_first_child :
    ∃ s, play step [.dispatch 0, .fork 0 true true] userinit = some s ∧
      (s.proc 1).state = .RUNNABLE ∧ QueuedOnce s 1 := by
  have hlive : ((play step [.dispatch 0, .fork 0 true true] userinit).map
      fun s => (s.proc 1).state) = some .RUNNABLE := by decide +kernel
  obtain ⟨s, hs, hrun⟩ := Option.map_eq_some_iff.mp hlive
  have hok : PlayOk step ForksUnqueued [.dispatch 0, .fork 0 true true] userinit := by
    decide +kernel
  exact ⟨s, hs, hrun, queuedOnce_of_run (.of_playOk hok hs) 1 (.inl hrun)⟩

/-- `init` forks a child, waits, reaps it and forks again before row 1 is scanned: the slot the
demotion of the first child left behind still points to the process the second child got. -/
theorem fork_queues_twice :
    ∃ s, Run step (fun _ _ => True) userinit s ∧ (s.proc 1).state = .RUNNABLE ∧
      ¬ QueuedOnce s 1 := by
  have hend : ((play step [.dispatch 0, .fork 0 true true, .wait 0, .dispatch 0, .exit 0,
      .dispatch 0, .wait 0, .fork 0 true true] userinit).map fun s =>
        ((s.proc 1).state, s.queues (0, 1), s.queues (0, 2))) = some (.RUNNABLE, some 1, some 1) := by
    decide +kernel
  obtain ⟨s, hs, he⟩ := Option.map_eq_some_iff.mp hend
  obtain ⟨hrun, h1, h2⟩ : _ ∧ _ ∧ _ := by simpa only [Prod.mk.injEq] using he
  refine ⟨s, .of_play hs, hrun, fun hq => ?_⟩
  have := hq.1.unique ⟨⟨by decide, by decide⟩, h1⟩ ⟨⟨by decide, by decide⟩, h2⟩
  simp at this

end IntroToOS.Mlfq

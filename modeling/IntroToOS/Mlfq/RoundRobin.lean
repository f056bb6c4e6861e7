import IntroToOS.Lib.Rotate
import IntroToOS.Mlfq.Pointers
import IntroToOS.Mlfq.Slices

/-! # Round robin at the lowest level

On one CPU, processes of row 3 that are always ready and are never boosted share the CPU. The scheduler
finds the process that is running again after every tick, starting at `lastRR`; only at the end of a
slice of 20 ticks does `lastRR` go on to the next slot. Whatever slots the processes are in, the slices
go round these slots in cyclic order.
-/

namespace IntroToOS.Mlfq
open Lib
set_option autoImplicit false

/-- The process is in slot `i` of row 3, and ready to run. -/
def taken (s : Kernel) (i : ℕ) : Bool :=
  (s.queues (3, i)).any fun p => (s.proc p).state = .RUNNABLE

/-- The processes that are to share the CPU. -/
def Member (s : Kernel) (p : ProcId) : Prop :=
  ∃ i < NPROC, s.queues (3, i) = some p ∧ (s.proc p).state = .RUNNABLE

/-- The columns of row 3 with a process that is ready, in cyclic order from `start` on. -/
def occupied (s : Kernel) (start : ℕ) : List ℕ :=
  ((List.range NPROC).rotate start).filter (taken s)

/-- The column whose turn it is in slice `j`, when the scheduler starts in `s`. -/
def turn (s : Kernel) (j : ℕ) : Option ℕ :=
  let columns := occupied s ((s.cpu 0).lastRR.getD 0)
  columns[j % columns.length]?

/-- The process that slice `j` belongs to. -/
def owner (s : Kernel) (j : ℕ) : Option ProcId := (turn s j).bind fun i => s.queues (3, i)

/-- The scheduler of the first CPU is about to start. -/
structure RowThree (s : Kernel) : Prop where
  lastRR : ∀ i ∈ (s.cpu 0).lastRR, i < NPROC
  idle : ∀ c, (s.cpu c).current = none
  member : ∃ p, Member s p
  ticks : ∀ p, Member s p → (s.proc p).ticks 3 = 0
  once : ∀ p x y, Member s p → IsSlot x → IsSlot y → s.queues x = some p → s.queues y = some p →
    x = y

/-- No process of row 3 has blocked, left or been boosted since `s`, and there is no other process
to run. -/
structure Steady (s t : Kernel) : Prop where
  ready : ∀ p, Member s p → (t.proc p).state = .RUNNABLE ∨ (t.proc p).state = .RUNNING
  level : ∀ p, Member s p → (t.proc p).priority = 3
  others : ∀ row < 4, ∀ i < NPROC, ∀ p ∈ t.queues (row, i), ¬ Member s p →
    (t.proc p).state ≠ .RUNNABLE

/-- The steps that need no CPU but the first. -/
def OnFirstCpu : Call → Prop
  | .dispatch c | .fork c .. | .exit c | .wait c | .sleep c _ | .timer c _ => c = 0
  | .wakeup _ | .kill _ => True

/-- A run from `s` to `t` in which the ticks have been charged to the processes of the list. -/
inductive SteadyRun (s : Kernel) : List ProcId → Kernel → Prop
  | start (h : Steady s s) : SteadyRun s [] s
  | step {l : List ProcId} {t u : Kernel} (a : Call) (h : SteadyRun s l t) (hcpu : OnFirstCpu a)
      (hs : step t a = some u) (hu : Steady s u) : SteadyRun s (l ++ (charged t a).toList) u

/-! ## What does not disturb a process -/

section
variable {s t u : Kernel} {p q : ProcId}

def Active (s : Kernel) (p : ProcId) : Prop :=
  (s.proc p).state = .RUNNABLE ∨ (s.proc p).state = .RUNNING

/-- The CPUs go on as they were, and the processes that can run are in the slots they were in. -/
structure Undisturbed (t u : Kernel) : Prop where
  cpu : u.cpu = t.cpu
  queues : ∀ p, Active t p → ∀ x, u.queues x = some p ↔ t.queues x = some p
  running : ∀ p, Active t p → ((u.proc p).state = .RUNNING ↔ (t.proc p).state = .RUNNING)

theorem Undisturbed.refl (s : Kernel) : Undisturbed s s :=
  ⟨rfl, fun _ _ _ => Iff.rfl, fun _ _ => Iff.rfl⟩

theorem update_of_other {T : Queues} {x y : Slot} {z : Option ProcId} (hy : T y ≠ some p)
    (hz : z ≠ some p) : Function.update T y z x = some p ↔ T x = some p := by
  by_cases hx : x = y
  · subst hx
    rw [Function.update_self]
    exact iff_of_false hz hy
  · rw [Function.update_of_ne hx]

theorem enqueue_of_ne {T : Queues} {row : ℕ} (h : p ≠ q) (x : Slot) :
    enqueue T row q x = some p ↔ T x = some p := by
  unfold enqueue
  cases hf : (List.range NPROC).find? fun i => (T (row, i)).isNone with
  | none => exact Iff.rfl
  | some i =>
      have hnull : T (row, i) = none := by simpa using List.find?_some hf
      exact update_of_other (by rw [hnull]; exact nofun) fun he => h (Option.some.inj he).symm

theorem dequeue_of_ne {T : Queues} {row : ℕ} (h : p ≠ q) (x : Slot) :
    dequeue T row q x = some p ↔ T x = some p := by
  unfold dequeue
  cases hf : (List.range NPROC).find? fun i => T (row, i) = some q with
  | none => exact Iff.rfl
  | some i =>
      have hq : T (row, i) = some q := by simpa using List.find?_some hf
      exact update_of_other (by rw [hq]; exact fun he => h (Option.some.inj he).symm) nofun

/-- A change of the table in which no process that can run is touched. -/
theorem Undisturbed.of_proc (hcpu : u.cpu = t.cpu) (hqueues : u.queues = t.queues)
    (h : ∀ p, Active t p → (u.proc p).state = (t.proc p).state) : Undisturbed t u where
  cpu := hcpu
  queues _ _ x := by rw [hqueues]
  running p hp := by rw [h p hp]

theorem wakeup1_undisturbed (s : Kernel) (chan : Chan) : Undisturbed s (wakeup1 s chan) := by
  refine .of_proc rfl rfl fun p hp => ?_
  simp only [wakeup1]
  split
  · next h =>
    rcases hp with hp | hp <;> rw [h.1] at hp <;> cases hp
  · rfl

theorem kill_undisturbed (s : Kernel) (pid : ℕ) : Undisturbed s (kill s pid) := by
  unfold kill
  split
  · exact .refl s
  · next q _ =>
    refine .of_proc rfl rfl fun p hp => ?_
    by_cases hpq : p = q
    · subst hpq
      rw [setProc_self]
      refine if_neg fun h => ?_
      rcases hp with hp | hp <;> rw [h] at hp <;> cases hp
    · rw [setProc_of_ne hpq]

theorem not_active {st : ProcState} (h : (s.proc p).state = st) (h1 : st ≠ .RUNNABLE)
    (h2 : st ≠ .RUNNING) : ¬ Active s p := by
  rintro (hp | hp)
  · exact h1 (h.symm.trans hp)
  · exact h2 (h.symm.trans hp)

theorem allocproc_undisturbed {kstack : Bool} {r : Option ProcId}
    (h : allocproc s kstack = (t, r)) :
    t.cpu = s.cpu ∧ t.queues = s.queues ∧ (∀ p, Active s p → t.proc p = s.proc p) ∧
      ∀ np ∈ r, ¬ Active s np := by
  unfold allocproc at h
  cases hf : findUnused s with
  | none =>
      rw [hf] at h
      obtain ⟨rfl, rfl⟩ := Prod.mk.inj h
      exact ⟨rfl, rfl, fun _ _ => rfl, nofun⟩
  | some np =>
      rw [hf] at h
      have hnot : ¬ Active s np := not_active (findUnused_state hf) (by decide) (by decide)
      have hne : ∀ p, Active s p → p ≠ np := fun p hp he => hnot (he ▸ hp)
      cases kstack with
      | true =>
          obtain ⟨rfl, rfl⟩ := Prod.mk.inj h
          refine ⟨rfl, rfl, fun p hp => setProc_of_ne (hne p hp), ?_⟩
          rintro q ⟨⟩
          exact hnot
      | false =>
          obtain ⟨rfl, rfl⟩ := Prod.mk.inj h
          refine ⟨rfl, rfl, fun p hp => ?_, nofun⟩
          exact (setProc_of_ne (hne p hp)).trans (setProc_of_ne (hne p hp))

theorem fork_undisturbed (s : Kernel) (q : ProcId) (kstack copied : Bool) :
    Undisturbed s (fork s q kstack copied) := by
  unfold fork
  cases ha : allocproc s kstack with
  | mk v r =>
      obtain ⟨hcpu, hqueues, hproc, hnew⟩ := allocproc_undisturbed ha
      cases r with
      | none => exact .of_proc hcpu hqueues fun p hp => by rw [hproc p hp]
      | some np =>
          have hne : ∀ p, Active s p → p ≠ np := fun p hp he => hnew np rfl (he ▸ hp)
          cases copied with
          | true =>
              refine ⟨hcpu, fun p hp x => ?_, fun p hp => ?_⟩
              · rw [← hqueues]
                exact enqueue_of_ne (hne p hp) x
              · show ((v.setProc np _).proc p).state = _ ↔ _
                rw [setProc_of_ne (hne p hp), hproc p hp]
          | false =>
              refine .of_proc hcpu hqueues fun p hp => ?_
              show ((v.setProc np _).proc p).state = _
              rw [setProc_of_ne (hne p hp), hproc p hp]

/-! ## The starvation check -/

theorem boost_queues_of_ne {now : ℕ} (h : p ≠ q) (x : Slot) :
    (boost now s q).queues x = some p ↔ s.queues x = some p := by
  unfold boost
  simp only
  split
  · split
    · exact (enqueue_of_ne h x).trans (dequeue_of_ne h x)
    · exact Iff.rfl
  · exact Iff.rfl

/-- A process keeps its priority only if it is not boosted. -/
theorem boost_queues_self {now : ℕ}
    (h : ((boost now s p).proc p).priority = (s.proc p).priority) :
    (boost now s p).queues = s.queues := by
  unfold boost at h ⊢
  simp only at h ⊢
  split
  · next hrun =>
    split
    · next hpos =>
      rw [if_pos hrun, if_pos hpos] at h
      simp only [setProc_self] at h
      omega
    · rfl
  · rfl

theorem boost_all_queues {now : ℕ} {l : List ProcId} (hl : l.Nodup)
    (h : ((l.foldl (boost now) s).proc p).priority = (s.proc p).priority) (x : Slot) :
    (l.foldl (boost now) s).queues x = some p ↔ s.queues x = some p := by
  induction l generalizing s with
  | nil => exact Iff.rfl
  | cons q l ih =>
      obtain ⟨hq, htail⟩ := List.nodup_cons.mp hl
      rw [List.foldl_cons] at h ⊢
      by_cases hp : p = q
      · subst hp
        have hlast : (l.foldl (boost now) (boost now s p)).proc p = (boost now s p).proc p :=
          boost_all_of_notMem hq
        rw [ih htail (by rw [hlast]), boost_queues_self (by rw [← hlast]; exact h)]
      · have hself : (boost now s q).proc p = s.proc p := boost_of_ne hp
        rw [ih htail (by rw [h, hself]), boost_queues_of_ne hp]

theorem starvationCheck_queues
    (h : ((starvationCheck s).proc p).priority = (s.proc p).priority) (x : Slot) :
    (starvationCheck s).queues x = some p ↔ s.queues x = some p := by
  unfold starvationCheck at h ⊢
  split
  · next hs =>
    rw [if_pos hs] at h
    exact boost_all_queues (s := { s with starvTicks := 0 }) (List.nodup_finRange NPROC) h x
  · exact Iff.rfl

theorem boost_all_cpu (now : ℕ) (l : List ProcId) (s : Kernel) :
    (l.foldl (boost now) s).cpu = s.cpu := by
  induction l generalizing s with
  | nil => rfl
  | cons q l ih =>
      have hcpu : (boost now s q).cpu = s.cpu := by
        unfold boost
        simp only
        split
        · split <;> rfl
        · rfl
      exact (ih _).trans hcpu

theorem starvationCheck_state (s : Kernel) (p : ProcId) :
    ((starvationCheck s).proc p).state = (s.proc p).state := by
  have hboost : ∀ (now : ℕ) (s : Kernel) (q : ProcId),
      ((boost now s q).proc p).state = (s.proc p).state := by
    intro now s q
    by_cases hp : p = q
    · subst hp
      unfold boost
      simp only
      split
      · split
        · simp only [setProc_self]
        · rfl
      · rfl
    · rw [boost_of_ne hp]
  have hall : ∀ (now : ℕ) (l : List ProcId) (s : Kernel),
      ((l.foldl (boost now) s).proc p).state = (s.proc p).state := by
    intro now l
    induction l with
    | nil => exact fun _ => rfl
    | cons q l ih => exact fun s => (ih _).trans (hboost now s q)
  unfold starvationCheck
  split
  · exact hall _ _ _
  · rfl

theorem starvationCheck_cpu (s : Kernel) : (starvationCheck s).cpu = s.cpu := by
  unfold starvationCheck
  split
  · exact boost_all_cpu _ _ _
  · rfl

/-! ## A process that gives the CPU up for good -/

theorem exit_state {c : ℕ} {d : Dispatch} (h : exit s c d = some u) :
    (u.proc d.p).state = .ZOMBIE := by
  unfold exit at h
  split at h
  · cases h
  · split at h
    · cases h
    · obtain rfl := Option.some.inj h
      rw [(afterSwtch_slice _ c d).2.1, Kernel.setState, setProc_self]

theorem sleep_state (s : Kernel) (c : ℕ) (d : Dispatch) (chan : Chan) :
    ((sleep s c d chan).proc d.p).state = .SLEEPING := by
  unfold sleep
  rw [(afterSwtch_slice _ c d).2.1, Kernel.setState, setProc_self]

theorem wait_undisturbed (s : Kernel) (c : ℕ) (d : Dispatch) :
    Undisturbed s (wait s c d) ∨ ((wait s c d).proc d.p).state = .SLEEPING := by
  unfold wait
  split
  · next q hq =>
    have hz : (s.proc q).parent = some d.p ∧ (s.proc q).state = .ZOMBIE := by
      simpa using List.find?_some hq
    refine .inl (.of_proc rfl rfl fun p hp => ?_)
    have hne : p ≠ q := by
      rintro rfl
      exact not_active hz.2 (by decide) (by decide) hp
    rw [setProc_of_ne hne]
  · split
    · exact .inl (.refl s)
    · exact .inr (sleep_state ..)

end

/-! ## The invariant -/

/-- `n` ticks have been charged since `s`. -/
structure Rotation (s : Kernel) (n : ℕ) (t : Kernel) : Prop where
  queues : ∀ p, Member s p → ∀ x, t.queues x = some p ↔ s.queues x = some p
  ticks : ∀ i < NPROC, ∀ p, Member s p → s.queues (3, i) = some p →
    (t.proc p).ticks 3 = if turn s (n / 20) = some i then n % 20 else 0
  lastRR : ∀ i ∈ (t.cpu 0).lastRR, i < NPROC
  order : occupied s ((t.cpu 0).lastRR.getD 0) =
    (occupied s ((s.cpu 0).lastRR.getD 0)).rotate (n / 20)
  current : ∀ d, (t.cpu 0).current = some d → d.q.1 = 3 ∧ turn s (n / 20) = some d.q.2 ∧
    s.queues d.q = some d.p ∧ Member s d.p ∧ (t.proc d.p).state = .RUNNING
  running : ∀ p, Member s p → (t.proc p).state = .RUNNING → (t.cpu 0).current.map Dispatch.p = some p
  others : ∀ c, c ≠ 0 → (t.cpu c).current = none

section
variable {s t u : Kernel} {n : ℕ} {p : ProcId}

theorem Steady.active (h : Steady s t) (hp : Member s p) : Active t p := h.ready p hp

theorem Rotation.start (h : RowThree s) : Rotation s 0 s where
  queues _ _ _ := Iff.rfl
  ticks i _ p hp _ := by
    rw [h.ticks p hp]
    split <;> rfl
  lastRR := h.lastRR
  order := by rw [Nat.zero_div, List.rotate_zero]
  current d hd := by
    rw [h.idle 0] at hd
    cases hd
  running p hp hrun := by
    obtain ⟨i, -, -, hready⟩ := hp
    rw [hready] at hrun
    cases hrun
  others c _ := h.idle c

theorem Rotation.undisturbed (h : Rotation s n t) (ht : Steady s t) (hu : Undisturbed t u)
    (hticks : ∀ p, Member s p → (u.proc p).ticks 3 = (t.proc p).ticks 3) : Rotation s n u where
  queues p hp x := (hu.queues p (ht.active hp) x).trans (h.queues p hp x)
  ticks i hi p hp hx := (hticks p hp).trans (h.ticks i hi p hp hx)
  lastRR := hu.cpu ▸ h.lastRR
  order := hu.cpu ▸ h.order
  current d hd := by
    rw [hu.cpu] at hd
    obtain ⟨hrow, hturn, hq, hp, hrun⟩ := h.current d hd
    exact ⟨hrow, hturn, hq, hp, (hu.running d.p (ht.active hp)).mpr hrun⟩
  running p hp hrun := by
    rw [hu.cpu]
    exact h.running p hp ((hu.running p (ht.active hp)).mp hrun)
  others := hu.cpu ▸ h.others

theorem Rotation.currentRunning (h : Rotation s n t) : CurrentRunning t := by
  intro c d hd
  by_cases hc : c = 0
  · subst hc
    exact (h.current d hd).2.2.2.2
  · rw [h.others c hc] at hd
    cases hd

theorem Rotation.ticks_lt (h : Rotation s n t) (hp : Member s p) : (t.proc p).ticks 3 < 20 := by
  obtain ⟨i, hi, hq, hready⟩ := hp
  rw [h.ticks i hi p ⟨i, hi, hq, hready⟩ hq]
  split
  · exact Nat.mod_lt n (by decide)
  · decide

/-- The counters of row 3 are moved by the ticks only. -/
theorem Rotation.ticks_kept (h : Rotation s n t) {a : Call} (hs : step t a = some u)
    (ht : Steady s t) (hu : Steady s u) (hc : charged t a ≠ some p) (hp : Member s p) :
    (u.proc p).ticks 3 = (t.proc p).ticks 3 := by
  cases step_slice h.currentRunning hs p with
  | idle _ hy _ => exact congrFun (congrArg Slice.ticks hy) 3
  | forked c ha hf _ =>
      exact absurd (ht.active hp) (not_active (findUnused_state hf) (by decide) (by decide))
  | gone c d _ hd hdp hy =>
      have hc0 : c = 0 := by
        by_contra hc
        rw [h.others c hc] at hd
        cases hd
      subst hc0
      have hrow := (h.current d hd).1
      have hlt := h.ticks_lt hp
      have hne : (t.proc p).slice.ticks d.q.1 ≠ allotment d.q.1 := by
        rw [hrow]
        exact Nat.ne_of_lt hlt
      rw [Slice.quantum_of_ne hne] at hy
      exact congrFun (congrArg Slice.ticks hy) 3
  | boosted c user _ _ hpos _ hy =>
      have hprio := congrArg Slice.priority hy
      have h3 := ht.level p hp
      have h3' := hu.level p hp
      simp only [Proc.slice, Slice.boost] at hprio
      omega
  | spent c d hc' _ _ _ => exact absurd hc' hc

/-! ## A dispatch -/

theorem taken_iff {i : ℕ} :
    taken s i = true ↔ ∃ p, s.queues (3, i) = some p ∧ (s.proc p).state = .RUNNABLE := by
  simp [taken, Option.any_eq_true]

theorem mem_occupied {start i : ℕ} : i ∈ occupied s start ↔ i < NPROC ∧ taken s i = true := by
  rw [occupied, List.mem_filter, List.mem_rotate, List.mem_range]

theorem occupied_ne_nil (h : RowThree s) (start : ℕ) : occupied s start ≠ [] := by
  obtain ⟨p, i, hi, hq, hready⟩ := h.member
  exact List.ne_nil_of_mem (mem_occupied.mpr ⟨hi, taken_iff.mpr ⟨p, hq, hready⟩⟩)

theorem turn_eq {j i : ℕ} {rest : List ℕ}
    (h : (occupied s ((s.cpu 0).lastRR.getD 0)).rotate j = i :: rest) : turn s j = some i := by
  have hlen : 0 < (occupied s ((s.cpu 0).lastRR.getD 0)).length := by
    rw [← List.length_rotate _ j, h]
    exact Nat.succ_pos _
  have hhead : ((occupied s ((s.cpu 0).lastRR.getD 0)).rotate j)[0]? = some i := by
    rw [h]
    rfl
  rwa [List.getElem?_rotate hlen, Nat.zero_add] at hhead

theorem turn_lt {j i : ℕ} (h : turn s j = some i) : i < NPROC :=
  (mem_occupied.mp (List.mem_of_getElem? h)).1

/-- Nothing but a process that shares the CPU can be found. -/
theorem Rotation.pick_member (h : Rotation s n t) (ht : Steady s t) {x : Slot} (hx : IsSlot x)
    {d : Dispatch} (hd : pick t x = some d) : Member s d.p ∧ s.queues x = some d.p := by
  obtain ⟨-, hq, hrun⟩ := pick_eq_some.mp hd
  have hmem : Member s d.p := by
    by_contra hno
    exact ht.others x.1 hx.1 x.2 hx.2 d.p hq hno hrun
  exact ⟨hmem, (h.queues d.p hmem x).mp hq⟩

/-- The process that is dispatched is the one whose turn it is. -/
theorem Rotation.finds (h : Rotation s n t) (h0 : RowThree s) (ht : Steady s t)
    (hidle : (t.cpu 0).current = none) : ∃ i p, turn s (n / 20) = some i ∧
      Member s p ∧ s.queues (3, i) = some p ∧
      (scan t.proc (scanOrder (t.cpu 0).lastRR) t.queues).2 = some ⟨(3, i), p⟩ := by
  obtain ⟨i, rest, hocc⟩ := List.exists_cons_of_ne_nil
    (occupied_ne_nil h0 ((t.cpu 0).lastRR.getD 0))
  have hturn : turn s (n / 20) = some i := turn_eq (h.order.symm.trans hocc)
  obtain ⟨hi, htaken⟩ := mem_occupied.mp (hocc ▸ List.mem_cons_self)
  obtain ⟨p, hq, hready⟩ := taken_iff.mp htaken
  have hp : Member s p := ⟨i, hi, hq, hready⟩
  refine ⟨i, p, hturn, hp, hq, ?_⟩
  have hrun : (t.proc p).state = .RUNNABLE := (ht.ready p hp).resolve_right fun hr => by
    have hcur := h.running p hp hr
    rw [hidle] at hcur
    cases hcur
  have hpick : pick t (3, i) = some ⟨(3, i), p⟩ :=
    pick_eq_some.mpr ⟨rfl, (h.queues p hp (3, i)).mpr hq, hrun⟩
  -- the rows above hold nothing that is ready
  have hupper : ∀ row < 3, ((List.range NPROC).map (row, ·)).findSome? (pick t) = none := by
    intro row hrow
    rw [List.findSome?_eq_none_iff]
    intro x hx
    obtain ⟨j, hj, rfl⟩ := List.mem_map.mp hx
    have hslot : IsSlot (row, j) := ⟨Nat.lt_succ_of_lt hrow, List.mem_range.mp hj⟩
    by_contra hsome
    obtain ⟨d, hd⟩ := Option.ne_none_iff_exists'.mp hsome
    obtain ⟨hmem, hqd⟩ := h.pick_member ht hslot hd
    obtain ⟨k, hk, hqk, -⟩ := id hmem
    have hsame := h0.once d.p _ _ hmem hslot ⟨Nat.lt_succ_self 3, hk⟩ hqd hqk
    exact Nat.ne_of_lt hrow (Prod.mk.inj hsame).1
  have hring : (List.range' ((t.cpu 0).lastRR.getD 0) (NPROC - (t.cpu 0).lastRR.getD 0)).map
      (3, ·) ++ (List.range ((t.cpu 0).lastRR.getD 0)).map (3, ·) =
      ((List.range NPROC).rotate ((t.cpu 0).lastRR.getD 0)).map ((3, ·) : ℕ → Slot) := by
    have hle : (t.cpu 0).lastRR.getD 0 ≤ NPROC := by
      cases hl : (t.cpu 0).lastRR with
      | none => exact Nat.zero_le _
      | some j => exact Nat.le_of_lt (h.lastRR j hl)
    rw [range_rotate hle, List.map_append]
  have hlast : (((List.range NPROC).rotate ((t.cpu 0).lastRR.getD 0)).map
      ((3, ·) : ℕ → Slot)).findSome? (pick t) = some ⟨(3, i), p⟩ := by
    rw [List.findSome?_map, findSome?_eq_of_filter ?_ hocc, Function.comp_apply, hpick]
    · rw [Function.comp_apply, hpick]
      rfl
    · intro j hj hno
      have hslot : IsSlot (3, j) := ⟨Nat.lt_succ_self 3, List.mem_range.mp (List.mem_rotate.mp hj)⟩
      by_contra hsome
      obtain ⟨d, hd⟩ := Option.ne_none_iff_exists'.mp hsome
      obtain ⟨hmem, hqd⟩ := h.pick_member ht hslot hd
      obtain ⟨-, -, -, hready⟩ := id hmem
      rw [taken_iff.mpr ⟨d.p, hqd, hready⟩] at hno
      cases hno
  rw [scan_snd]
  unfold scanOrder
  simp only
  rw [List.append_assoc, hring, List.findSome?_append, List.findSome?_append,
    List.findSome?_append, hupper 0 (by decide), hupper 1 (by decide), hupper 2 (by decide), hlast]
  rfl

theorem Rotation.dispatch (h : Rotation s n t) (h0 : RowThree s) (ht : Steady s t)
    (hu : Steady s (dispatch t 0)) (hidle : (t.cpu 0).current = none) :
    Rotation s n (dispatch t 0) := by
  have hkept : ∀ p, Member s p → ((Mlfq.dispatch t 0).proc p).ticks 3 = (t.proc p).ticks 3 :=
    fun p hp => h.ticks_kept (a := .dispatch 0) (if_pos hidle) ht hu nofun hp
  obtain ⟨i, p, hturn, hp, hq, hscan⟩ := h.finds h0 ht hidle
  obtain ⟨h1, h2, -⟩ := scan_spec t.proc (scanOrder (t.cpu 0).lastRR) t.queues
  unfold Mlfq.dispatch at hkept ⊢
  generalize scan t.proc (scanOrder (t.cpu 0).lastRR) t.queues = r at hscan h1 h2 hkept
  obtain ⟨qs, r⟩ := r
  obtain rfl : r = some ⟨(3, i), p⟩ := hscan
  refine ⟨?_, ?_, ?_, ?_, ?_, ?_, ?_⟩
  · intro q hq x
    rw [← h.queues q hq x]
    refine ⟨h1 x q, fun hx => h2 x q hx fun hun => ?_⟩
    exact not_active hun (by decide) (by decide) (ht.active hq)
  · intro j hj q hq hx
    exact (hkept q hq).trans (h.ticks j hj q hq hx)
  · simp only [Function.update_self]
    exact h.lastRR
  · simp only [Function.update_self]
    exact h.order
  · intro d hd
    simp only [Function.update_self] at hd
    obtain rfl := Option.some.inj hd
    exact ⟨rfl, hturn, hq, hp, by rw [setProc_self]⟩
  · intro q hq hrun
    simp only [Function.update_self, Option.map_some]
    by_contra hne
    have hne : q ≠ p := fun he => hne (congrArg some he.symm)
    rw [setProc_of_ne hne] at hrun
    have hcur := h.running q hq hrun
    rw [hidle] at hcur
    cases hcur
  · intro c hc
    simp only [Function.update_of_ne hc]
    exact h.others c hc

/-! ## A tick -/

/-- The turn passes on. -/
theorem Rotation.next (h : Rotation s n t) (h0 : RowThree s) {i : ℕ}
    (hturn : turn s (n / 20) = some i) :
    occupied s (if i = NPROC - 1 then 0 else i + 1) =
      (occupied s ((s.cpu 0).lastRR.getD 0)).rotate (n / 20 + 1) := by
  obtain ⟨j, rest, hocc⟩ := List.exists_cons_of_ne_nil
    (occupied_ne_nil h0 ((t.cpu 0).lastRR.getD 0))
  obtain rfl : j = i := Option.some.inj ((turn_eq (h.order.symm.trans hocc)).symm.trans hturn)
  have hring : (List.range NPROC).rotate (if j = NPROC - 1 then 0 else j + 1) =
      (List.range NPROC).rotate (j + 1) := by
    split
    · next hj =>
      rw [hj, List.rotate_zero]
      exact (List.rotate_length (List.range NPROC)).symm
    · rfl
  rw [occupied, hring, range_filter_rotate hocc, ← List.rotate_rotate, ← h.order, hocc,
    List.rotate_cons_succ, List.rotate_zero]

theorem afterSwtch_row3 {w : Kernel} {d : Dispatch} (hrow : d.q.1 = 3) :
    (afterSwtch w 0 d).queues = w.queues ∧
      (afterSwtch w 0 d).cpu = Function.update w.cpu 0
        { current := none
          lastRR := if (w.proc d.p).ticks 3 = 20 then
            some (if d.q.2 = NPROC - 1 then 0 else d.q.2 + 1) else (w.cpu 0).lastRR } := by
  unfold afterSwtch
  simp only [hrow, allotment]
  split <;> exact ⟨rfl, rfl⟩

theorem account_others {v : Kernel} {q : ProcId} (h : p ≠ q) :
    (account v q).proc p = v.proc p := setProc_of_ne h

theorem account_self (v : Kernel) (p : ProcId) :
    ((account v p).proc p).slice = (v.proc p).slice.spend ∧
      ((account v p).proc p).state = (v.proc p).state := by
  unfold account
  simp only [setProc_self]
  exact ⟨rfl, trivial⟩

/-- A process that is running is not boosted. -/
theorem charge_slice {v : Kernel} (h : (v.proc p).state = .RUNNING) :
    ((starvationCheck (account v p)).proc p).slice = (v.proc p).slice.spend ∧
      ((starvationCheck (account v p)).proc p).state = .RUNNING := by
  obtain ⟨hslice, hstate⟩ := account_self v p
  rcases starvationCheck_slice (account v p) p with ⟨hs, hst⟩ | ⟨-, hrun, -⟩
  · exact ⟨hs.trans hslice, hst.trans (hstate.trans h)⟩
  · rw [hstate, h] at hrun
    cases hrun

theorem quantum_ticks3 (x : Slice) :
    (x.quantum 3).ticks 3 = if x.ticks 3 = 20 then 0 else x.ticks 3 := by
  unfold Slice.quantum
  simp only [allotment]
  split
  · exact Function.update_self 3 0 x.ticks
  · rfl

/-- The process `d.p` has been charged a tick since `t`, and has not yielded yet. -/
structure Spent (s t w : Kernel) (d : Dispatch) : Prop where
  cpu : w.cpu = t.cpu
  ticks : (w.proc d.p).ticks 3 = (t.proc d.p).ticks 3 + 1
  queues : ∀ q, Member s q → ∀ x, w.queues x = some q ↔ s.queues x = some q
  running : ∀ q, Member s q → q ≠ d.p → (w.proc q).state ≠ .RUNNING

theorem Rotation.spent (h : Rotation s n t) (ht : Steady s t) {v : Kernel} {d : Dispatch}
    (hd : (t.cpu 0).current = some d) (hv : Undisturbed t v) (hvd : v.proc d.p = t.proc d.p)
    (hprio : ∀ p, (v.proc p).priority = (t.proc p).priority)
    (hlevel : ∀ q, Member s q → q ≠ d.p →
      ((starvationCheck (account v d.p)).proc q).priority = 3) :
    Spent s t (starvationCheck (account v d.p)) d := by
  obtain ⟨-, -, -, hp, hrun⟩ := h.current d hd
  obtain ⟨hslice, -⟩ := charge_slice (v := v) (p := d.p) (by rw [hvd]; exact hrun)
  rw [hvd] at hslice
  refine ⟨(starvationCheck_cpu _).trans hv.cpu, ?_, fun q hq x => ?_, fun q hq hqd hrun' => ?_⟩
  · have h3 : (t.proc d.p).slice.priority = 3 := ht.level d.p hp
    have := congrFun (congrArg Slice.ticks hslice) 3
    simp only [Slice.spend, h3, Function.update_self] at this
    exact this
  · -- nobody of row 3 is raised
    have hsame : ((starvationCheck (account v d.p)).proc q).priority =
        ((account v d.p).proc q).priority := by
      by_cases hqd : q = d.p
      · subst hqd
        exact (congrArg Slice.priority hslice).trans
          ((hprio d.p).symm.trans (congrArg Slice.priority (account_self v d.p).1).symm)
      · rw [hlevel q hq hqd, account_others hqd, hprio]
        exact (ht.level q hq).symm
    rw [starvationCheck_queues hsame, ← h.queues q hq x]
    exact hv.queues q (ht.active hq) x
  · rw [starvationCheck_state, account_others hqd] at hrun'
    have hcur := h.running q hq ((hv.running q (ht.active hq)).mp hrun')
    rw [hd] at hcur
    exact hqd (Option.some.inj hcur).symm

/-- The process that has been charged yields: its counter starts again after 20 ticks. -/
theorem Spent.yield_ticks {w : Kernel} {d : Dispatch} (h : Spent s t w d) (hrow : d.q.1 = 3) :
    ((yield w 0 d).proc d.p).ticks 3 =
      if (t.proc d.p).ticks 3 + 1 = 20 then 0 else (t.proc d.p).ticks 3 + 1 := by
  have hself : (w.setState d.p .RUNNABLE).proc d.p = { w.proc d.p with state := .RUNNABLE } :=
    setProc_self
  have hquantum := congrFun (congrArg Slice.ticks
    (afterSwtch_slice (w.setState d.p .RUNNABLE) 0 d).1) 3
  rw [hrow, quantum_ticks3] at hquantum
  rw [← h.ticks]
  refine hquantum.trans ?_
  rw [hself]
  rfl

/-- The CPU is free, and the search will start behind the row's entry when its slice is over. -/
theorem Spent.yield_cpu {w : Kernel} {d : Dispatch} (h : Spent s t w d) (hrow : d.q.1 = 3) :
    (yield w 0 d).cpu = Function.update t.cpu 0
      { current := none
        lastRR := if (t.proc d.p).ticks 3 + 1 = 20 then
          some (if d.q.2 = NPROC - 1 then 0 else d.q.2 + 1) else (t.cpu 0).lastRR } := by
  have hself : (w.setState d.p .RUNNABLE).proc d.p = { w.proc d.p with state := .RUNNABLE } :=
    setProc_self
  refine (afterSwtch_row3 (w := w.setState d.p .RUNNABLE) hrow).2.trans ?_
  rw [hself]
  show Function.update w.cpu 0 { current := none, lastRR := if (w.proc d.p).ticks 3 = 20 then _
    else (w.cpu 0).lastRR } = _
  rw [h.ticks, h.cpu]

/-- The counters of row 3 after the tick: one has moved. -/
theorem Rotation.yield_counters (h : Rotation s n t) (h0 : RowThree s) {w : Kernel} {d : Dispatch}
    (hd : (t.cpu 0).current = some d) (hspent : Spent s t w d)
    (hkept : ∀ q, Member s q → q ≠ d.p → ((yield w 0 d).proc q).ticks 3 = (t.proc q).ticks 3) :
    ∀ i < NPROC, ∀ q, Member s q → s.queues (3, i) = some q →
      ((yield w 0 d).proc q).ticks 3 = if i = d.q.2 then
        (if n % 20 + 1 = 20 then 0 else n % 20 + 1) else 0 := by
  obtain ⟨hrow, hturn, hq, hp, -⟩ := h.current d hd
  have hcol : d.q = (3, d.q.2) := Prod.ext hrow rfl
  have hlt := turn_lt hturn
  intro i hi q hqm hx
  by_cases hid : i = d.q.2
  · subst hid
    obtain rfl : q = d.p := Option.some.inj (hx.symm.trans (hcol ▸ hq))
    have hcount : (t.proc d.p).ticks 3 = n % 20 := by
      rw [h.ticks d.q.2 hlt d.p hp (hcol ▸ hq), if_pos hturn]
    rw [if_pos rfl, hspent.yield_ticks hrow, hcount]
  · have hne : q ≠ d.p := by
      rintro rfl
      have hsame := h0.once d.p (3, i) (3, d.q.2) hp ⟨Nat.lt_succ_self 3, hi⟩
        ⟨Nat.lt_succ_self 3, hlt⟩ hx (hcol ▸ hq)
      exact hid (Prod.mk.inj hsame).2
    rw [if_neg hid, hkept q hqm hne, h.ticks i hi q hqm hx, hturn,
      if_neg fun he => hid (Option.some.inj he).symm]

/-- The process that runs is charged. Only after its 20th tick does the turn pass on. -/
theorem Rotation.tick (h : Rotation s n t) (h0 : RowThree s) (ht : Steady s t) {v : Kernel}
    {d : Dispatch} {user : Bool} (hd : (t.cpu 0).current = some d) (hv : Undisturbed t v)
    (hvd : v.proc d.p = t.proc d.p) (hprio : ∀ p, (v.proc p).priority = (t.proc p).priority)
    (hc : charged t (.timer 0 user) = some d.p)
    (hs : step t (.timer 0 user) = some (yield (starvationCheck (account v d.p)) 0 d))
    (hu : Steady s (yield (starvationCheck (account v d.p)) 0 d)) :
    Rotation s (n + 1) (yield (starvationCheck (account v d.p)) 0 d) := by
  obtain ⟨hrow, hturn, hq, hp, -⟩ := h.current d hd
  have hkept := fun q (hq : Member s q) (hne : q ≠ d.p) =>
    h.ticks_kept hs ht hu (p := q) (by rw [hc]; exact fun he => hne (Option.some.inj he).symm) hq
  -- what `yield` leaves alone
  have hkeeps : ∀ q, q ≠ d.p → ((yield (starvationCheck (account v d.p)) 0 d).proc q).slice =
      ((starvationCheck (account v d.p)).proc q).slice ∧
      ((yield (starvationCheck (account v d.p)) 0 d).proc q).state =
        ((starvationCheck (account v d.p)).proc q).state := fun q hqd => by
    have hother := (afterSwtch_slice ((starvationCheck (account v d.p)).setState d.p .RUNNABLE)
      0 d).2.2 q hqd
    rw [Kernel.setState, setProc_of_ne hqd] at hother
    exact ⟨congrArg Proc.slice hother, congrArg Proc.state hother⟩
  have hspent := h.spent ht hd hv hvd hprio fun q hqm hqd =>
    (congrArg Slice.priority (hkeeps q hqd).1).symm.trans (hu.level q hqm)
  generalize starvationCheck (account v d.p) = w at hs hu hkept hkeeps hspent ⊢
  have hcounters := h.yield_counters h0 hd hspent hkept
  have hcount : (t.proc d.p).ticks 3 = n % 20 := by
    have hcol : d.q = (3, d.q.2) := Prod.ext hrow rfl
    rw [h.ticks d.q.2 (turn_lt hturn) d.p hp (hcol ▸ hq), if_pos hturn]
  have hcpu := hspent.yield_cpu hrow
  rw [hcount] at hcpu
  refine ⟨fun q hqm x => ?_, fun i hi q hqm hx => ?_, ?_, ?_, fun d' hd' => ?_, fun q hqm hrun => ?_,
    fun c hc => ?_⟩
  · show (afterSwtch _ 0 d).queues x = _ ↔ _
    rw [(afterSwtch_row3 (w := w.setState d.p .RUNNABLE) hrow).1]
    exact hspent.queues q hqm x
  · rw [hcounters i hi q hqm hx]
    by_cases hend : n % 20 = 19
    · have hmod : (n + 1) % 20 = 0 := by omega
      rw [hmod, hend]
      simp
    · have hdiv : (n + 1) / 20 = n / 20 := by omega
      have hmod : (n + 1) % 20 = n % 20 + 1 := by omega
      have hmore : ¬ n % 20 + 1 = 20 := by omega
      rw [hdiv, hmod, hturn, if_neg hmore]
      simp only [Option.some.injEq, eq_comm]
  · rw [hcpu, Function.update_self]
    simp only
    split
    · rintro i ⟨⟩
      split
      · decide
      · have := turn_lt hturn
        omega
    · exact h.lastRR
  · rw [hcpu, Function.update_self]
    simp only
    split
    · have hdiv : (n + 1) / 20 = n / 20 + 1 := by omega
      rw [hdiv]
      exact h.next h0 hturn
    · have hdiv : (n + 1) / 20 = n / 20 := by omega
      rw [hdiv]
      exact h.order
  · rw [hcpu, Function.update_self] at hd'
    cases hd'
  · exfalso
    by_cases hqd : q = d.p
    · subst hqd
      have hstop := (afterSwtch_slice (w.setState d.p .RUNNABLE) 0 d).2.1
      rw [Kernel.setState, setProc_self] at hstop
      have hsame := hrun.symm.trans hstop
      cases hsame
    · exact hspent.running q hqm hqd ((hkeeps q hqd).2.symm.trans hrun)
  · rw [hcpu, Function.update_of_ne hc]
    exact h.others c hc

/-! ## Runs -/

theorem Rotation.quiet (h : Rotation s n t) (ht : Steady s t) (hu : Steady s u) {a : Call}
    (hs : step t a = some u) (hc : charged t a = none) (hund : Undisturbed t u) :
    Rotation s (n + (charged t a).toList.length) u ∧
      ∀ p ∈ charged t a, owner s (n / 20) = some p := by
  rw [hc]
  refine ⟨h.undisturbed ht hund fun p hp => h.ticks_kept hs ht hu ?_ hp, nofun⟩
  rw [hc]
  exact nofun

/-- A process of row 3 does not leave the CPU but for the timer. -/
theorem Rotation.stays (h : Rotation s n t) (hu : Steady s u) {d : Dispatch} {st : ProcState}
    (hd : (t.cpu 0).current = some d) (hst : (u.proc d.p).state = st) (h1 : st ≠ .RUNNABLE)
    (h2 : st ≠ .RUNNING) : False :=
  not_active hst h1 h2 (hu.active (h.current d hd).2.2.2.1)

theorem Rotation.timer (h : Rotation s n t) (h0 : RowThree s) (ht : Steady s t)
    (hu : Steady s u) {user : Bool} (hs : step t (.timer 0 user) = some u) :
    Rotation s (n + (charged t (.timer 0 user)).toList.length) u ∧
      ∀ p ∈ charged t (.timer 0 user), owner s (n / 20) = some p := by
  have hund : Undisturbed t (wakeup1 { t with ticks := (t.ticks + 1) % 2 ^ 32 } .ticks) := by
    obtain ⟨hcpu, hqueues, hrunning⟩ :=
      wakeup1_undisturbed { t with ticks := (t.ticks + 1) % 2 ^ 32 } .ticks
    exact ⟨hcpu, hqueues, hrunning⟩
  have hstep := hs
  simp only [step, Mlfq.timer, if_true, wakeup1_cpu] at hstep
  cases hd : (t.cpu 0).current with
  | none =>
      rw [hd] at hstep
      obtain rfl := Option.some.inj hstep
      exact h.quiet ht hu hs (by simp [charged, hd]) hund
  | some d =>
      obtain ⟨-, hturn, hq, hp, hrun⟩ := h.current d hd
      have hself : (wakeup1 { t with ticks := (t.ticks + 1) % 2 ^ 32 } .ticks).proc d.p =
          t.proc d.p := wakeup1_running (s := { t with ticks := _ }) .ticks hrun
      rw [hd] at hstep
      simp only [hself, hrun, if_true] at hstep
      split at hstep
      · exact (h.stays hu hd (exit_state hstep) (by decide) (by decide)).elim
      · next hno =>
        have hc : charged t (.timer 0 user) = some d.p := by
          simp only [charged, hd, if_neg hno, hrun, if_true]
        obtain rfl := Option.some.inj hstep
        rw [hc]
        refine ⟨h.tick h0 ht hd hund hself (fun p => ?_) hc hs hu, ?_⟩
        · exact congrArg Slice.priority
            ((wakeup1_keeps { t with ticks := (t.ticks + 1) % 2 ^ 32 } .ticks).slice p)
        · rintro p ⟨⟩
          rw [owner, hturn, Option.bind_some]
          exact (Prod.ext (h.current d hd).1 rfl : d.q = (3, d.q.2)) ▸ hq

theorem Rotation.step (h : Rotation s n t) (h0 : RowThree s) (ht : Steady s t)
    (hu : Steady s u) {a : Call} (hcpu : OnFirstCpu a) (hs : step t a = some u) :
    Rotation s (n + (charged t a).toList.length) u ∧
      ∀ p ∈ charged t a, owner s (n / 20) = some p := by
  cases a with
  | dispatch c =>
      obtain rfl : c = 0 := hcpu
      obtain ⟨hidle, he⟩ := Option.ite_none_right_eq_some.mp hs
      obtain rfl := Option.some.inj he
      exact ⟨h.dispatch h0 ht hu hidle, nofun⟩
  | fork c kstack copied =>
      obtain ⟨d, hd, rfl⟩ := Option.map_eq_some_iff.mp hs
      exact h.quiet ht hu hs rfl (fork_undisturbed t d.p kstack copied)
  | exit c =>
      obtain rfl : c = 0 := hcpu
      obtain ⟨d, hd, he⟩ := Option.bind_eq_some_iff.mp hs
      exact (h.stays hu hd (exit_state he) (by decide) (by decide)).elim
  | wait c =>
      obtain rfl : c = 0 := hcpu
      obtain ⟨d, hd, rfl⟩ := Option.map_eq_some_iff.mp hs
      rcases wait_undisturbed t 0 d with hund | hst
      · exact h.quiet ht hu hs rfl hund
      · exact (h.stays hu hd hst (by decide) (by decide)).elim
  | sleep c chan =>
      obtain rfl : c = 0 := hcpu
      obtain ⟨d, hd, rfl⟩ := Option.map_eq_some_iff.mp hs
      exact (h.stays hu hd (sleep_state t 0 d chan) (by decide) (by decide)).elim
  | wakeup chan =>
      obtain rfl := Option.some.inj hs
      exact h.quiet ht hu hs rfl (wakeup1_undisturbed t chan)
  | kill pid =>
      obtain rfl := Option.some.inj hs
      exact h.quiet ht hu hs rfl (kill_undisturbed t pid)
  | timer c user =>
      obtain rfl : c = 0 := hcpu
      exact h.timer h0 ht hu hs

theorem SteadyRun.steady {l : List ProcId} (h : SteadyRun s l t) : Steady s t := by
  cases h with
  | start h => exact h
  | step _ _ _ _ hu => exact hu

theorem SteadyRun.rotation {l : List ProcId} (h : SteadyRun s l t) (h0 : RowThree s) :
    Rotation s l.length t ∧ ∀ k, (hk : k < l.length) → owner s (k / 20) = some l[k] := by
  induction h with
  | start _ => exact ⟨.start h0, nofun⟩
  | @step l t u a h hcpu hs hu ih =>
      obtain ⟨hrot, howner⟩ := ih
      obtain ⟨hrot', hnew⟩ := hrot.step h0 h.steady hu hcpu hs
      refine ⟨by rwa [List.length_append], fun k hk => ?_⟩
      by_cases hold : k < l.length
      · rw [List.getElem_append_left hold]
        exact howner k hold
      · generalize charged t a = r at hk hnew
        cases r with
        | none =>
            rw [Option.toList_none, List.append_nil] at hk
            exact absurd hk hold
        | some p =>
            rw [Option.toList_some, List.length_append, List.length_singleton] at hk
            obtain rfl : k = l.length := by omega
            simp only [Option.toList_some, List.getElem_concat_length]
            exact hnew p rfl

/-- Tick `k` of a run belongs to slice `k / 20`; the slices go round the occupied columns in cyclic
order, and among any successive slices as many as there are processes each process has one. -/
theorem round_robin {l : List ProcId} (h0 : RowThree s) (h : SteadyRun s l t) :
    (∀ k, (hk : k < l.length) → owner s (k / 20) = some l[k]) ∧
      ∀ j p, Member s p → ∃! i,
        (j ≤ i ∧ i < j + (occupied s ((s.cpu 0).lastRR.getD 0)).length) ∧ owner s i = some p := by
  refine ⟨(h.rotation h0).2, fun j p hp => ?_⟩
  obtain ⟨c, hc, hq, hready⟩ := id hp
  have hnodup : (occupied s ((s.cpu 0).lastRR.getD 0)).Nodup :=
    (List.nodup_rotate.mpr List.nodup_range).filter _
  have hmem : c ∈ occupied s ((s.cpu 0).lastRR.getD 0) :=
    mem_occupied.mpr ⟨hc, taken_iff.mpr ⟨p, hq, hready⟩⟩
  -- a process has the slices of its column, and no others
  have howner : ∀ i, owner s i = some p ↔ turn s i = some c := by
    intro i
    constructor
    · intro ho
      obtain ⟨c', hc', hq'⟩ := Option.bind_eq_some_iff.mp ho
      have hsame := h0.once p (3, c') (3, c) hp ⟨Nat.lt_succ_self 3, turn_lt hc'⟩
        ⟨Nat.lt_succ_self 3, hc⟩ hq' hq
      rw [hc', (Prod.mk.inj hsame).2]
    · intro hturn
      rw [owner, hturn, Option.bind_some, hq]
  obtain ⟨i, hi, huniq⟩ := existsUnique_turn hnodup hmem j
  exact ⟨i, ⟨hi.1, (howner i).mpr hi.2⟩, fun i' hi' => huniq i' ⟨hi'.1, (howner i').mp hi'.2⟩⟩

/-- Process 0 in the last slot, process 1 in slot 2; the round robin is at the last slot. -/
def twoReady : Kernel where
  proc p := if p.val < 2 then { state := .RUNNABLE, priority := 3 } else {}
  queues x := if x = (3, 63) then some 0 else if x = (3, 2) then some 1 else none
  cpu c := if c = 0 then { lastRR := some 63 } else {}

theorem twoReady_ready : RowThree twoReady where
  lastRR := by
    rintro i ⟨⟩
    decide
  idle c := by
    by_cases hc : c = 0 <;> simp [twoReady, hc]
  member := ⟨0, 63, by decide, rfl, rfl⟩
  ticks p _ := by
    simp only [twoReady]
    split <;> rfl
  once p x y _ _ _ hx hy := by
    simp only [twoReady] at hx hy
    grind

/-- Both are ready or running at the lowest level, and nobody else is there. -/
def BothReady (t : Kernel) : Prop := ∀ p, if p.val < 2 then
    ((t.proc p).state = .RUNNABLE ∨ (t.proc p).state = .RUNNING) ∧ (t.proc p).priority = 3
  else (t.proc p).state = .UNUSED

instance (t : Kernel) : Decidable (BothReady t) := inferInstanceAs (Decidable (∀ _, _))

theorem member_twoReady {p : ProcId} : Member twoReady p ↔ p.val < 2 := by
  constructor
  · rintro ⟨i, -, -, hp⟩
    by_contra hno
    simp only [twoReady, if_neg hno] at hp
    cases hp
  · intro hp
    obtain hp | hp : p.val = 0 ∨ p.val = 1 := by omega
    · obtain rfl : p = 0 := Fin.ext hp
      exact ⟨63, by decide, rfl, rfl⟩
    · obtain rfl : p = 1 := Fin.ext hp
      exact ⟨2, by decide, rfl, rfl⟩

theorem BothReady.steady (h : BothReady t) : Steady twoReady t := by
  have hboth : ∀ p, Member twoReady p →
      ((t.proc p).state = .RUNNABLE ∨ (t.proc p).state = .RUNNING) ∧ (t.proc p).priority = 3 := by
    intro p hp
    have hp' := h p
    rwa [if_pos (member_twoReady.mp hp)] at hp'
  refine ⟨fun p hp => (hboth p hp).1, fun p hp => (hboth p hp).2, fun row _ i _ p _ hno => ?_⟩
  have hp := h p
  rw [if_neg fun hlt => hno (member_twoReady.mpr hlt)] at hp
  rw [hp]
  decide

/-- The calls are carried out while both are ready; `l` are the processes charged so far. -/
def playReady : List Call → Kernel → List ProcId → Option (Kernel × List ProcId)
  | [], t, l => some (t, l)
  | a :: as, t, l => (step t a).bind fun u =>
    if BothReady u then playReady as u (l ++ (charged t a).toList) else none

theorem steadyRun_of_playReady {as : List Call} {l l' : List ProcId} (has : ∀ a ∈ as, OnFirstCpu a)
    (h : SteadyRun twoReady l t) (hplay : playReady as t l = some (u, l')) :
    SteadyRun twoReady l' u := by
  induction as generalizing t l with
  | nil =>
      obtain ⟨rfl, rfl⟩ := Prod.mk.inj (Option.some.inj hplay)
      exact h
  | cons a as ih =>
      obtain ⟨v, hv, hrest⟩ := Option.bind_eq_some_iff.mp hplay
      obtain ⟨hboth, hrest⟩ := Option.ite_none_right_eq_some.mp hrest
      exact ih (fun b hb => has b (List.mem_cons_of_mem a hb))
        (h.step a (has a List.mem_cons_self) hv hboth.steady) hrest

/-- Process 0 has a whole slice, and the next tick is one of process 1. -/
theorem round_robin_twoReady : ∃ t, SteadyRun twoReady (List.replicate 20 0 ++ [1]) t ∧
    owner twoReady 0 = some 0 ∧ owner twoReady 1 = some 1 ∧
    ∃! i, (7 ≤ i ∧ i < 7 + (occupied twoReady 63).length) ∧ owner twoReady i = some 1 := by
  have hstart : SteadyRun twoReady [] twoReady := .start (BothReady.steady (by decide))
  have hplay : (playReady (List.replicate 21 [.dispatch 0, .timer 0 true]).flatten twoReady []).map
      Prod.snd = some (List.replicate 20 0 ++ [1]) := by decide +kernel
  obtain ⟨⟨t, l⟩, ht, rfl⟩ := Option.map_eq_some_iff.mp hplay
  have hcalls : ∀ a ∈ (List.replicate 21 [Call.dispatch 0, .timer 0 true]).flatten, OnFirstCpu a := by
    intro a ha
    obtain ⟨l, hl, ha⟩ := List.mem_flatten.mp ha
    rw [List.eq_of_mem_replicate hl] at ha
    rcases List.mem_cons.mp ha with rfl | ha
    · rfl
    · rw [List.mem_singleton.mp ha]
      rfl
  have hrun := steadyRun_of_playReady hcalls hstart ht
  obtain ⟨h1, h2⟩ := round_robin twoReady_ready hrun
  exact ⟨t, hrun, h1 0 (by decide), h1 20 (by decide), h2 7 1 (member_twoReady.mpr (by decide))⟩

end

end IntroToOS.Mlfq

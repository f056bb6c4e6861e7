import IntroToOS.Mlfq.HandOver

/-! # Dispatch safety of Project2b

Every step of the machine is one of the changes that keep `Inv`: the process on a CPU goes on
(`Inv.go`), gives its state up (`Inv.depart`) or the CPU (`Inv.leave`), sets the state of a process
that is on no CPU (`Inv.change`), or a scheduler goes on (`Inv.goIdle`, `Inv.run`, `Inv.swtch`).
-/

namespace IntroToOS.Mlfq.Smp
open Lib
set_option autoImplicit false

/-! ## What the kernel's functions do to the states -/

def states (k : Kernel) : ProcId → ProcState := fun p => (k.proc p).state

def currents (k : Kernel) : ℕ → Option Dispatch := fun c => (k.cpu c).current

/-- `k'` differs from `k` in nothing that `Inv` speaks of, but for processes woken up. -/
structure Wakes (k k' : Kernel) : Prop where
  states : Woken (states k) (states k')
  cpu : k'.cpu = k.cpu

theorem Wakes.refl (k : Kernel) : Wakes k k := ⟨.rfl _, rfl⟩

theorem Wakes.trans {k k' k'' : Kernel} (h : Wakes k k') (h' : Wakes k' k'') : Wakes k k'' :=
  ⟨h.states.trans h'.states, h'.cpu.trans h.cpu⟩

/-- A change of the process table that keeps the states. -/
theorem Wakes.of_states {k k' : Kernel} (h : ∀ p, (k'.proc p).state = (k.proc p).state)
    (hc : k'.cpu = k.cpu) : Wakes k k' := ⟨fun p => .inl (h p), hc⟩

theorem setProc_state (k : Kernel) (p q : ProcId) (x : Proc) (hx : x.state = (k.proc p).state) :
    ((k.setProc p x).proc q).state = (k.proc q).state := by
  by_cases hq : q = p
  · subst hq
    simpa [Kernel.setProc] using hx
  · simp [Kernel.setProc, hq]

theorem wakes_setProc (k : Kernel) (p : ProcId) (x : Proc) (hx : x.state = (k.proc p).state) :
    Wakes k (k.setProc p x) :=
  .of_states (fun q => setProc_state k p q x hx) rfl

theorem wakes_wakeup1 (k : Kernel) (chan : Chan) : Wakes k (Mlfq.wakeup1 k chan) := by
  refine ⟨fun p => ?_, rfl⟩
  simp only [states, Mlfq.wakeup1]
  split
  · next h => exact .inr ⟨h.1, rfl⟩
  · exact .inl rfl

theorem wakes_kill (k : Kernel) (pid : ℕ) : Wakes k (Mlfq.kill k pid) := by
  unfold Mlfq.kill
  split
  · exact .refl k
  · next p _ =>
    refine ⟨fun q => ?_, rfl⟩
    by_cases hq : q = p
    · subst hq
      by_cases hs : (k.proc q).state = .SLEEPING
      · exact .inr ⟨hs, by simp [states, Kernel.setProc, hs]⟩
      · exact .inl (by simp [states, Kernel.setProc, hs])
    · exact .inl (by simp [states, Kernel.setProc, hq])

theorem wakes_reparent (k : Kernel) (p init : ProcId) : Wakes k (reparent k p init) := by
  unfold reparent
  generalize List.finRange NPROC = l
  induction l generalizing k with
  | nil => exact .refl k
  | cons q l ih =>
      rw [List.foldl_cons]
      refine Wakes.trans ?_ (ih _)
      dsimp only
      split
      · have hset := wakes_setProc k q { k.proc q with parent := some init } rfl
        split
        · exact hset.trans (wakes_wakeup1 _ _)
        · exact hset
      · exact .refl k

theorem wakes_orphan (k : Kernel) (p init : ProcId) : Wakes k (orphan k p init) := by
  unfold orphan
  refine Wakes.trans ?_ (wakes_reparent _ p init)
  split
  · exact wakes_wakeup1 k _
  · exact .refl k

theorem wakes_boost (now : ℕ) (k : Kernel) (p : ProcId) : Wakes k (boost now k p) := by
  unfold boost
  simp only
  split
  · split
    · exact .of_states (fun q => setProc_state k p q _ rfl) rfl
    · exact .refl k
  · exact .refl k

theorem wakes_boostAll (now : ℕ) (k : Kernel) (l : List ProcId) :
    Wakes k (l.foldl (boost now) k) := by
  induction l generalizing k with
  | nil => exact .refl k
  | cons p l ih => exact (wakes_boost now k p).trans (ih _)

theorem wakes_account (k : Kernel) (p : ProcId) : Wakes k (account k p) :=
  .of_states (fun q => setProc_state k p q _ rfl) rfl

theorem afterSwtch_states (k : Kernel) (c : ℕ) (d : Dispatch) :
    states (afterSwtch k c d) = states k := by
  funext q
  unfold states afterSwtch
  simp only
  split
  · split
    · exact setProc_state k d.p q _ rfl
    · exact setProc_state k d.p q _ rfl
  · rfl

theorem afterSwtch_currents (k : Kernel) (c : ℕ) (d : Dispatch) :
    currents (afterSwtch k c d) = Function.update (currents k) c none := by
  funext c'
  unfold currents afterSwtch
  simp only
  by_cases hc : c' = c
  · subst hc
    split
    · split <;> simp
    · simp
  · split
    · split <;> simp [hc]
    · simp [hc]

theorem currents_update (k : Kernel) (c : ℕ) (o : Option Dispatch) :
    currents { k with cpu := Function.update k.cpu c { k.cpu c with current := o } } =
      Function.update (currents k) c o := by
  funext c'
  by_cases hc : c' = c
  · subst hc
    simp [currents]
  · simp [currents, hc]

theorem setProc_states (k : Kernel) (p : ProcId) (x : Proc) :
    states (k.setProc p x) = Function.update (states k) p x.state := by
  funext q
  by_cases hq : q = p
  · subst hq
    simp [states, Kernel.setProc]
  · simp [states, Kernel.setProc, hq]

theorem setState_states (k : Kernel) (p : ProcId) (st : ProcState) :
    states (k.setState p st) = Function.update (states k) p st := by
  funext q
  by_cases hq : q = p
  · subst hq
    simp [states, Kernel.setState, Kernel.setProc]
  · simp [states, Kernel.setState, Kernel.setProc, hq]

/-! ## Steps of the machine -/

def Machine.Inv (m : Machine) : Prop :=
  Smp.Inv m.lock m.stack m.cr3 m.sched m.intr (currents m.kernel) (states m.kernel) m.code

section
variable {m m' : Machine} {k : Kernel} {c : ℕ} {p : ProcId} {ok : Bool} {op : Op} {l l' : List Op}

theorem currents_eq (hk : Wakes m.kernel k) : currents k = currents m.kernel := by
  unfold currents
  rw [hk.cpu]

/-- The process on CPU `c` goes on with `l'`, which takes over nothing new. -/
theorem Machine.Inv.goTo (h : m.Inv) (lock' : Option ℕ) (hp : m.stack c = some p)
    (hrun : states m.kernel p = .RUNNING)
    (hlock : ∀ c', c' ≠ c → (lock' = some c' ↔ m.lock = some c')) (hk : Wakes m.kernel k)
    (hl : Code (decide (lock' = some c)) l') (hmem : ∀ o ∈ l', o ∈ m.code p ∨ o.child = none) :
    Smp.Inv lock' m.stack m.cr3 m.sched m.intr (currents k) (states k)
      (Function.update m.code p l') := by
  rw [currents_eq hk]
  refine Inv.go h hp hrun hlock hk.states (.inl hl) ?_ ?_ ?_
  · rintro np ⟨o, ho, hc⟩
    rcases hmem o ho with hin | hnone
    · exact ⟨o, hin, hc⟩
    · cases hnone.symm.trans hc
  · rintro np ⟨o, ho, hc⟩
    rcases hmem o ho with hin | hnone
    · exact .inl ⟨o, hin, hc⟩
    · have hch : o.child = some np := by cases o <;> simp_all [Op.prepared, Op.child]
      cases hnone.symm.trans hch
  · rintro o l'' q rfl hq
    cases hl.reaped_eq_none.symm.trans hq

theorem Machine.Inv.next (h : m.Inv) (hp : m.stack c = some p)
    (hrun : states m.kernel p = .RUNNING) (hk : Wakes m.kernel k)
    (hl : Code (decide (m.lock = some c)) l') (hmem : ∀ o ∈ l', o ∈ m.code p ∨ o.child = none) :
    (m.next p k l').Inv :=
  h.goTo m.lock hp hrun (fun _ _ => Iff.rfl) hk hl hmem

/-- The operations that any context can execute. -/
theorem execShared_inv (h : m.Inv) (hp : m.stack c = some p)
    (hrun : states m.kernel p = .RUNNING) (hcode : m.code p = op :: l)
    (hc : Code (decide (m.lock = some c)) (op :: l))
    (he : (execShared m c op).map (fun m => m.setCode p l) = some m') : m'.Inv := by
  obtain ⟨n, hn, rfl⟩ := Option.map_eq_some_iff.mp he
  have hmem : ∀ o ∈ l, o ∈ m.code p ∨ o.child = none := fun o ho => by
    rw [hcode]
    exact .inl (List.mem_cons_of_mem _ ho)
  cases op with
  | acquire =>
      obtain ⟨hfree, hn⟩ := Option.ite_none_right_eq_some.mp hn
      obtain rfl := Option.some.inj hn
      obtain ⟨-, hl⟩ := hc.acquire_inv
      refine h.goTo (some c) hp hrun (fun c' hne => ?_) (.refl _) (by simpa using hl) hmem
      simp [hfree, hne.symm]
  | release =>
      obtain ⟨hheld, hn⟩ := Option.ite_none_right_eq_some.mp hn
      obtain rfl := Option.some.inj hn
      obtain ⟨-, hl⟩ := hc.release_inv
      refine h.goTo none hp hrun (fun c' hne => ?_) (.refl _) (by simpa using hl) hmem
      simp [hheld, hne.symm]
  | acquireTicks =>
      obtain ⟨-, hn⟩ := Option.ite_none_right_eq_some.mp hn
      obtain rfl := Option.some.inj hn
      exact h.next hp hrun (.refl _) (hc.same rfl) hmem
  | releaseTicks =>
      obtain ⟨-, hn⟩ := Option.ite_none_right_eq_some.mp hn
      obtain rfl := Option.some.inj hn
      exact h.next hp hrun (.refl _) (hc.same rfl) hmem
  | tick =>
      obtain rfl := Option.some.inj hn
      exact h.next hp hrun (.of_states (fun _ => rfl) rfl)
        (hc.same rfl) hmem
  | wakeup1 chan =>
      obtain rfl := Option.some.inj hn
      exact h.next hp hrun (wakes_wakeup1 _ chan)
        (hc.same rfl) hmem
  | _ => cases hn

/-- The first operation of a process that is neither `sched` nor a step of the reaping. -/
theorem Machine.Inv.code (h : m.Inv) (hp : m.stack c = some p) (hcode : m.code p = op :: l)
    (hs : op ≠ .sched) (hr : op.reaped = none) :
    states m.kernel p = .RUNNING ∧ Code (decide (m.lock = some c)) (op :: l) := by
  obtain ⟨hrun, hl⟩ := Smp.Inv.runs h hp fun l' hl' => hs (List.cons.inj (hcode.symm.trans hl')).1
  refine ⟨hrun, ?_⟩
  rw [hcode] at hl
  refine hl.resolve_right ?_
  rintro ⟨-, op', q, hq, heq⟩
  rw [(List.cons.inj heq).1, hq] at hr
  cases hr

/-- A step of the reaping: the lock is held and the process is a zombie. -/
theorem Machine.Inv.reaping (h : m.Inv) (hp : m.stack c = some p) (hcode : m.code p = op :: l)
    {q : ProcId} (hq : op.reaped = some q) :
    states m.kernel p = .RUNNING ∧ m.lock = some c ∧ l = [] ∧ states m.kernel q = .ZOMBIE := by
  have hs : op ≠ .sched := by
    rintro rfl
    cases hq
  obtain ⟨hrun, hl⟩ := Smp.Inv.runs h hp fun l' hl' => hs (List.cons.inj (hcode.symm.trans hl')).1
  rw [hcode] at hl
  rcases hl with hl | ⟨hlock, op', q', -, heq⟩
  · cases hl.reaped_eq_none.symm.trans hq
  · exact ⟨hrun, of_decide_eq_true hlock, (List.cons.inj heq).2, h.reaped c p q op l hp hcode hq⟩

/-- The process on CPU `c` goes on with the next step of the reaping of `q`. -/
theorem Machine.Inv.nextReap (h : m.Inv) (hp : m.stack c = some p)
    (hrun : states m.kernel p = .RUNNING) (hlock : m.lock = some c) {q : ProcId}
    (hq : op.reaped = some q) (hz : states m.kernel q = .ZOMBIE) :
    (m.next p m.kernel [op]).Inv := by
  have hchild : op.child = none := by cases op <;> simp_all [Op.reaped, Op.child]
  refine Smp.Inv.go h hp hrun (fun _ _ => Iff.rfl) (.rfl _)
    (.inr ⟨decide_eq_true hlock, op, q, hq, rfl⟩) ?_ ?_ ?_
  · rintro np ⟨o, ho, hc⟩
    obtain rfl := List.mem_singleton.mp ho
    cases hchild.symm.trans hc
  · rintro np ⟨o, ho, hc⟩
    obtain rfl := List.mem_singleton.mp ho
    cases o <;> simp_all [Op.prepared]
  · rintro o l'' q' heq hq'
    obtain rfl := (List.cons.inj heq).1
    obtain rfl := Option.some.inj (hq.symm.trans hq')
    exact hz

/-- While CPU `c` reaps `q`, no CPU executes on it. -/
theorem Machine.Inv.not_executes (h : m.Inv) (hp : m.stack c = some p)
    (hrun : states m.kernel p = .RUNNING) (hlock : m.lock = some c) {q : ProcId}
    (hz : states m.kernel q = .ZOMBIE) (c' : ℕ) : ¬ m.Executes c' q := by
  have hne : p ≠ q := by
    rintro rfl
    cases hrun.symm.trans hz
  have hcur : ∀ d, currents m.kernel c' = some d → d.p ≠ q := by
    intro d hd hdq
    obtain rfl := Smp.Inv.only_holder h hlock (by simp [hz]) hd hdq
    obtain ⟨d', hd', hdp⟩ := Smp.Inv.stack_current h hp
    obtain rfl := Option.some.inj (hd.symm.trans hd')
    exact hne (hdp.symm.trans hdq)
  rintro (hs | hs)
  · obtain ⟨d, hd, hdq⟩ := Smp.Inv.stack_current h hs
    exact hcur d hd hdq
  · obtain ⟨d, hd, hdq⟩ := Smp.Inv.cr3_current h hs
    exact hcur d hd hdq

/-- The end of the reaping: the process table entry is free again. -/
theorem Machine.Inv.endReap (h : m.Inv) (hp : m.stack c = some p) {q : ProcId}
    (hcode : m.code p = .clear q :: l) :
    Smp.Inv m.lock m.stack m.cr3 m.sched m.intr (currents m.kernel)
      (Function.update (states m.kernel) q .UNUSED) (Function.update m.code p [.release]) := by
  obtain ⟨hrun, hlock, rfl, hz⟩ := h.reaping hp hcode rfl
  refine Smp.Inv.change h hp hrun (.inl ?_) (by simp [hz]) (by simp [hz]) ?_ (by simp) (.inl rfl)
    ?_ ?_ ?_ ?_ ?_
  · rw [decide_eq_true hlock]
    exact .step rfl .done
  · intro c' hs
    exact h.not_executes hp hrun hlock hz c' (.inl hs)
  · rintro np ⟨o, ho, hc⟩
    obtain rfl := List.mem_singleton.mp ho
    cases hc
  · intro _ p' ho
    cases hz.symm.trans (h.own.owned p' q ho)
  · rintro np ⟨o, ho, hc⟩
    obtain rfl := List.mem_singleton.mp ho
    cases hc
  · rintro o l' heq
    obtain rfl := (List.cons.inj heq).1
    rfl
  · intro c' p' o l' hne hs hcode' hq
    obtain ⟨-, hlock', -, -⟩ := h.reaping hs hcode' hq
    obtain rfl := Option.some.inj (hlock.symm.trans hlock')
    exact hne (Option.some.inj (hs.symm.trans hp))

/-- `allocproc` takes an UNUSED process. -/
theorem Machine.Inv.embryo (h : m.Inv) (hp : m.stack c = some p)
    (hrun : states m.kernel p = .RUNNING) (hlock : m.lock = some c) {np : ProcId}
    (hu : states m.kernel np = .UNUSED) :
    Smp.Inv m.lock m.stack m.cr3 m.sched m.intr (currents m.kernel)
      (Function.update (states m.kernel) np .EMBRYO)
      (Function.update m.code p [.release, .kalloc np]) := by
  refine Smp.Inv.change h hp hrun (.inl ?_) (by simp [hu]) (by simp [hu])
    (Smp.Inv.off_stack h (.inl hu)) (by simp) (.inr (.inl rfl)) ?_ ?_ ?_ ?_ ?_
  · rw [decide_eq_true hlock]
    exact .step rfl (.final rfl)
  · rintro np' ⟨o, ho, hc⟩
    have hnp : np = np' := by
      rcases List.mem_pair.mp ho with rfl | rfl
      · cases hc
      · exact Option.some.inj hc
    exact ⟨hnp.symm, hu, rfl⟩
  · intro hne
    exact absurd rfl hne
  · rintro np' ⟨o, ho, hc⟩
    rcases List.mem_pair.mp ho with rfl | rfl <;> cases hc
  · rintro o l' heq
    obtain rfl := (List.cons.inj heq).1
    rfl
  · intro c' p' o l' _ hs hcode' hq
    cases hu.symm.trans (h.reaped c' p' np o l' hs hcode' hq)

theorem owns_of_head {s : List Op} {np : ProcId} (hs : s = op :: l) (hc : op.child = some np) :
    Owns s np := ⟨op, by rw [hs]; exact List.mem_cons_self, hc⟩

theorem Machine.Inv.ready_of_head (h : m.Inv) (hcode : m.code p = op :: l) {np : ProcId}
    (hc : op.prepared = some np) : m.code np = forkret :=
  h.own.ready p np ⟨op, by rw [hcode]; exact List.mem_cons_self, hc⟩

/-- The last step of `fork`: it gives its child up, as UNUSED or as RUNNABLE. -/
theorem Machine.Inv.endFork (h : m.Inv) (hp : m.stack c = some p)
    (hrun : states m.kernel p = .RUNNING) (hcode : m.code p = op :: l) {np : ProcId}
    (hc : op.child = some np) (hlock : decide (m.lock = some c) = false) {b : ProcState}
    (hb : b = .UNUSED ∨ b = .RUNNABLE ∧ Parked (m.code np)) :
    Smp.Inv m.lock m.stack m.cr3 m.sched m.intr (currents m.kernel)
      (Function.update (states m.kernel) np b) (Function.update m.code p []) := by
  have hown : Owns (m.code p) np := owns_of_head hcode hc
  have he := h.own.owned p np hown
  have hempty : ∀ {f : Op → Option ProcId} {np' : ProcId}, ¬ ∃ o ∈ ([] : List Op), f o = some np' := by
    rintro f np' ⟨o, ho, -⟩
    cases ho
  refine Smp.Inv.change h hp hrun (.inl ?_) (by simp [he]) (by simp [he])
    (Smp.Inv.off_stack h (.inr he)) ?_ ?_ ?_ ?_ ?_ ?_ ?_
  · rw [hlock]
    exact .done
  · rcases hb with rfl | ⟨rfl, -⟩ <;> simp
  · rcases hb with rfl | ⟨-, hpark⟩
    · exact .inl rfl
    · exact .inr (.inr hpark)
  · exact fun np' ho => absurd ho hempty
  · exact fun _ p' ho => h.own.once p' p np ho hown
  · exact fun np' => hempty
  · intro o l' heq
    cases heq
  · intro c' p' o l' _ hs hcode' hq
    cases he.symm.trans (h.reaped c' p' np o l' hs hcode' hq)

/-- `fork` goes on with the next step for the same child. -/
theorem Machine.Inv.nextFork (h : m.Inv) (hp : m.stack c = some p)
    (hrun : states m.kernel p = .RUNNING) (hcode : m.code p = op :: l) {np : ProcId} {op' : Op}
    (hc : op.child = some np) (hready : m.code np = forkret) (hc' : op'.child = some np)
    (hlock : decide (m.lock = some c) = false) (hk : Wakes m.kernel k) (hf : op'.final false) :
    (m.next p k [op']).Inv := by
  have hown : Owns (m.code p) np := owns_of_head hcode hc
  have hinv : Smp.Inv m.lock m.stack m.cr3 m.sched m.intr (currents k) (states k)
      (Function.update m.code p [op']) := by
    rw [currents_eq hk]
    refine Smp.Inv.go h hp hrun (fun _ _ => Iff.rfl) hk.states (.inl ?_) ?_ ?_ ?_
    · rw [hlock]
      exact .final hf
    · rintro np' ⟨o, ho, hch⟩
      obtain rfl := List.mem_singleton.mp ho
      obtain rfl := Option.some.inj (hc'.symm.trans hch)
      exact hown
    · rintro np' ⟨o, ho, hch⟩
      obtain rfl := List.mem_singleton.mp ho
      refine .inr ?_
      obtain ⟨o, ho, hch'⟩ := Prepared.owns ⟨o, List.mem_singleton_self o, hch⟩
      obtain rfl := List.mem_singleton.mp ho
      obtain rfl := Option.some.inj (hc'.symm.trans hch')
      exact hready
    · rintro o l' q heq hq
      obtain rfl := (List.cons.inj heq).1
      cases op' <;> simp_all [Op.child, Op.reaped]
  exact hinv

theorem mem_append {s : List Op} (pre : List Op) (hpre : ∀ o ∈ pre, o.child = none)
    (hl : ∀ o ∈ l, o ∈ s ∨ o.child = none) : ∀ o ∈ pre ++ l, o ∈ s ∨ o.child = none := by
  intro o ho
  rcases List.mem_append.mp ho with ho | ho
  · exact .inr (hpre o ho)
  · exact hl o ho

/-! ## The operations of a process -/

theorem rest_mem (hcode : m.code p = op :: l) : ∀ o ∈ l, o ∈ m.code p ∨ o.child = none := by
  rw [hcode]
  exact fun _ ho => .inl (List.mem_cons_of_mem _ ho)

/-- An operation that does not care for the lock, after which the process goes on. -/
theorem Machine.Inv.goOn (h : m.Inv) (hp : m.stack c = some p) (hcode : m.code p = op :: l)
    (hn : op.neutral = true) (hk : Wakes m.kernel k) : (m.next p k l).Inv := by
  have hs : op ≠ .sched := by
    rintro rfl
    cases hn
  have hr : op.reaped = none := by
    cases op <;> first | rfl | cases hn
  obtain ⟨hrun, hc⟩ := h.code hp hcode hs hr
  exact h.next hp hrun hk (hc.same hn) (rest_mem hcode)

theorem Machine.Inv.exec_setState {st : ProcState} (h : m.Inv) (hp : m.stack c = some p)
    (hcode : m.code p = .setState st :: l)
    (he : exec m c p ok (.setState st) l = some m') : m'.Inv := by
  obtain ⟨hrun, hc⟩ := h.code hp hcode (by simp) rfl
  obtain rfl := Option.some.inj he
  obtain ⟨hlock, hd, l', rfl, hpark⟩ := hc.depart_inv
  have hinv := Smp.Inv.depart h hp hrun (of_decide_eq_true hlock) hd hpark
    (fun np ⟨o, ho, hch⟩ => ⟨o, by rw [hcode]; exact List.mem_cons_of_mem _ ho, hch⟩)
    (fun np ⟨o, ho, hch⟩ => ⟨o, by rw [hcode]; exact List.mem_cons_of_mem _ ho, hch⟩)
  rw [← setState_states] at hinv
  exact hinv

theorem Machine.Inv.exec_checkKilled {user : Bool} (h : m.Inv) (hp : m.stack c = some p)
    (hcode : m.code p = .checkKilled user :: l)
    (he : exec m c p ok (.checkKilled user) l = some m') : m'.Inv := by
  obtain ⟨hrun, hc⟩ := h.code hp hcode (by simp) rfl
  obtain rfl := Option.some.inj he
  obtain ⟨hlock, hl⟩ := hc.unlocked_inv rfl rfl
  split
  · exact h.next hp hrun (.refl _) (hlock ▸ code_exit) (by simp [exit, Op.child])
  · exact h.next hp hrun (.refl _) (hlock ▸ hl) (rest_mem hcode)

theorem Machine.Inv.exec_charge (h : m.Inv) (hp : m.stack c = some p) (hcode : m.code p = .charge :: l)
    (he : exec m c p ok .charge l = some m') : m'.Inv := by
  obtain ⟨hrun, hc⟩ := h.code hp hcode (by simp) rfl
  obtain ⟨hlock, hl⟩ := hc.unlocked_inv rfl rfl
  simp only [exec] at he
  rw [if_pos (show (m.kernel.proc p).state = .RUNNING from hrun)] at he
  obtain rfl := Option.some.inj he
  refine h.next hp hrun (wakes_account _ p) ?_ ?_
  · rw [hlock]
    exact .step rfl (.step rfl (.step rfl (code_yield hl)))
  · exact mem_append ([.acquire, .starvation, .release] ++ yield) (by simp [yield, Op.child])
      (rest_mem hcode)

theorem Machine.Inv.exec_starvation (h : m.Inv) (hp : m.stack c = some p)
    (hcode : m.code p = .starvation :: l)
    (he : exec m c p ok .starvation l = some m') : m'.Inv := by
  obtain ⟨hrun, hc⟩ := h.code hp hcode (by simp) rfl
  obtain ⟨hlock, hl⟩ := hc.locked_inv rfl rfl
  simp only [exec] at he
  split at he
  · obtain rfl := Option.some.inj he
    refine h.next hp hrun (.of_states (fun _ => rfl) rfl) ?_ ?_
    · rw [hlock]
      exact .step rfl (.step rfl hl)
    · exact mem_append [.acquireTicks, .now] (by simp [Op.child]) (rest_mem hcode)
  · obtain rfl := Option.some.inj he
    exact h.next hp hrun (.refl _) (hlock ▸ hl) (rest_mem hcode)

theorem Machine.Inv.exec_now (h : m.Inv) (hp : m.stack c = some p) (hcode : m.code p = .now :: l)
    (he : exec m c p ok .now l = some m') : m'.Inv := by
  obtain ⟨hrun, hc⟩ := h.code hp hcode (by simp) rfl
  obtain ⟨hlock, hl⟩ := hc.locked_inv rfl rfl
  obtain rfl := Option.some.inj he
  refine h.next hp hrun (.refl _) ?_ ?_
  · rw [hlock]
    exact .step rfl (.step rfl hl)
  · exact mem_append [.releaseTicks, .boostAll m.kernel.ticks] (by simp [Op.child]) (rest_mem hcode)

theorem Machine.Inv.exec_scanChildren (h : m.Inv) (hp : m.stack c = some p)
    (hcode : m.code p = .scanChildren :: l)
    (he : exec m c p ok .scanChildren l = some m') : m'.Inv := by
  obtain ⟨hrun, hc⟩ := h.code hp hcode (by simp) rfl
  obtain ⟨hlock, rfl⟩ := hc.final_inv (fun _ => rfl) (by simp)
  simp only [exec] at he
  split at he
  · next q hq =>
    obtain rfl := Option.some.inj he
    have hz := List.find?_some hq
    simp only [decide_eq_true_eq] at hz
    exact h.nextReap hp hrun (of_decide_eq_true hlock) rfl hz.2
  · split at he
    · obtain rfl := Option.some.inj he
      exact h.next hp hrun (.refl _) (hlock ▸ .step rfl .done) (by simp [Op.child])
    · obtain rfl := Option.some.inj he
      refine h.next hp hrun (.refl _) ?_ (by simp [sleep, goToSleep, Op.child])
      rw [hlock]
      exact .step rfl (.depart (.inr (.inl rfl)) trivial (.step rfl (.final rfl)))

theorem Machine.Inv.exec_clear {q : ProcId} (h : m.Inv) (hp : m.stack c = some p)
    (hcode : m.code p = .clear q :: l)
    (he : exec m c p ok (.clear q) l = some m') : m'.Inv := by
  obtain ⟨-, -, rfl, -⟩ := h.reaping hp hcode rfl
  obtain rfl := Option.some.inj he
  have hinv := h.endReap hp hcode
  rw [← setProc_states m.kernel q
    { m.kernel.proc q with state := .UNUSED, pid := 0, parent := none, killed := false }] at hinv
  exact hinv

theorem Machine.Inv.exec_allocproc {i : ℕ} (h : m.Inv) (hp : m.stack c = some p)
    (hcode : m.code p = .allocproc i :: l)
    (he : exec m c p ok (.allocproc i) l = some m') : m'.Inv := by
  obtain ⟨hrun, hc⟩ := h.code hp hcode (by simp) rfl
  obtain ⟨hlock, rfl⟩ := hc.final_inv (fun _ => rfl) (by simp)
  simp only [exec] at he
  split at he
  · next hi =>
    split at he
    · next hu =>
      obtain rfl := Option.some.inj he
      have hinv := h.embryo hp hrun (of_decide_eq_true hlock) hu
      rw [← setProc_states m.kernel ⟨i, hi⟩
        { m.kernel.proc ⟨i, hi⟩ with state := .EMBRYO, pid := m.kernel.nextpid }] at hinv
      exact hinv
    · obtain rfl := Option.some.inj he
      exact h.next hp hrun (.refl _) (hlock ▸ .final rfl) (by simp [Op.child])
  · obtain rfl := Option.some.inj he
    exact h.next hp hrun (.refl _) (hlock ▸ .step rfl .done) (by simp [Op.child])

theorem Machine.Inv.exec_kalloc {np : ProcId} (h : m.Inv) (hp : m.stack c = some p)
    (hcode : m.code p = .kalloc np :: l)
    (he : exec m c p ok (.kalloc np) l = some m') : m'.Inv := by
  obtain ⟨hrun, hc⟩ := h.code hp hcode (by simp) rfl
  obtain ⟨hlock, rfl⟩ := hc.final_inv (fun _ => rfl) (by simp)
  simp only [exec] at he
  split at he
  · obtain rfl := Option.some.inj he
    have hembryo := h.own.owned p np (owns_of_head hcode rfl)
    have hne : p ≠ np := by
      rintro rfl
      cases hrun.symm.trans hembryo
    have hprep : (m.setCode np forkret).Inv := Smp.Inv.prepare h hembryo
    have hcode' : (m.setCode np forkret).code p = [.kalloc np] :=
      (Function.update_of_ne hne _ _).trans hcode
    have hinv : ((m.setCode np forkret).next p m.kernel [.copyuvm np]).Inv :=
      hprep.nextFork hp hrun hcode' rfl (Function.update_self ..) rfl hlock (.refl _) rfl
    exact hinv
  · obtain rfl := Option.some.inj he
    have hinv := h.endFork hp hrun hcode rfl hlock (.inl rfl)
    rw [← setState_states] at hinv
    exact hinv

theorem Machine.Inv.exec_copyuvm {np : ProcId} (h : m.Inv) (hp : m.stack c = some p)
    (hcode : m.code p = .copyuvm np :: l)
    (he : exec m c p ok (.copyuvm np) l = some m') : m'.Inv := by
  obtain ⟨hrun, hc⟩ := h.code hp hcode (by simp) rfl
  obtain ⟨hlock, rfl⟩ := hc.final_inv (fun _ => rfl) (by simp)
  simp only [exec] at he
  split at he
  · obtain rfl := Option.some.inj he
    have hinv : (m.next p (m.kernel.setProc np { m.kernel.proc np with priority := 0 })
        [.insert np 0]).Inv :=
      h.nextFork hp hrun hcode rfl (h.ready_of_head hcode rfl) rfl hlock
        (wakes_setProc _ np _ rfl) rfl
    exact hinv
  · obtain rfl := Option.some.inj he
    have hinv := h.endFork hp hrun hcode rfl hlock (.inl rfl)
    rw [← setState_states] at hinv
    exact hinv

theorem Machine.Inv.exec_insert {np : ProcId} {i : ℕ} (h : m.Inv) (hp : m.stack c = some p)
    (hcode : m.code p = .insert np i :: l)
    (he : exec m c p ok (.insert np i) l = some m') : m'.Inv := by
  obtain ⟨hrun, hc⟩ := h.code hp hcode (by simp) rfl
  obtain ⟨hlock, rfl⟩ := hc.final_inv (fun _ => rfl) (by simp)
  have hready := h.ready_of_head hcode rfl
  simp only [exec] at he
  split at he
  · split at he
    · obtain rfl := Option.some.inj he
      exact h.nextFork hp hrun hcode rfl hready rfl hlock (.refl _) rfl
    · obtain rfl := Option.some.inj he
      exact h.nextFork hp hrun hcode rfl hready rfl hlock (.refl _) rfl
  · obtain rfl := Option.some.inj he
    exact h.nextFork hp hrun hcode rfl hready rfl hlock (.refl _) rfl

theorem Machine.Inv.exec_publish {np : ProcId} (h : m.Inv) (hp : m.stack c = some p)
    (hcode : m.code p = .publish np :: l)
    (he : exec m c p ok (.publish np) l = some m') : m'.Inv := by
  obtain ⟨hrun, hc⟩ := h.code hp hcode (by simp) rfl
  obtain ⟨hlock, rfl⟩ := hc.final_inv (fun _ => rfl) (by simp)
  obtain rfl := Option.some.inj he
  have hready := h.ready_of_head hcode rfl
  have hinv := h.endFork hp hrun hcode rfl hlock
    (.inr ⟨rfl, by rw [hready]; exact parked_forkret⟩)
  rw [← setState_states] at hinv
  exact hinv

theorem Machine.Inv.exec_sleepStart {n : ℕ} (h : m.Inv) (hp : m.stack c = some p)
    (hcode : m.code p = .sleepStart n :: l)
    (he : exec m c p ok (.sleepStart n) l = some m') : m'.Inv := by
  obtain ⟨hrun, hc⟩ := h.code hp hcode (by simp) rfl
  obtain ⟨hlock, hl⟩ := hc.unlocked_inv rfl rfl
  obtain rfl := Option.some.inj he
  refine h.next hp hrun (.refl _) ?_ ?_
  · rw [hlock]
    exact .step rfl hl
  · exact mem_append [.sleepWhile n m.kernel.ticks] (by simp [Op.child]) (rest_mem hcode)

theorem Machine.Inv.exec_sleepWhile {n : ℕ} {ticks0 : ℕ} (h : m.Inv) (hp : m.stack c = some p)
    (hcode : m.code p = .sleepWhile n ticks0 :: l)
    (he : exec m c p ok (.sleepWhile n ticks0) l = some m') : m'.Inv := by
  obtain ⟨hrun, hc⟩ := h.code hp hcode (by simp) rfl
  obtain ⟨hlock, hl⟩ := hc.unlocked_inv rfl rfl
  have hend : (m.next p m.kernel (.releaseTicks :: l)).Inv := by
    refine h.next hp hrun (.refl _) ?_ (mem_append [.releaseTicks] (by simp [Op.child]) (rest_mem hcode))
    rw [hlock]
    exact .step rfl hl
  simp only [exec] at he
  split at he
  · split at he
    · obtain rfl := Option.some.inj he
      exact hend
    · obtain rfl := Option.some.inj he
      refine h.next hp hrun (.refl _) ?_ ?_
      · rw [hlock]
        exact .step rfl (.step rfl (.step rfl (.depart (.inr (.inl rfl)) trivial
          (.step rfl (.step rfl (.step rfl (.step rfl hl)))))))
      · exact mem_append (sleep .ticks .tickslock ++ [.sleepWhile n ticks0])
          (by simp [sleep, goToSleep, Op.child]) (rest_mem hcode)
  · obtain rfl := Option.some.inj he
    exact hend

theorem exec_inv (h : m.Inv) (hp : m.stack c = some p) (hcode : m.code p = op :: l)
    (he : exec m c p ok op l = some m') : m'.Inv := by
  cases op with
  | sched =>
      obtain ⟨⟨-, -, hrun⟩, he⟩ := Option.ite_none_right_eq_some.mp he
      obtain rfl := Option.some.inj he
      exact Smp.Inv.leave h hp hcode hrun
  | setState st => exact h.exec_setState hp hcode he
  | setChan chan =>
      obtain rfl := Option.some.inj he
      exact h.goOn hp hcode rfl (wakes_setProc _ p _ rfl)
  | kill pid =>
      obtain rfl := Option.some.inj he
      exact h.goOn hp hcode rfl (wakes_kill _ pid)
  | checkKilled user => exact h.exec_checkKilled hp hcode he
  | charge => exact h.exec_charge hp hcode he
  | starvation => exact h.exec_starvation hp hcode he
  | now => exact h.exec_now hp hcode he
  | boostAll now =>
      obtain rfl := Option.some.inj he
      exact h.goOn hp hcode rfl (wakes_boostAll now _ _)
  | checkInit =>
      obtain ⟨-, he⟩ := Option.ite_none_left_eq_some.mp he
      obtain rfl := Option.some.inj he
      exact h.goOn hp hcode rfl (.refl _)
  | orphan =>
      obtain ⟨init, -, rfl⟩ := Option.map_eq_some_iff.mp he
      exact h.goOn hp hcode rfl (wakes_orphan _ p init)
  | zombieExit => cases he
  | scanChildren => exact h.exec_scanChildren hp hcode he
  | kfree q =>
      obtain ⟨hrun, hlock, rfl, hz⟩ := h.reaping hp hcode rfl
      obtain rfl := Option.some.inj he
      have hinv : (m.next p m.kernel [.freevm q]).Inv := h.nextReap hp hrun hlock rfl hz
      exact hinv
  | freevm q =>
      obtain ⟨hrun, hlock, rfl, hz⟩ := h.reaping hp hcode rfl
      obtain rfl := Option.some.inj he
      exact h.nextReap hp hrun hlock rfl hz
  | clear q => exact h.exec_clear hp hcode he
  | allocproc i => exact h.exec_allocproc hp hcode he
  | kalloc np => exact h.exec_kalloc hp hcode he
  | copyuvm np => exact h.exec_copyuvm hp hcode he
  | insert np i => exact h.exec_insert hp hcode he
  | store np i =>
      obtain ⟨hrun, hc⟩ := h.code hp hcode (by simp) rfl
      obtain ⟨hlock, rfl⟩ := hc.final_inv (fun _ => rfl) (by simp)
      obtain rfl := Option.some.inj he
      exact h.nextFork hp hrun hcode rfl (h.ready_of_head hcode rfl) rfl hlock
        (.of_states (fun _ => rfl) rfl) rfl
  | link np =>
      obtain ⟨hrun, hc⟩ := h.code hp hcode (by simp) rfl
      obtain ⟨hlock, rfl⟩ := hc.final_inv (fun _ => rfl) (by simp)
      obtain rfl := Option.some.inj he
      exact h.nextFork hp hrun hcode rfl (h.ready_of_head hcode rfl) rfl hlock
        (wakes_setProc _ np _ rfl) rfl
  | publish np => exact h.exec_publish hp hcode he
  | sleepStart n => exact h.exec_sleepStart hp hcode he
  | sleepWhile n ticks0 => exact h.exec_sleepWhile hp hcode he
  | _ =>
      obtain ⟨hrun, hc⟩ := h.code hp hcode (by simp) rfl
      exact execShared_inv h hp hrun hcode hc he

/-- `scheduler` on CPU `c` goes on at `pc` with the same `proc` and page directory. -/
theorem Machine.Inv.goSched (h : m.Inv) (lock' : Option ℕ) (hs : m.stack c = none)
    (hi : m.intr c = []) (hlock : ∀ c', c' ≠ c → (lock' = some c' ↔ m.lock = some c'))
    (hk : Wakes m.kernel k) {pc : SchedPc}
    (hok : SchedOk (states m.kernel) (currents m.kernel c) (m.cr3 c) pc)
    (hpc : pc = .loop ∧ lock' ≠ some c ∨ pc ≠ .loop ∧ lock' = some c) :
    Smp.Inv lock' m.stack m.cr3 (Function.update m.sched c pc) m.intr (currents k) (states k)
      m.code := by
  have hinv := Smp.Inv.goIdle h hs hlock hk.states pc (currents m.kernel c) (m.cr3 c)
    (l := []) (hok.mono fun d _ => hk.states.sameFor d.p) ?_ ?_ ?_ ?_
  · rw [Function.update_eq_self, Function.update_eq_self, ← hi, Function.update_eq_self] at hinv
    rw [currents_eq hk]
    exact hinv
  · intro hne
    exact ⟨rfl, (hpc.resolve_left fun hl => hne hl.1).2⟩
  · intro hl
    rw [decide_eq_false (hpc.resolve_right fun hr => hr.1 hl).2]
    exact .done
  · intro c' d d' hc hd hd' he
    exact hc (h.unique c' c d' d hd' hd he.symm)
  · exact fun d hd _ => hd

theorem schedStep_inv (h : m.Inv) (hs : m.stack c = none) (hi : m.intr c = [])
    (he : schedStep m c = some m') : m'.Inv := by
  have hidle := h.idle c hs
  have hheld : m.sched c ≠ .loop → m.lock = some c := fun hpc => (h.locked c hs hpc).2
  simp only [schedStep] at he
  split at he
  · next hpc =>
    rw [hpc] at hidle
    obtain ⟨hfree, he⟩ := Option.ite_none_right_eq_some.mp he
    obtain rfl := Option.some.inj he
    refine h.goSched (some c) hs hi (fun c' hc => ?_) (.refl _) hidle (.inr ⟨by simp, rfl⟩)
    simp [hfree, hc.symm]
  · next hpc =>
    rw [hpc] at hidle
    obtain rfl := Option.some.inj he
    exact h.goSched m.lock hs hi (fun _ _ => Iff.rfl) (.refl _) hidle
      (.inr ⟨by simp, hheld (by simp [hpc])⟩)
  · next q rest hpc =>
    rw [hpc] at hidle
    have hlock := hheld (by simp [hpc])
    have hscan : ∀ k, Wakes m.kernel k → ((m.setKernel k).setSched c (.scan rest)).Inv :=
      fun k hk => h.goSched m.lock hs hi (fun _ _ => Iff.rfl) hk hidle (.inr ⟨by simp, hlock⟩)
    split at he
    · obtain rfl := Option.some.inj he
      exact hscan _ (.refl _)
    · next p _ =>
      split at he
      · obtain rfl := Option.some.inj he
        exact hscan _ (.of_states (fun _ => rfl) rfl)
      · split at he
        · obtain rfl := Option.some.inj he
          exact hscan _ (.refl _)
        · next hrun =>
          obtain rfl := Option.some.inj he
          have hinv := Smp.Inv.pick h hs (d := ⟨q, p⟩) hpc (not_not.mp hrun)
          rw [← currents_update] at hinv
          exact hinv
  · next d hpc =>
    obtain rfl := Option.some.inj he
    have hinv := Smp.Inv.run h hs hpc
    rw [← setState_states] at hinv
    exact hinv
  · next d hpc =>
    rw [hpc] at hidle
    obtain ⟨-, he⟩ := Option.ite_none_right_eq_some.mp he
    obtain rfl := Option.some.inj he
    exact h.goSched m.lock hs hi (fun _ _ => Iff.rfl) (.refl _) hidle
      (.inr ⟨by simp, hheld (by simp [hpc])⟩)
  · next d hpc =>
    rw [hpc] at hidle
    obtain rfl := Option.some.inj he
    exact h.goSched m.lock hs hi (fun _ _ => Iff.rfl) (.refl _) hidle
      (.inr ⟨by simp, hheld (by simp [hpc])⟩)
  · next d xticks hpc =>
    rw [hpc] at hidle
    obtain ⟨-, he⟩ := Option.ite_none_right_eq_some.mp he
    obtain rfl := Option.some.inj he
    exact h.goSched m.lock hs hi (fun _ _ => Iff.rfl)
      (wakes_setProc m.kernel d.p { m.kernel.proc d.p with lastTick := xticks } rfl) hidle
      (.inr ⟨by simp, hheld (by simp [hpc])⟩)
  · next d hpc =>
    obtain rfl := Option.some.inj he
    exact Smp.Inv.swtch h hs hpc
  · next d hpc =>
    obtain rfl := Option.some.inj he
    exact Smp.Inv.switchkvm h hs hpc
  · next d hpc =>
    obtain rfl := Option.some.inj he
    have hinv := Smp.Inv.finish h hs hpc
    rw [← afterSwtch_currents m.kernel c d, ← afterSwtch_states m.kernel c d] at hinv
    exact hinv
  · next hpc =>
    rw [hpc] at hidle
    obtain ⟨hheld, he⟩ := Option.ite_none_right_eq_some.mp he
    obtain rfl := Option.some.inj he
    refine h.goSched none hs hi (fun c' hc => ?_) (.refl _) hidle (.inl ⟨rfl, by simp⟩)
    simp [hheld, hc.symm]

/-- An interrupt in `scheduler` on CPU `c` goes on with `l`. -/
theorem Machine.Inv.goIntr (h : m.Inv) (lock' : Option ℕ) (hs : m.stack c = none)
    (hloop : m.sched c = .loop) (hlock : ∀ c', c' ≠ c → (lock' = some c' ↔ m.lock = some c'))
    (hk : Wakes m.kernel k) (hl : Code (decide (lock' = some c)) l) :
    Smp.Inv lock' m.stack m.cr3 m.sched (Function.update m.intr c l) (currents k) (states k)
      m.code := by
  have hok := h.idle c hs
  rw [hloop] at hok
  have hinv := Smp.Inv.goIdle h hs hlock hk.states .loop (currents m.kernel c) (m.cr3 c)
    hok (fun hne => absurd rfl hne) (fun _ => hl) ?_ ?_
  · rw [Function.update_eq_self, Function.update_eq_self, ← hloop, Function.update_eq_self] at hinv
    rw [currents_eq hk]
    exact hinv
  · intro c' d d' _ hd
    cases hok.1.symm.trans hd
  · exact fun d hd _ => hd

theorem execIdle_inv (h : m.Inv) (hs : m.stack c = none) (hi : m.intr c = op :: l)
    (he : execIdle m c op l = some m') : m'.Inv := by
  have hloop : m.sched c = .loop := by
    by_contra hne
    cases hi.symm.trans (h.locked c hs hne).1
  have hc := h.unlocked c hs hloop
  rw [hi] at hc
  have hsame : op.neutral = true → ∀ k, Wakes m.kernel k → ((m.setKernel k).setIntr c l).Inv :=
    fun hn k hk => h.goIntr m.lock hs hloop (fun _ _ => Iff.rfl) hk (hc.same hn)
  cases op with
  | checkKilled user =>
      obtain rfl := Option.some.inj he
      exact hsame rfl m.kernel (.refl _)
  | charge =>
      obtain rfl := Option.some.inj he
      exact hsame rfl m.kernel (.refl _)
  | acquire =>
      obtain ⟨n, hn, rfl⟩ := Option.map_eq_some_iff.mp he
      obtain ⟨hfree, hn⟩ := Option.ite_none_right_eq_some.mp hn
      obtain rfl := Option.some.inj hn
      refine h.goIntr (some c) hs hloop (fun c' hne => ?_) (.refl _) (by simpa using hc.acquire_inv.2)
      simp [hfree, hne.symm]
  | release =>
      obtain ⟨n, hn, rfl⟩ := Option.map_eq_some_iff.mp he
      obtain ⟨hheld, hn⟩ := Option.ite_none_right_eq_some.mp hn
      obtain rfl := Option.some.inj hn
      refine h.goIntr none hs hloop (fun c' hne => ?_) (.refl _) (by simpa using hc.release_inv.2)
      simp [hheld, hne.symm]
  | acquireTicks =>
      obtain ⟨n, hn, rfl⟩ := Option.map_eq_some_iff.mp he
      obtain ⟨-, hn⟩ := Option.ite_none_right_eq_some.mp hn
      obtain rfl := Option.some.inj hn
      exact hsame rfl m.kernel (.refl _)
  | releaseTicks =>
      obtain ⟨n, hn, rfl⟩ := Option.map_eq_some_iff.mp he
      obtain ⟨-, hn⟩ := Option.ite_none_right_eq_some.mp hn
      obtain rfl := Option.some.inj hn
      exact hsame rfl m.kernel (.refl _)
  | tick =>
      obtain rfl := Option.some.inj he
      exact hsame rfl _ (.of_states (fun _ => rfl) rfl)
  | wakeup1 chan =>
      obtain rfl := Option.some.inj he
      exact hsame rfl _ (wakes_wakeup1 _ chan)
  | _ => cases he

/-- Without the lock a process runs code that is well formed for that. -/
theorem Machine.Inv.code_unlocked (h : m.Inv) (hp : m.stack c = some p) (hlock : m.lock ≠ some c) :
    states m.kernel p = .RUNNING ∧ Code false (m.code p) := by
  have hok := h.proc c p hp
  rw [decide_eq_false hlock] at hok
  rcases hok with ⟨hrun, hc | ⟨hb, -⟩⟩ | ⟨-, -, hb, -⟩
  · exact ⟨hrun, hc⟩
  · cases hb
  · cases hb

theorem step_inv {a : Label} (h : m.Inv) (hs : step m a = some m') : m'.Inv := by
  cases a with
  | go c ok =>
      simp only [step] at hs
      split at hs
      · next p hp =>
        split at hs
        · cases hs
        · next op l hcode => exact exec_inv h hp hcode hs
      · next hp =>
        split at hs
        · next hi => exact schedStep_inv h hp hi hs
        · next op l hi => exact execIdle_inv h hp hi hs
  | interrupt c i =>
      simp only [step] at hs
      split at hs
      · cases hs
      · next hlocks =>
        have hlock : m.lock ≠ some c := fun hl => hlocks (.inl hl)
        split at hs
        · next p hp =>
          obtain rfl := Option.some.inj hs
          obtain ⟨hrun, hc⟩ := h.code_unlocked hp hlock
          refine h.next hp hrun (.refl _) ?_ (mem_append _ ?_ fun o ho => .inl ho)
          · rw [decide_eq_false hlock]
            exact code_interrupt c _ i hc
          · exact interrupt_child c _ i
        · next hp =>
          obtain rfl := Option.some.inj hs
          have hloop : m.sched c = .loop := by
            by_contra hne
            exact hlock (h.locked c hp hne).2
          have hc := h.unlocked c hp hloop
          rw [decide_eq_false hlock] at hc
          refine h.goIntr m.lock hp hloop (fun _ _ => Iff.rfl) (.refl _) ?_
          rw [decide_eq_false hlock]
          exact code_interrupt c false i hc
  | call c s =>
      simp only [step] at hs
      split at hs
      · next p hp =>
        obtain ⟨hnil, hs⟩ := Option.ite_none_right_eq_some.mp hs
        obtain rfl := Option.some.inj hs
        obtain ⟨hrun, hl⟩ := Smp.Inv.runs h hp (by simp [hnil])
        have hlock : decide (m.lock = some c) = false := by
          rw [hnil] at hl
          rcases hl with hl | ⟨-, op, q, -, hl⟩
          · generalize decide (m.lock = some c) = b at hl
            cases hl
            rfl
          · cases hl
        refine h.next hp hrun (.refl _) ?_ fun o ho => .inr (call_child s o ho)
        rw [hlock]
        exact code_call s
      · cases hs

theorem userinit_states (p : ProcId) :
    (userinit.proc p).state = .UNUSED ∨ (userinit.proc p).state = .RUNNABLE := by
  decide +revert +kernel

theorem boot_inv (qs : Queues) : (boot qs).Inv := by
  have hcode : ∀ p o, o ∈ (boot qs).code p → o = .release := by
    intro p o ho
    simp only [boot] at ho
    split at ho
    · exact List.mem_singleton.mp ho
    · cases ho
  have howns : ∀ p np, ¬ Owns ((boot qs).code p) np := by
    rintro p np ⟨o, ho, hc⟩
    obtain rfl := hcode p o ho
    cases hc
  refine ⟨?_, ?_, ?_, ?_, ?_, ?_, ?_, ?_, ⟨?_, ?_, ?_⟩, ?_⟩
  · exact fun c _ => ⟨rfl, rfl⟩
  · exact fun c _ hne => absurd rfl hne
  · exact fun c _ _ => .done
  · intro c p hs
    cases hs
  · intro c p hs
    cases hs
  · intro c c' d d' hd
    cases hd
  · intro p hp
    rcases userinit_states p with hu | hu <;> cases hu.symm.trans hp
  · intro p _ hu _
    have hrun : (userinit.proc p).state = .RUNNABLE := (userinit_states p).resolve_left hu
    have hfork : (boot qs).code p = forkret := if_pos hrun
    rw [hfork]
    exact parked_forkret
  · exact fun p np ho => absurd ho (howns p np)
  · exact fun p p' np ho => absurd ho (howns p np)
  · exact fun p np hp => absurd hp.owns (howns p np)
  · intro c p q op l hs
    cases hs

/-- A RUNNING process is the current process of exactly one CPU, and `wait` frees the kernel stack
and the page directory of a process no CPU executes on. -/
theorem dispatch_safe (qs : Queues) (m : Machine)
    (h : Run step (fun _ _ => True) (boot qs) m) :
    (∀ p, (m.kernel.proc p).state = .RUNNING → ∃! c, m.proc c = some p) ∧
      ∀ c q, m.Frees c q → ∀ c', ¬ m.Executes c' q := by
  have hinv : m.Inv := h.invariant (boot_inv qs) fun _ _ _ hi _ hs => step_inv hi hs
  have hproc : ∀ {c p}, m.proc c = some p ↔ ∃ d, currents m.kernel c = some d ∧ d.p = p := by
    intro c p
    exact Option.map_eq_some_iff
  refine ⟨fun p hp => ?_, ?_⟩
  · obtain ⟨c, d, hd, hdp⟩ := hinv.running p hp
    refine ⟨c, hproc.mpr ⟨d, hd, hdp⟩, fun c' hc' => ?_⟩
    obtain ⟨d', hd', hdp'⟩ := hproc.mp hc'
    exact hinv.unique c' c d' d hd' hd (hdp'.trans hdp.symm)
  · rintro c q ⟨p, hp, l, hcode⟩ c'
    have hreap : states m.kernel p = .RUNNING ∧ m.lock = some c ∧ states m.kernel q = .ZOMBIE := by
      rcases hcode with hcode | hcode
      · obtain ⟨hrun, hlock, -, hz⟩ := hinv.reaping hp hcode rfl
        exact ⟨hrun, hlock, hz⟩
      · obtain ⟨hrun, hlock, -, hz⟩ := hinv.reaping hp hcode rfl
        exact ⟨hrun, hlock, hz⟩
    exact hinv.not_executes hp hreap.1 hreap.2.1 hreap.2.2 c'

end

/-- On CPU 0 init forks a child and waits; the child exits and init is about to reap it. -/
def reapingRun : List Label :=
  let go (n : ℕ) : List Label := List.replicate n (.go 0 true)
  go 8 ++ .call 0 .fork :: go 11 ++ .call 0 .wait :: go 17 ++ .call 0 .exit :: go 17

theorem reapingRun_safe : ∃ m, play step reapingRun (boot userinit.queues) = some m ∧
    (∃! c, m.proc c = some 0) ∧ m.Frees 0 1 ∧ ∀ c, ¬ m.Executes c 1 := by
  have hend : ((play step reapingRun (boot userinit.queues)).map fun m =>
      ((m.kernel.proc 0).state, m.stack 0, m.code 0)) = some (.RUNNING, some 0, [.kfree 1]) := by
    decide +kernel
  obtain ⟨m, hm, he⟩ := Option.map_eq_some_iff.mp hend
  obtain ⟨hrun, hstack, hcode⟩ : _ ∧ _ ∧ _ := by simpa only [Prod.mk.injEq] using he
  have hfrees : m.Frees 0 1 := ⟨0, hstack, [], .inl hcode⟩
  obtain ⟨honce, hsafe⟩ := dispatch_safe userinit.queues m (.of_play hm)
  exact ⟨m, hm, honce 0 hrun, hfrees, hsafe 0 1 hfrees⟩

end IntroToOS.Mlfq.Smp

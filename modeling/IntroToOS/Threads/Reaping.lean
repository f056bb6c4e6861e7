import IntroToOS.Threads.SameTable

/-! # Who reaps whom

Beside the kernel a run keeps, for every slot in use, who made the process in it and how (`origin`),
and the list of all slots that have been given back (`history`). `join` looks for threads only, but
`wait` takes whatever child it finds first. As long as it finds no zombie thread, and `init` joins
no thread that it has been passed, threads are reaped by a join of their creator and forked children
by a wait, and `is_thread` says which is which.
-/

namespace IntroToOS.Threads
open Lib
set_option autoImplicit false

/-- How a process came into the table: its creator, and the stack that was given to `clone`. -/
structure Origin where
  creator : ℕ
  stack : Option ℕ
  deriving DecidableEq

def Call.caller : Call → ProcId
  | .schedule p | .yield p | .fork p .. | .clone p .. | .exec p .. | .exit p | .wait p | .join p
  | .kill p _ | .sbrk p .. | .open p .. | .close p _ | .dup p _ | .fstat p _ | .chdir p .. => p

/-- What a call makes of a slot that it takes. -/
def Call.makes (s : Kernel) : Call → Option Origin
  | .fork p _ _ => some ⟨(s.proc p).pid, none⟩
  | .clone p _ stack => some ⟨(s.proc p).pid, some stack⟩
  | _ => none

/-- A slot is given back: the call in which it is, the pid of the caller, the pid of the process that
was in the slot and where that came from, and what the call returns. -/
structure Reap where
  call : Call
  caller : ℕ
  pid : ℕ
  origin : Option Origin
  reply : Reply

structure Traced where
  kernel : Kernel
  origin : ProcId → Option Origin := fun _ => none
  history : List Reap := []

/-- The slots that are in use before a call and not after it. -/
def givenBack (s t : Kernel) : List ProcId :=
  (List.finRange NPROC).filter fun q => (s.proc q).state ≠ .UNUSED ∧ (t.proc q).state = .UNUSED

/-- The call `a` has returned `r` and left the kernel as `t`. -/
def trace (s : Traced) (a : Call) (t : Kernel) (r : Reply) : Traced where
  kernel := t
  origin q :=
    if (t.proc q).state = .UNUSED then none
    else if (s.kernel.proc q).state = .UNUSED then a.makes s.kernel
    else s.origin q
  history := s.history ++ (givenBack s.kernel t).map fun q =>
    ⟨a, (s.kernel.proc a.caller).pid, (s.kernel.proc q).pid, s.origin q, r⟩

def tracedStep (s : Traced) (a : Call) : Option Traced :=
  if enabled s.kernel a then
    match call s.kernel a with
    | .error _ => none
    | .ok (t, r) => some (trace s a t r)
  else none

/-- A step with its trace is a step. -/
theorem tracedStep_step (s : Traced) (a : Call) :
    (tracedStep s a).map Traced.kernel = step s.kernel a := by
  unfold tracedStep step
  split
  · rcases call s.kernel a with e | ⟨t, r⟩ <;> rfl
  · rfl

theorem tracedStep_eq_some {s t : Traced} {a : Call} (h : tracedStep s a = some t) :
    enabled s.kernel a = true ∧ ∃ u r, call s.kernel a = .ok (u, r) ∧ t = trace s a u r := by
  unfold tracedStep at h
  split at h
  · next hen =>
    split at h
    · cases h
    · next u r hc => exact ⟨hen, u, r, hc, (Option.some.inj h).symm⟩
  · cases h

/-! ## What is claimed of a run -/

/-- A forked child is reaped by a wait, a thread by a join of its creator, which returns its pid and
the stack that was given to `clone`; nothing else is ever reaped. -/
def Reap.Right (e : Reap) : Prop :=
  match e.call with
  | .wait _ => (∃ creator, e.origin = some ⟨creator, none⟩) ∧ e.reply = { ret := some e.pid }
  | .join _ => ∃ stack, e.origin = some ⟨e.caller, some stack⟩ ∧
      e.reply = { ret := some e.pid, stack := some stack }
  | _ => False

structure ReapedRight (s : Traced) : Prop where
  right : ∀ e ∈ s.history, e.Right
  once : (s.history.map Reap.pid).Nodup
  is_thread : ∀ q, (s.kernel.proc q).is_thread = true ↔
    (s.kernel.proc q).state ≠ .UNUSED ∧ ∃ creator stack, s.origin q = some ⟨creator, some stack⟩

/-- `wait` finds no zombie thread, and `init` joins only threads that it has made itself. -/
def ReapsOwn (s : Traced) : Call → Prop
  | .wait p => ∀ q ∈ zombieChild s.kernel p, (s.kernel.proc q).is_thread = false
  | .join p => s.kernel.initproc = some p → ∀ q ∈ zombieThread s.kernel p,
      ∃ o ∈ s.origin q, o.creator = (s.kernel.proc p).pid
  | _ => True

instance ReapsOwn.decidable (s : Traced) : ∀ a, Decidable (ReapsOwn s a)
  | .wait p => inferInstanceAs (Decidable (∀ q ∈ zombieChild s.kernel p, _))
  | .join p => inferInstanceAs (Decidable (_ → ∀ q ∈ zombieThread s.kernel p, ∃ o ∈ s.origin q, _))
  | .schedule _ | .yield _ | .fork .. | .clone .. | .exec .. | .exit _ | .kill .. | .sbrk ..
  | .open .. | .close .. | .dup .. | .fstat .. | .chdir .. => isTrue trivial

/-! ## The invariant -/

structure TraceInv (s : Traced) : Prop where
  init : ∃ i, s.kernel.initproc = some i ∧ (s.kernel.proc i).state ≠ .UNUSED ∧
    (s.kernel.proc i).state ≠ .ZOMBIE
  unused : ∀ q, (s.kernel.proc q).state = .UNUSED → s.origin q = none
  flag : ∀ q, (s.kernel.proc q).is_thread = true ↔ ∃ creator stack,
    s.origin q = some ⟨creator, some stack⟩
  stack : ∀ q creator stack, s.origin q = some ⟨creator, some stack⟩ →
    (s.kernel.proc q).stack = stack
  made : ∀ q p, (s.kernel.proc q).state ≠ .UNUSED → (s.kernel.proc q).parent = some p →
    ∃ o, s.origin q = some o ∧ ((s.kernel.proc p).pid = o.creator ∨ s.kernel.initproc = some p)
  live : ∀ q p, (s.kernel.proc q).state ≠ .UNUSED → (s.kernel.proc q).parent = some p →
    (s.kernel.proc p).state ≠ .UNUSED ∧ (s.kernel.proc p).state ≠ .ZOMBIE
  lt : ∀ q, (s.kernel.proc q).state ≠ .UNUSED → (s.kernel.proc q).pid < s.kernel.nextpid
  distinct : ∀ q r, (s.kernel.proc q).state ≠ .UNUSED → (s.kernel.proc r).state ≠ .UNUSED →
    (s.kernel.proc q).pid = (s.kernel.proc r).pid → q = r
  past : ∀ e ∈ s.history, e.pid < s.kernel.nextpid ∧
    ∀ q, (s.kernel.proc q).state ≠ .UNUSED → (s.kernel.proc q).pid ≠ e.pid
  right : ∀ e ∈ s.history, e.Right
  once : (s.history.map Reap.pid).Nodup

theorem TraceInv.reapedRight {s : Traced} (h : TraceInv s) : ReapedRight s where
  right := h.right
  once := h.once
  is_thread := by
    intro q
    rw [h.flag q]
    constructor
    · rintro ⟨creator, stack, ho⟩
      refine ⟨fun hu => ?_, creator, stack, ho⟩
      rw [h.unused q hu] at ho
      cases ho
    · exact And.right

section
variable {s : Traced} {t : Kernel} {a : Call} {r : Reply} {p q np init : ProcId}

/-! ## Steps that reap nothing -/

theorem givenBack_nil {s t : Kernel}
    (h : ∀ q, (t.proc q).state = .UNUSED → (s.proc q).state = .UNUSED) : givenBack s t = [] := by
  rw [givenBack, List.filter_eq_nil_iff]
  intro q _ hq
  obtain ⟨h1, h2⟩ := of_decide_eq_true hq
  exact h1 (h q h2)

theorem trace_same (h : TraceInv s) (ht : SameTable s.kernel t) :
    trace s a t r = { s with kernel := t } := by
  have hnil : givenBack s.kernel t = [] := givenBack_nil fun q => (ht.unused q).mp
  have horigin : (fun q => if (t.proc q).state = .UNUSED then none
      else if (s.kernel.proc q).state = .UNUSED then a.makes s.kernel else s.origin q) =
      s.origin := by
    funext q
    by_cases hq : (t.proc q).state = .UNUSED
    · rw [if_pos hq, h.unused q ((ht.unused q).mp hq)]
    · rw [if_neg hq, if_neg fun hu => hq ((ht.unused q).mpr hu)]
  rw [trace, hnil, horigin, List.map_nil, List.append_nil]

theorem TraceInv.same (h : TraceInv s) (ht : SameTable s.kernel t) : TraceInv (trace s a t r) := by
  rw [trace_same h ht]
  have hused : ∀ q, (t.proc q).state ≠ .UNUSED → (s.kernel.proc q).state ≠ .UNUSED := fun q hq hu =>
    hq ((ht.unused q).mpr hu)
  have hlive : ∀ p, (s.kernel.proc p).state ≠ .UNUSED ∧ (s.kernel.proc p).state ≠ .ZOMBIE →
      (t.proc p).state ≠ .UNUSED ∧ (t.proc p).state ≠ .ZOMBIE := fun p hp =>
    ⟨fun hu => hp.1 ((ht.unused p).mp hu), fun hz => hp.2 ((ht.zombie p).mp hz)⟩
  constructor
  · obtain ⟨i, hi, hstate⟩ := h.init
    exact ⟨i, ht.initproc.trans hi, hlive i hstate⟩
  · intro q hq
    exact h.unused q ((ht.unused q).mp hq)
  · intro q
    rw [← h.flag q, ht.is_thread]
  · intro q creator stack ho
    have hq : (s.kernel.proc q).state ≠ .UNUSED := by
      intro hu
      rw [h.unused q hu] at ho
      cases ho
    rw [(ht.kept q hq).2.2]
    exact h.stack q creator stack ho
  · intro q p hq hp
    obtain ⟨-, hparent, -⟩ := ht.kept q (hused q hq)
    rw [hparent] at hp
    obtain ⟨o, ho, hcreator⟩ := h.made q p (hused q hq) hp
    refine ⟨o, ho, hcreator.imp (fun hc => ?_) fun hi => ht.initproc.trans hi⟩
    rw [(ht.kept p (h.live q p (hused q hq) hp).1).1]
    exact hc
  · intro q p hq hp
    obtain ⟨-, hparent, -⟩ := ht.kept q (hused q hq)
    rw [hparent] at hp
    exact hlive p (h.live q p (hused q hq) hp)
  · intro q hq
    rw [(ht.kept q (hused q hq)).1]
    exact Nat.lt_of_lt_of_le (h.lt q (hused q hq)) ht.nextpid
  · intro q r hq hr he
    rw [(ht.kept q (hused q hq)).1, (ht.kept r (hused r hr)).1] at he
    exact h.distinct q r (hused q hq) (hused r hr) he
  · intro e he
    obtain ⟨hlt, hne⟩ := h.past e he
    refine ⟨Nat.lt_of_lt_of_le hlt ht.nextpid, fun q hq => ?_⟩
    rw [(ht.kept q (hused q hq)).1]
    exact hne q (hused q hq)
  · exact h.right
  · exact h.once

/-! ## A new process -/

theorem trace_makes {stack : Option ℕ} (h : TraceInv s) (hm : Makes s.kernel p np stack t)
    (ha : a.makes s.kernel = some ⟨(s.kernel.proc p).pid, stack⟩) :
    trace s a t r = { s with
      kernel := t, origin := Function.update s.origin np (some ⟨(s.kernel.proc p).pid, stack⟩) } := by
  have hnil : givenBack s.kernel t = [] := by
    refine givenBack_nil fun q hq => ?_
    by_cases hqn : q = np
    · subst hqn
      rw [hm.state] at hq
      cases hq
    · rwa [hm.others q hqn] at hq
  have horigin : (fun q => if (t.proc q).state = .UNUSED then none
      else if (s.kernel.proc q).state = .UNUSED then a.makes s.kernel else s.origin q) =
      Function.update s.origin np (some ⟨(s.kernel.proc p).pid, stack⟩) := by
    funext q
    by_cases hqn : q = np
    · subst hqn
      have hnot : ¬ (t.proc q).state = .UNUSED := by
        rw [hm.state]
        decide
      rw [if_neg hnot, if_pos hm.free, ha, Function.update_self]
    · rw [Function.update_of_ne hqn, hm.others q hqn]
      by_cases hq : (s.kernel.proc q).state = .UNUSED
      · rw [if_pos hq, h.unused q hq]
      · rw [if_neg hq, if_neg hq]
  rw [trace, hnil, horigin, List.map_nil, List.append_nil]

theorem TraceInv.makes {stack : Option ℕ} (h : TraceInv s) (hm : Makes s.kernel p np stack t)
    (hp : (s.kernel.proc p).state = .RUNNING)
    (ha : a.makes s.kernel = some ⟨(s.kernel.proc p).pid, stack⟩) : TraceInv (trace s a t r) := by
  have hu := trace_makes (r := r) h hm ha
  generalize trace s a t r = u at hu
  have hkernel : u.kernel = t := by rw [hu]
  have hhistory : u.history = s.history := by rw [hu]
  have hself : u.origin np = some ⟨(s.kernel.proc p).pid, stack⟩ := by
    rw [hu]
    exact Function.update_self ..
  have horigin : ∀ q, q ≠ np → u.origin q = s.origin q := by
    intro q hq
    rw [hu]
    exact Function.update_of_ne hq ..
  have hne : p ≠ np := by
    rintro rfl
    rw [hm.free] at hp
    cases hp
  have hother := hm.others
  have hinuse : ∀ q, q ≠ np → (t.proc q).state ≠ .UNUSED → (s.kernel.proc q).state ≠ .UNUSED := by
    intro q hq hu
    rwa [hother q hq] at hu
  -- a slot that is in use before is not the new one
  have hold : ∀ q, (s.kernel.proc q).state ≠ .UNUSED → q ≠ np := by
    rintro q hq rfl
    exact hq hm.free
  constructor <;> simp only [hkernel, hhistory]
  · obtain ⟨i, hi, hstate⟩ := h.init
    exact ⟨i, hm.initproc.trans hi, by rwa [hother i (hold i hstate.1)]⟩
  · intro q hq
    by_cases hqn : q = np
    · subst hqn
      rw [hm.state] at hq
      cases hq
    · rw [hother q hqn] at hq
      rw [horigin q hqn]
      exact h.unused q hq
  · intro q
    by_cases hqn : q = np
    · subst hqn
      have hflag : (s.kernel.proc q).is_thread = false := by
        by_contra hf
        obtain ⟨creator, st, ho⟩ := (h.flag q).mp (by simpa using hf)
        rw [h.unused q hm.free] at ho
        cases ho
      rw [hm.is_thread, hflag, Bool.or_false, hself]
      cases stack <;> simp
    · rw [hother q hqn, horigin q hqn]
      exact h.flag q
  · intro q creator st ho
    by_cases hqn : q = np
    · subst hqn
      rw [hself] at ho
      obtain ⟨-, hst⟩ := Origin.mk.inj (Option.some.inj ho)
      exact hm.stack st hst
    · rw [horigin q hqn] at ho
      rw [hother q hqn]
      exact h.stack q creator st ho
  · intro q p' hq hp'
    by_cases hqn : q = np
    · subst hqn
      rw [hm.parent] at hp'
      obtain rfl := Option.some.inj hp'
      refine ⟨_, hself, .inl ?_⟩
      rw [hother p hne]
    · have hq' := hinuse q hqn hq
      rw [hother q hqn] at hp'
      obtain ⟨o, ho, hc⟩ := h.made q p' hq' hp'
      refine ⟨o, (horigin q hqn).trans ho, hc.imp (fun hc => ?_) fun hi => ?_⟩
      · rwa [hother p' (hold p' (h.live q p' hq' hp').1)]
      · exact hm.initproc.trans hi
  · intro q p' hq hp'
    by_cases hqn : q = np
    · subst hqn
      rw [hm.parent] at hp'
      obtain rfl := Option.some.inj hp'
      rw [hother p hne, hp]
      exact ⟨by decide, by decide⟩
    · have hq' := hinuse q hqn hq
      rw [hother q hqn] at hp'
      have hl := h.live q p' hq' hp'
      rwa [hother p' (hold p' hl.1)]
  · intro q hq
    rw [hm.nextpid]
    by_cases hqn : q = np
    · subst hqn
      rw [hm.pid]
      exact Nat.lt_succ_self _
    · rw [hother q hqn]
      exact Nat.lt_succ_of_lt (h.lt q (hinuse q hqn hq))
  · intro q q' hq hq' he
    by_cases hqn : q = np <;> by_cases hqn' : q' = np
    · rw [hqn, hqn']
    · subst hqn
      have := h.lt q' (hinuse q' hqn' hq')
      rw [hm.pid, hother q' hqn'] at he
      omega
    · subst hqn'
      have := h.lt q (hinuse q hqn hq)
      rw [hm.pid, hother q hqn] at he
      omega
    · rw [hother q hqn, hother q' hqn'] at he
      exact h.distinct q q' (hinuse q hqn hq) (hinuse q' hqn' hq') he
  · intro e he
    obtain ⟨hlt, hpast⟩ := h.past e he
    refine ⟨by rw [hm.nextpid]; exact Nat.lt_succ_of_lt hlt, fun q hq => ?_⟩
    by_cases hqn : q = np
    · subst hqn
      rw [hm.pid]
      exact Nat.ne_of_gt hlt
    · rw [hother q hqn]
      exact hpast q (hinuse q hqn hq)
  · exact h.right
  · exact h.once

/-! ## A process leaves -/

theorem trace_leaves (h : TraceInv s) (hl : Leaves s.kernel p init t) :
    trace s a t r = { s with kernel := t } := by
  have hnil : givenBack s.kernel t = [] := givenBack_nil fun q => (hl.unused q).mp
  have horigin : (fun q => if (t.proc q).state = .UNUSED then none
      else if (s.kernel.proc q).state = .UNUSED then a.makes s.kernel else s.origin q) =
      s.origin := by
    funext q
    by_cases hq : (t.proc q).state = .UNUSED
    · rw [if_pos hq, h.unused q ((hl.unused q).mp hq)]
    · rw [if_neg hq, if_neg fun hu => hq ((hl.unused q).mpr hu)]
  rw [trace, hnil, horigin, List.map_nil, List.append_nil]

theorem TraceInv.leaves (h : TraceInv s) (hl : Leaves s.kernel p init t) :
    TraceInv (trace s a t r) := by
  have hu := trace_leaves (a := a) (r := r) h hl
  generalize trace s a t r = u at hu
  have hkernel : u.kernel = t := by rw [hu]
  have horigin : u.origin = s.origin := by rw [hu]
  have hhistory : u.history = s.history := by rw [hu]
  have hused : ∀ q, (t.proc q).state ≠ .UNUSED → (s.kernel.proc q).state ≠ .UNUSED := fun q hq hu =>
    hq ((hl.unused q).mpr hu)
  have hlive : ∀ p', p' ≠ p → (s.kernel.proc p').state ≠ .UNUSED ∧
      (s.kernel.proc p').state ≠ .ZOMBIE → (t.proc p').state ≠ .UNUSED ∧
        (t.proc p').state ≠ .ZOMBIE := by
    intro p' hne hp'
    refine ⟨fun hu => hp'.1 ((hl.unused p').mp hu), fun hz => ?_⟩
    exact ((hl.zombie p').mp hz).elim hne hp'.2
  have hinit : (t.proc init).state ≠ .UNUSED ∧ (t.proc init).state ≠ .ZOMBIE := by
    obtain ⟨i, hi, hstate⟩ := h.init
    obtain rfl : init = i := Option.some.inj (hl.initproc.symm.trans hi)
    exact hlive init hl.notInit.symm hstate
  -- the parent of a process is `init` or the one it was, which is not `p`
  have hparent : ∀ q p', (t.proc q).parent = some p' →
      p' = init ∧ (s.kernel.proc q).parent = some p ∨
        p' ≠ p ∧ (s.kernel.proc q).parent = some p' := by
    intro q p' hp'
    rw [hl.parent] at hp'
    split at hp'
    · next hq => exact .inl ⟨(Option.some.inj hp').symm, hq⟩
    · next hq =>
      refine .inr ⟨?_, hp'⟩
      rintro rfl
      exact hq hp'
  constructor <;> simp only [hkernel, horigin, hhistory]
  · exact ⟨init, hl.initproc', hinit⟩
  · intro q hq
    exact h.unused q ((hl.unused q).mp hq)
  · intro q
    rw [(hl.kept q).1]
    exact h.flag q
  · intro q creator st ho
    rw [(hl.kept q).2.2]
    exact h.stack q creator st ho
  · intro q p' hq hp'
    rcases hparent q p' hp' with ⟨rfl, hq'⟩ | ⟨-, hq'⟩
    · obtain ⟨o, ho, -⟩ := h.made q p (hused q hq) hq'
      exact ⟨o, ho, .inr hl.initproc'⟩
    · obtain ⟨o, ho, hc⟩ := h.made q p' (hused q hq) hq'
      rw [(hl.kept p').2.1]
      exact ⟨o, ho, hc.imp_right fun hi => hl.initproc'.trans (hl.initproc.symm.trans hi)⟩
  · intro q p' hq hp'
    rcases hparent q p' hp' with ⟨rfl, -⟩ | ⟨hne, hq'⟩
    · exact hinit
    · exact hlive p' hne (h.live q p' (hused q hq) hq')
  · intro q hq
    rw [(hl.kept q).2.1, hl.nextpid]
    exact h.lt q (hused q hq)
  · intro q q' hq hq' he
    rw [(hl.kept q).2.1, (hl.kept q').2.1] at he
    exact h.distinct q q' (hused q hq) (hused q' hq') he
  · intro e he
    obtain ⟨hlt, hpast⟩ := h.past e he
    refine ⟨by rwa [hl.nextpid], fun q hq => ?_⟩
    rw [(hl.kept q).2.1]
    exact hpast q (hused q hq)
  · exact h.right
  · exact h.once

/-! ## A slot is given back -/

/-- The zombie in slot `q` is reaped. -/
structure Frees (s : Kernel) (q : ProcId) (s' : Kernel) : Prop where
  initproc : s'.initproc = s.initproc
  nextpid : s'.nextpid = s.nextpid
  zombie : (s.proc q).state = .ZOMBIE
  unused : (s'.proc q).state = .UNUSED
  is_thread : (s'.proc q).is_thread = false
  others : ∀ q', q' ≠ q → SameEntry (s.proc q') (s'.proc q')

theorem Frees.used {q' : ProcId} (hf : Frees s.kernel q t) (hq : (t.proc q').state ≠ .UNUSED) :
    q' ≠ q ∧ (s.kernel.proc q').state ≠ .UNUSED := by
  have hne : q' ≠ q := by
    rintro rfl
    exact hq hf.unused
  exact ⟨hne, fun hu => hq ((hf.others q' hne).unused.mpr hu)⟩

theorem filter_unique {α : Type} [DecidableEq α] {P : α → Bool} {l : List α} {q : α}
    (hl : l.Nodup) (hq : q ∈ l) (h : ∀ x, P x = decide (x = q)) : l.filter P = [q] := by
  obtain rfl : P = fun x => decide (x = q) := funext h
  rw [List.filter_eq, List.count_eq_one_of_mem hl hq, List.replicate_one]

theorem givenBack_frees {s t : Kernel} (hf : Frees s q t) : givenBack s t = [q] := by
  refine filter_unique (List.nodup_finRange NPROC) (List.mem_finRange q) fun x => ?_
  refine decide_eq_decide.mpr ⟨fun ⟨h1, h2⟩ => ?_, ?_⟩
  · by_contra hne
    exact h1 ((hf.others x hne).unused.mp h2)
  · rintro rfl
    rw [hf.zombie]
    exact ⟨by decide, hf.unused⟩

theorem trace_frees (h : TraceInv s) (hf : Frees s.kernel q t) :
    trace s a t r = {
      kernel := t
      origin := Function.update s.origin q none
      history := s.history ++
        [⟨a, (s.kernel.proc a.caller).pid, (s.kernel.proc q).pid, s.origin q, r⟩] } := by
  have horigin : (fun q => if (t.proc q).state = .UNUSED then none
      else if (s.kernel.proc q).state = .UNUSED then a.makes s.kernel else s.origin q) =
      Function.update s.origin q none := by
    funext q'
    by_cases hq : q' = q
    · subst hq
      rw [if_pos hf.unused, Function.update_self]
    · rw [Function.update_of_ne hq]
      by_cases hu : (t.proc q').state = .UNUSED
      · rw [if_pos hu, h.unused q' ((hf.others q' hq).unused.mp hu)]
      · rw [if_neg hu, if_neg fun hs => hu ((hf.others q' hq).unused.mpr hs)]
  rw [trace, givenBack_frees hf, horigin, List.map_singleton]

theorem TraceInv.frees (h : TraceInv s) (hf : Frees s.kernel q t)
    (hright : Reap.Right
      ⟨a, (s.kernel.proc a.caller).pid, (s.kernel.proc q).pid, s.origin q, r⟩) :
    TraceInv (trace s a t r) := by
  have hu := trace_frees (a := a) (r := r) h hf
  generalize trace s a t r = u at hu
  generalize he : Reap.mk a (s.kernel.proc a.caller).pid (s.kernel.proc q).pid (s.origin q) r = e
    at hu hright
  have hkernel : u.kernel = t := by rw [hu]
  have hhistory : u.history = s.history ++ [e] := by rw [hu]
  have hself : u.origin q = none := by
    rw [hu]
    exact Function.update_self ..
  have horigin : ∀ q', q' ≠ q → u.origin q' = s.origin q' := by
    intro q' hq'
    rw [hu]
    exact Function.update_of_ne hq' ..
  have hpid : e.pid = (s.kernel.proc q).pid := by rw [← he]
  have hzombie : (s.kernel.proc q).state ≠ .UNUSED := by
    rw [hf.zombie]
    decide
  -- a process that is neither UNUSED nor ZOMBIE is not the one reaped
  have hlive : ∀ p, (s.kernel.proc p).state ≠ .UNUSED ∧ (s.kernel.proc p).state ≠ .ZOMBIE →
      p ≠ q ∧ (t.proc p).state ≠ .UNUSED ∧ (t.proc p).state ≠ .ZOMBIE := by
    intro p hp
    have hne : p ≠ q := by
      rintro rfl
      exact hp.2 hf.zombie
    have hent := hf.others p hne
    exact ⟨hne, fun hu => hp.1 (hent.unused.mp hu), fun hz => hp.2 (hent.zombie.mp hz)⟩
  constructor <;> simp only [hkernel, hhistory]
  · obtain ⟨i, hi, hstate⟩ := h.init
    exact ⟨i, hf.initproc.trans hi, (hlive i hstate).2⟩
  · intro q' hq'
    by_cases hqq : q' = q
    · rw [hqq, hself]
    · rw [horigin q' hqq]
      exact h.unused q' ((hf.others q' hqq).unused.mp hq')
  · intro q'
    by_cases hqq : q' = q
    · subst hqq
      rw [hf.is_thread, hself]
      simp
    · rw [horigin q' hqq, (hf.others q' hqq).is_thread]
      exact h.flag q'
  · intro q' creator stack ho
    have hqq : q' ≠ q := by
      rintro rfl
      rw [hself] at ho
      cases ho
    rw [horigin q' hqq] at ho
    rw [(hf.others q' hqq).stack]
    exact h.stack q' creator stack ho
  · intro q' p' hq' hp'
    obtain ⟨hqq, hused⟩ := hf.used hq'
    rw [(hf.others q' hqq).parent] at hp'
    obtain ⟨o, ho, hc⟩ := h.made q' p' hused hp'
    refine ⟨o, (horigin q' hqq).trans ho, hc.imp (fun hc => ?_) fun hi => hf.initproc.trans hi⟩
    rw [(hf.others p' (hlive p' (h.live q' p' hused hp')).1).pid]
    exact hc
  · intro q' p' hq' hp'
    obtain ⟨hqq, hused⟩ := hf.used hq'
    rw [(hf.others q' hqq).parent] at hp'
    exact (hlive p' (h.live q' p' hused hp')).2
  · intro q' hq'
    obtain ⟨hqq, hused⟩ := hf.used hq'
    rw [(hf.others q' hqq).pid, hf.nextpid]
    exact h.lt q' hused
  · intro q' q'' hq' hq'' hsame
    obtain ⟨hqq', hused'⟩ := hf.used hq'
    obtain ⟨hqq'', hused''⟩ := hf.used hq''
    rw [(hf.others q' hqq').pid, (hf.others q'' hqq'').pid] at hsame
    exact h.distinct q' q'' hused' hused'' hsame
  · intro e' he'
    rcases List.mem_append.mp he' with hold | hnew
    · obtain ⟨hlt, hne⟩ := h.past e' hold
      refine ⟨by rwa [hf.nextpid], fun q' hq' => ?_⟩
      obtain ⟨hqq, hused⟩ := hf.used hq'
      rw [(hf.others q' hqq).pid]
      exact hne q' hused
    · obtain rfl := List.mem_singleton.mp hnew
      rw [hpid, hf.nextpid]
      refine ⟨h.lt q hzombie, fun q' hq' hsame => ?_⟩
      obtain ⟨hqq, hused⟩ := hf.used hq'
      rw [(hf.others q' hqq).pid] at hsame
      exact hqq (h.distinct q' q hused hzombie hsame)
  · intro e' he'
    rcases List.mem_append.mp he' with hold | hnew
    · exact h.right e' hold
    · obtain rfl := List.mem_singleton.mp hnew
      exact hright
  · rw [List.map_append, List.map_singleton, List.nodup_append]
    refine ⟨h.once, List.nodup_singleton _, fun pid hmem pid' hpid' hsame => ?_⟩
    obtain rfl := List.mem_singleton.mp hpid'
    obtain ⟨e', he', rfl⟩ := List.mem_map.mp hmem
    exact (h.past e' he').2 q hzombie (hpid.symm.trans hsame.symm)

theorem finish_entry (s : Kernel) (p q : ProcId) :
    SameEntry (s.proc q) ((Threads.finish s p).proc q) := by
  by_cases hq : q = p
  · subst hq
    rw [finish, Kernel.setProc_self]
    exact ⟨Iff.rfl, Iff.rfl, rfl, rfl, rfl, rfl⟩
  · rw [finish, Kernel.setProc_of_ne hq]
    exact .refl _

/-- What `wait` and `join` do to a zombie that they find. -/
theorem Frees.reap {u v : Kernel} {x : Proc} (hz : (v.proc q).state = .ZOMBIE)
    (hproc : u.proc = v.proc) (hi : u.initproc = v.initproc) (hn : u.nextpid = v.nextpid)
    (hx : x.state = .UNUSED) (ht : x.is_thread = false) (p : ProcId) :
    Frees v q (finish (u.setProc q x) p) where
  initproc := hi
  nextpid := hn
  zombie := hz
  unused := by
    rw [(finish_entry _ p q).unused, Kernel.setProc_self]
    exact hx
  is_thread := by
    rw [(finish_entry _ p q).is_thread, Kernel.setProc_self]
    exact ht
  others := by
    intro q' hq'
    have hent := finish_entry (u.setProc q x) p q'
    rwa [Kernel.setProc_of_ne hq', hproc] at hent

theorem zombieChild_some {s : Kernel} (h : zombieChild s p = some q) :
    (s.proc q).parent = some p ∧ (s.proc q).state = .ZOMBIE := by
  simpa using List.find?_some h

theorem zombieThread_some {s : Kernel} (h : zombieThread s p = some q) :
    (s.proc q).parent = some p ∧ (s.proc q).is_thread = true ∧ (s.proc q).state = .ZOMBIE := by
  simpa using List.find?_some h

theorem TraceInv.parent_origin (h : TraceInv s) (hz : (s.kernel.proc q).state = .ZOMBIE)
    (hp : (s.kernel.proc q).parent = some p) : ∃ o, s.origin q = some o ∧
      ((s.kernel.proc p).pid = o.creator ∨ s.kernel.initproc = some p) :=
  h.made q p (by rw [hz]; decide) hp

theorem TraceInv.wait (h : TraceInv s) (hp : (s.kernel.proc p).state = .RUNNING)
    (hown : ReapsOwn s (.wait p)) (hc : wait s.kernel p = .ok (t, r)) :
    TraceInv (trace s (.wait p) t r) := by
  unfold Threads.wait at hc
  split at hc
  · next q hq =>
    have hflag : (s.kernel.proc q).is_thread = false := hown q hq
    obtain ⟨hparent, hz⟩ := zombieChild_some hq
    obtain ⟨u, hfree, hc⟩ := bind_eq_ok.mp hc
    obtain ⟨rfl, rfl⟩ := Prod.mk.inj (Except.ok.inj hc)
    have hu : u.proc = s.kernel.proc ∧ u.initproc = s.kernel.initproc ∧
        u.nextpid = s.kernel.nextpid := by
      unfold freevm at hfree
      split at hfree
      · cases hfree
      · exact Except.ok.inj hfree ▸ ⟨rfl, rfl, rfl⟩
    refine h.frees (.reap hz hu.1 hu.2.1 hu.2.2 rfl ?_ p) ⟨?_, rfl⟩
    · rw [hu.1]
      exact hflag
    · obtain ⟨⟨creator, stack⟩, ho, -⟩ := h.parent_origin hz hparent
      cases stack with
      | none => exact ⟨creator, ho⟩
      | some stack =>
        rw [(h.flag q).mpr ⟨creator, stack, ho⟩] at hflag
        cases hflag
  · split at hc
    · obtain ⟨rfl, -⟩ := Prod.mk.inj (Except.ok.inj hc)
      exact h.same (finish_entries _ p)
    · obtain ⟨rfl, -⟩ := Prod.mk.inj (Except.ok.inj hc)
      exact h.same (sleep_entries hp)

theorem TraceInv.join (h : TraceInv s) (hp : (s.kernel.proc p).state = .RUNNING)
    (hown : ReapsOwn s (.join p)) :
    TraceInv (trace s (.join p) (join s.kernel p).1 (join s.kernel p).2) := by
  unfold Threads.join
  split
  · next q hq =>
    obtain ⟨hparent, hthread, hz⟩ := zombieThread_some hq
    refine h.frees (.reap hz rfl rfl rfl rfl rfl p) ?_
    obtain ⟨creator, stack, ho⟩ := (h.flag q).mp hthread
    refine ⟨stack, ?_, congrArg (fun st => Reply.mk _ (some st)) (h.stack q creator stack ho)⟩
    obtain ⟨o, ho', hcreator⟩ := h.parent_origin hz hparent
    obtain rfl : o = ⟨creator, some stack⟩ := Option.some.inj (ho'.symm.trans ho)
    suffices hpid : (s.kernel.proc p).pid = creator by
      rw [← hpid] at ho
      exact ho
    refine hcreator.elim id fun hinit => ?_
    obtain ⟨o, ho', hpid⟩ := hown hinit q hq
    obtain rfl : o = ⟨creator, some stack⟩ := Option.some.inj (ho'.symm.trans ho)
    exact hpid.symm
  · split
    · exact h.same (finish_entries _ p)
    · exact h.same (sleep_entries hp)

/-! ## Runs -/

theorem tracedCall_inv (h : TraceInv s) (hown : ReapsOwn s a) (hen : enabled s.kernel a = true)
    (hc : call s.kernel a = .ok (t, r)) : TraceInv (trace s a t r) := by
  cases a with
  | schedule p =>
      have hp : (s.kernel.proc p).state = .RUNNABLE := of_decide_eq_true hen
      obtain ⟨rfl, -⟩ := Prod.mk.inj (Except.ok.inj hc)
      exact h.same (.setProc ⟨by simp [hp], by simp [hp], rfl, rfl, rfl, rfl⟩)
  | yield p =>
      have hp : (s.kernel.proc p).state = .RUNNING := of_decide_eq_true hen
      obtain ⟨rfl, -⟩ := Prod.mk.inj (Except.ok.inj hc)
      exact h.same (.setProc ⟨by simp [hp], by simp [hp], rfl, rfl, rfl, rfl⟩)
  | fork p k c =>
      rcases fork_entries hc with hsame | ⟨np, hm⟩
      · exact h.same hsame
      · exact h.makes hm (of_decide_eq_true hen).1 rfl
  | clone p k stack =>
      obtain ⟨rfl, -⟩ := Prod.mk.inj (Except.ok.inj hc)
      rcases thread_fork_entries with hsame | ⟨np, hm⟩
      · exact h.same hsame
      · exact h.makes hm (of_decide_eq_true hen).1 rfl
  | exec p path load => exact h.same (exec_entries hc)
  | exit p =>
      obtain ⟨init, hl⟩ := exit_entries (of_decide_eq_true hen).1 hc
      exact h.leaves hl
  | wait p => exact h.wait (of_decide_eq_true hen).1 hown hc
  | join p =>
      obtain ⟨rfl, rfl⟩ := Prod.mk.inj (Except.ok.inj hc)
      exact h.join (of_decide_eq_true hen).1 hown
  | kill p pid =>
      obtain ⟨rfl, -⟩ := Prod.mk.inj (Except.ok.inj hc)
      exact h.same (kill_entries pid)
  | sbrk p n enough =>
      obtain ⟨rfl, -⟩ := Prod.mk.inj (Except.ok.inj hc)
      exact h.same (sbrk_entries n enough)
  | «open» p path refused => exact h.same (sys_open_entries hc)
  | close p fd => exact h.same (sys_close_entries hc)
  | dup p fd => exact h.same (sys_dup_entries hc)
  | fstat p fd => exact h.same (sys_fstat_entries hc)
  | chdir p path isDir => exact h.same (sys_chdir_entries hc)

theorem userinit_traceInv {k : Kernel} (h : userinit = .ok k) : TraceInv { kernel := k } := by
  obtain ⟨np, hinit, hpid, hself, hother⟩ : ∃ np, k.initproc = some np ∧ k.nextpid = 2 ∧
      ((k.proc np).state = .RUNNABLE ∧ (k.proc np).pid = 1 ∧ (k.proc np).parent = none ∧
        (k.proc np).is_thread = false) ∧ ∀ q, q ≠ np → k.proc q = {} := by
    unfold userinit at h
    split at h
    · next u halloc =>
      have hsome : (allocproc {} true).2.isSome = true := by decide +kernel
      rw [halloc] at hsome
      cases hsome
    · next u np halloc =>
      obtain ⟨-, -, rfl⟩ := allocproc_some halloc
      obtain ⟨⟨files, ip⟩, -, h⟩ := bind_eq_ok.mp h
      obtain rfl := Except.ok.inj h
      refine ⟨np, rfl, rfl, ?_, fun q hq => ?_⟩
      · simp [Kernel.setProc, Kernel.embryo]
      · simp [Kernel.setProc, Kernel.embryo, hq]
  obtain ⟨hstate, hone, hparent, hthread⟩ := hself
  have honly : ∀ q, (k.proc q).state ≠ .UNUSED → q = np := by
    intro q hq
    by_contra hne
    rw [hother q hne] at hq
    exact hq rfl
  have horphan : ∀ q p, (k.proc q).state ≠ .UNUSED → (k.proc q).parent ≠ some p := by
    intro q p hq
    obtain rfl := honly q hq
    rw [hparent]
    rintro ⟨⟩
  constructor
  · exact ⟨np, hinit, by rw [hstate]; exact ⟨by decide, by decide⟩⟩
  · exact fun _ _ => rfl
  · intro q
    by_cases hq : q = np
    · subst hq
      simp [hthread]
    · simp [hother q hq]
  · rintro _ _ _ ⟨⟩
  · exact fun q p hq hp => absurd hp (horphan q p hq)
  · exact fun q p hq hp => absurd hp (horphan q p hq)
  · intro q hq
    obtain rfl := honly q hq
    rw [hone, hpid]
    decide
  · intro q r hq hr _
    exact (honly q hq).trans (honly r hr).symm
  · rintro _ ⟨⟩
  · rintro _ ⟨⟩
  · exact List.nodup_nil

theorem reapedRight_of_run {k : Kernel} {t : Traced} (h : userinit = .ok k)
    (hrun : Run tracedStep ReapsOwn { kernel := k } t) : ReapedRight t := by
  refine TraceInv.reapedRight (hrun.invariant (userinit_traceInv h) fun u a v hu hown hs => ?_)
  obtain ⟨hen, w, r, hc, rfl⟩ := tracedStep_eq_some hs
  exact tracedCall_inv hu hown hen hc

end

/-- A thread is joined, then a forked child is waited for, then the slot holds a thread again. -/
def joinedThenWaited : List Call :=
  [.schedule 0, .clone 0 true 4096, .yield 0, .schedule 1, .exit 1, .schedule 0, .join 0,
    .fork 0 true .done, .wait 0, .schedule 1, .exit 1, .schedule 0, .wait 0, .clone 0 true 8192]

theorem joinedThenWaited_right : ∃ k t, userinit = .ok k ∧
    play tracedStep joinedThenWaited { kernel := k } = some t ∧ t.history.length = 2 ∧
      ReapedRight t := by
  have hsome : (userinit.toOption.bind fun k =>
      if PlayOk tracedStep ReapsOwn joinedThenWaited { kernel := k } then
        (play tracedStep joinedThenWaited { kernel := k }).filter fun t => t.history.length = 2
      else none).isSome = true := by decide +kernel
  obtain ⟨t, ht⟩ := Option.isSome_iff_exists.mp hsome
  obtain ⟨k, hk, ht⟩ := Option.bind_eq_some_iff.mp ht
  obtain ⟨hok, ht⟩ := Option.ite_none_right_eq_some.mp ht
  obtain ⟨ht, hlen⟩ := Option.filter_eq_some_iff.mp ht
  have hinit : userinit = .ok k := toOption_eq_some.mp hk
  exact ⟨k, t, hinit, ht, of_decide_eq_true hlen, reapedRight_of_run hinit (.of_playOk hok ht)⟩

/-- `wait` takes the thread, and its slot goes on saying that there is a thread in it. -/
theorem wait_takes_thread : ∃ k t, userinit = .ok k ∧
    play tracedStep [.schedule 0, .clone 0 true 4096, .yield 0, .schedule 1, .exit 1, .schedule 0,
      .wait 0] { kernel := k } = some t ∧ ¬ ReapedRight t ∧
        (t.kernel.proc 1).state = .UNUSED ∧ (t.kernel.proc 1).is_thread = true := by
  have hall : (userinit.toOption.bind fun k => (play tracedStep [.schedule 0, .clone 0 true 4096,
      .yield 0, .schedule 1, .exit 1, .schedule 0, .wait 0] { kernel := k }).map fun t =>
        (t.history.map Reap.origin, t.history.map fun e => match e.call with
          | .wait _ => true
          | _ => false, (t.kernel.proc 1).state, (t.kernel.proc 1).is_thread)) =
      some ([some ⟨1, some 4096⟩], [true], .UNUSED, true) := by decide +kernel
  obtain ⟨k, hk, ht⟩ := Option.bind_eq_some_iff.mp hall
  obtain ⟨t, ht, hvals⟩ := Option.map_eq_some_iff.mp ht
  obtain ⟨horigin, hvals⟩ := Prod.mk.inj hvals
  obtain ⟨hcall, hvals⟩ := Prod.mk.inj hvals
  obtain ⟨hstate, hthread⟩ := Prod.mk.inj hvals
  refine ⟨k, t, toOption_eq_some.mp hk, ht, fun hright => ?_, hstate, hthread⟩
  obtain ⟨e, he, heo⟩ := List.map_eq_singleton_iff.mp horigin
  rw [he] at hcall
  have hr := hright.right e (by rw [he]; exact List.mem_singleton_self e)
  unfold Reap.Right at hr
  split at hr
  · obtain ⟨⟨creator, ho⟩, -⟩ := hr
    rw [heo] at ho
    cases ho
  · next hc => simp [hc] at hcall
  · exact hr

end IntroToOS.Threads

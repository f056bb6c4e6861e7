import IntroToOS.Mlfq.Dispatch
import IntroToOS.Mlfq.Pointers

/-! # The starvation trigger of Project2b

`trap` counts a tick with `starvTicks++`, takes `ptable.lock` and only then compares the counter
with 100. A counter at 100 always has a process that still has the comparison to make
(`Trigger.due`): code is dropped only where no comparison follows, at the exit of a killed process
and with the kernel stack of a process that is gone. So the counter stays below 101 in every run in
which no tick is counted while that comparison is due (`trigger_of_run`), and two CPUs that run in
user mode take it to 101 (`trigger_missed`).
-/

namespace IntroToOS.Mlfq.Smp
open Lib
set_option autoImplicit false

/-! ## Counted ticks and checks -/

/-- The operation that a step executes on the stack of a process. -/
def Machine.nextOp (m : Machine) : Label → Option (ProcId × Op)
  | .go c _ => (m.stack c).bind fun p => (m.code p).head?.map fun op => (p, op)
  | _ => none

/-- The step executes `starvTicks++`. -/
def Machine.counts (m : Machine) (a : Label) : Bool :=
  match m.nextOp a with
  | some (p, .charge) => (m.kernel.proc p).state = .RUNNING
  | _ => false

/-- The step finds `100 == starvTicks`. -/
def Machine.checks (m : Machine) (a : Label) : Bool :=
  match m.nextOp a with
  | some (_, .starvation) => m.kernel.starvTicks = 100
  | _ => false

/-- Some process has the comparison with 100 still to make. -/
def Machine.Due (m : Machine) : Prop := ∃ p, .starvation ∈ m.code p

instance (m : Machine) : Decidable m.Due := inferInstanceAs (Decidable (∃ _, _))

/-- The machine with the number of ticks counted and of starvation checks run so far. -/
structure Counted where
  machine : Machine
  counted : ℕ := 0
  checked : ℕ := 0

def countStep (s : Counted) (a : Label) : Option Counted :=
  (step s.machine a).map fun m =>
    { machine := m
      counted := s.counted + (s.machine.counts a).toNat
      checked := s.checked + (s.machine.checks a).toNat }

/-- No tick is counted while the hundredth waits for its check. -/
def CheckedFirst (s : Counted) (a : Label) : Prop :=
  s.machine.counts a = true → s.machine.kernel.starvTicks = 100 → ¬ s.machine.Due

instance (s : Counted) (a : Label) : Decidable (CheckedFirst s a) :=
  inferInstanceAs (Decidable (_ → _))

/-! ## Where code is dropped -/

/-- What follows the operation may never be executed. -/
def Op.last : Op → Bool
  | .checkKilled user => user
  | .setState st => st = .UNUSED ∨ st = .EMBRYO ∨ st = .ZOMBIE
  | _ => false

def Gone (st : ProcState) : Prop := st = .UNUSED ∨ st = .EMBRYO ∨ st = .ZOMBIE

/-- No comparison follows where code is dropped, and no process that is gone has one left. -/
structure Kept (m : Machine) : Prop where
  last : ∀ p, (m.code p).Pairwise fun o o' => o.last = true → o' ≠ .starvation
  gone : ∀ p, Gone (states m.kernel p) → .starvation ∉ m.code p

section
variable {m m' : Machine} {k : Kernel} {c : ℕ} {p q : ProcId} {ok : Bool} {op : Op} {l l' : List Op}

theorem Gone.woken {st st' : ProcId → ProcState} (hw : Woken st st') (h : Gone (st' q)) :
    Gone (st q) := by
  rcases h with h | h | h
  · exact .inl (hw.back (by decide) h)
  · exact .inr (.inl (hw.back (by decide) h))
  · exact .inr (.inr (hw.back (by decide) h))

/-! ## What a step does to the code and the counter -/

/-- Nobody has gone, and no tick is counted. -/
structure Mild (k k' : Kernel) : Prop where
  gone : ∀ q, Gone (states k' q) → Gone (states k q)
  starv : k'.starvTicks = k.starvTicks

theorem Mild.of_wakes {k' : Kernel} (h : Wakes k k') (hs : k'.starvTicks = k.starvTicks) :
    Mild k k' := ⟨fun _ => Gone.woken h.states, hs⟩

theorem Mild.refl (k : Kernel) : Mild k k := .of_wakes (.refl k) rfl

theorem mild_setProc (k : Kernel) (q : ProcId) (x : Proc) (hx : x.state = (k.proc q).state) :
    Mild k (k.setProc q x) := .of_wakes (wakes_setProc k q x hx) rfl

theorem mild_setState (k : Kernel) (q : ProcId) {st : ProcState}
    (h : Gone st → Gone (states k q)) : Mild k (k.setState q st) := by
  refine ⟨fun r hr => ?_, rfl⟩
  rw [setState_states] at hr
  by_cases hrq : r = q
  · subst hrq
    rw [Function.update_self] at hr
    exact h hr
  · rwa [Function.update_of_ne hrq] at hr

theorem mild_kill (k : Kernel) (pid : ℕ) : Mild k (Mlfq.kill k pid) := by
  refine .of_wakes (wakes_kill k pid) ?_
  unfold Mlfq.kill
  split <;> rfl

theorem reparent_starvTicks (k : Kernel) (p init : ProcId) :
    (reparent k p init).starvTicks = k.starvTicks := by
  unfold reparent
  generalize List.finRange NPROC = procs
  induction procs generalizing k with
  | nil => rfl
  | cons q procs ih =>
      rw [List.foldl_cons, ih]
      dsimp only
      split
      · split <;> rfl
      · rfl

theorem mild_orphan (k : Kernel) (p init : ProcId) : Mild k (orphan k p init) := by
  refine .of_wakes (wakes_orphan k p init) ?_
  unfold orphan
  rw [reparent_starvTicks]
  split <;> rfl

theorem mild_boostAll (now : ℕ) (k : Kernel) (procs : List ProcId) :
    Mild k (procs.foldl (boost now) k) := by
  refine .of_wakes (wakes_boostAll now k procs) ?_
  induction procs generalizing k with
  | nil => rfl
  | cons q procs ih =>
      rw [List.foldl_cons, ih]
      unfold boost
      simp only
      split
      · split <;> rfl
      · rfl

theorem mild_afterSwtch (k : Kernel) (c : ℕ) (d : Dispatch) : Mild k (afterSwtch k c d) := by
  refine ⟨fun q hq => ?_, ?_⟩
  · rwa [afterSwtch_states] at hq
  · unfold afterSwtch
    simp only
    split
    · split <;> rfl
    · rfl

/-- What is put before the rest of the code: nothing in it drops what follows, and only the
accounting brings a comparison. -/
structure Ahead (op : Op) (pre : List Op) : Prop where
  last : ∀ o ∈ pre, o.last = false
  test : .starvation ∈ pre → op = .charge

/-- The value of `starvTicks` after `op`. -/
def ticked (n : ℕ) (running : Prop) [Decidable running] : Op → ℕ
  | .charge => if running then (n + 1) % 2 ^ 32 else n
  | .starvation => if n = 100 then 0 else n
  | _ => n

/-- What operation `op` of process `p`, with `l` left to do after it, does to the machine. -/
structure Effect (m m' : Machine) (p : ProcId) (op : Op) (l : List Op) : Prop where
  others : ∀ q, q ≠ p → m'.code q = m.code q ∨ op = .kalloc q ∧ m'.code q = forkret
  self : op = .checkKilled true ∧ m'.code p = exit ∨ ∃ pre, Ahead op pre ∧ m'.code p = pre ++ l ∧
    (op = .charge → states m.kernel p = .RUNNING → .starvation ∈ pre)
  gone : ∀ q, Gone (states m'.kernel q) → Gone (states m.kernel q) ∨ q = p ∧ op.last = true
  starv : m'.kernel.starvTicks =
    ticked m.kernel.starvTicks (states m.kernel p = .RUNNING) op

theorem ticked_of_ne {n : ℕ} {running : Prop} [Decidable running] (hc : op ≠ .charge)
    (hs : op ≠ .starvation) : ticked n running op = n := by
  cases op <;> first | rfl | contradiction

/-- A list that neither drops code nor makes the comparison. -/
def harmless (pre : List Op) : Bool := pre.all fun o => !o.last && !decide (o = .starvation)

theorem ahead_of_harmless {pre : List Op} (h : harmless pre = true) : Ahead op pre := by
  have hall : ∀ o ∈ pre, o.last = false ∧ o ≠ .starvation := by
    intro o ho
    simpa using List.all_eq_true.mp h o ho
  exact ⟨fun o ho => (hall o ho).1, fun hs => absurd rfl (hall _ hs).2⟩

/-- Most operations put `pre` in their own place. -/
theorem Effect.next (pre : List Op) (hk : Mild m.kernel k) (hpre : harmless pre = true)
    (hop : op ≠ .charge ∧ op ≠ .starvation) : Effect m (m.next p k (pre ++ l)) p op l where
  others := fun _ hq => .inl (Function.update_of_ne hq _ _)
  self := .inr ⟨pre, ahead_of_harmless hpre, Function.update_self .., fun h => absurd h hop.1⟩
  gone := fun q hq => .inl (hk.gone q hq)
  starv := hk.starv.trans (ticked_of_ne hop.1 hop.2).symm

/-- The same for a change of other parts of the machine. -/
theorem Effect.congr {n : Machine} (h : Effect m n p op l) (hcode : m'.code = n.code)
    (hk : m'.kernel = n.kernel) : Effect m m' p op l where
  others := fun q hq => hcode ▸ h.others q hq
  self := hcode ▸ h.self
  gone := fun q hq => h.gone q (hk ▸ hq)
  starv := hk ▸ h.starv

theorem execShared_mild {n : Machine} (h : execShared m c op = some n) :
    n.code = m.code ∧ Mild m.kernel n.kernel := by
  cases op with
  | acquire =>
      obtain rfl := Option.some.inj (Option.ite_none_right_eq_some.mp h).2
      exact ⟨rfl, .refl _⟩
  | release =>
      obtain rfl := Option.some.inj (Option.ite_none_right_eq_some.mp h).2
      exact ⟨rfl, .refl _⟩
  | acquireTicks =>
      obtain rfl := Option.some.inj (Option.ite_none_right_eq_some.mp h).2
      exact ⟨rfl, .refl _⟩
  | releaseTicks =>
      obtain rfl := Option.some.inj (Option.ite_none_right_eq_some.mp h).2
      exact ⟨rfl, .refl _⟩
  | tick =>
      obtain rfl := Option.some.inj h
      exact ⟨rfl, .of_wakes (.of_states (fun _ => rfl) rfl) rfl⟩
  | wakeup1 chan =>
      obtain rfl := Option.some.inj h
      exact ⟨rfl, .of_wakes (wakes_wakeup1 _ chan) rfl⟩
  | _ => cases h

theorem Effect.shared (hop : op ≠ .charge ∧ op ≠ .starvation)
    (he : (execShared m c op).map (fun m => m.setCode p l) = some m') : Effect m m' p op l := by
  obtain ⟨n, hn, rfl⟩ := Option.map_eq_some_iff.mp he
  obtain ⟨hcode, hk⟩ := execShared_mild hn
  refine (Effect.next [] hk rfl hop).congr ?_ rfl
  change Function.update n.code p l = Function.update m.code p l
  rw [hcode]

theorem effect_setState {st : ProcState}
    (he : exec m c p ok (.setState st) l = some m') : Effect m m' p (.setState st) l := by
  obtain rfl := Option.some.inj he
  refine ⟨fun q hq => .inl (Function.update_of_ne hq _ _),
    .inr ⟨[], ahead_of_harmless rfl, Function.update_self .., by simp⟩, fun q hq => ?_, rfl⟩
  by_cases hqp : q = p
  · refine .inr ⟨hqp, ?_⟩
    have hst : states (m.kernel.setState p st) p = st := by
      rw [setState_states, Function.update_self]
    rw [hqp] at hq
    exact decide_eq_true (hst ▸ hq)
  · left
    have hst : states (m.kernel.setState p st) q = states m.kernel q := by
      rw [setState_states, Function.update_of_ne hqp]
    exact hst ▸ hq

theorem effect_checkKilled {user : Bool}
    (he : exec m c p ok (.checkKilled user) l = some m') : Effect m m' p (.checkKilled user) l := by
  obtain rfl := Option.some.inj he
  split
  · next hexit =>
    obtain ⟨-, rfl⟩ := hexit
    exact ⟨fun q hq => .inl (Function.update_of_ne hq _ _), .inl ⟨rfl, Function.update_self ..⟩,
      fun q hq => .inl hq, rfl⟩
  · exact .next [] (Mild.refl _) rfl (by simp)

theorem effect_charge (h : m.Inv) (hp : m.stack c = some p) (hcode : m.code p = .charge :: l)
    (he : exec m c p ok .charge l = some m') : Effect m m' p .charge l := by
  obtain ⟨hrun, -⟩ := h.code hp hcode (by simp) rfl
  simp only [exec] at he
  rw [if_pos (show (m.kernel.proc p).state = .RUNNING from hrun)] at he
  obtain rfl := Option.some.inj he
  refine ⟨fun q hq => .inl (Function.update_of_ne hq _ _),
    .inr ⟨([.acquire, .starvation, .release] : List Op) ++ yield, ?_, Function.update_self ..,
      by simp⟩,
    fun q hq => .inl (Gone.woken (wakes_account _ p).states hq), ?_⟩
  · exact ⟨by simp [yield, Op.last], fun _ => rfl⟩
  · exact (if_pos hrun).symm

theorem effect_starvation
    (he : exec m c p ok .starvation l = some m') : Effect m m' p .starvation l := by
  simp only [exec] at he
  split at he
  · next hfull =>
    obtain rfl := Option.some.inj he
    exact ⟨fun q hq => .inl (Function.update_of_ne hq _ _),
      .inr ⟨[.acquireTicks, .now], ahead_of_harmless rfl, Function.update_self .., by simp⟩,
      fun q hq => .inl hq, (if_pos hfull).symm⟩
  · next hfull =>
    obtain rfl := Option.some.inj he
    exact ⟨fun q hq => .inl (Function.update_of_ne hq _ _),
      .inr ⟨[], ahead_of_harmless rfl, Function.update_self .., by simp⟩,
      fun q hq => .inl hq, (if_neg hfull).symm⟩

theorem effect_scanChildren
    (he : exec m c p ok .scanChildren l = some m') : Effect m m' p .scanChildren l := by
  simp only [exec] at he
  split at he
  · next q _ =>
    obtain rfl := Option.some.inj he
    exact .next [.kfree q] (Mild.refl _) rfl (by simp)
  · split at he
    · obtain rfl := Option.some.inj he
      exact .next [.release] (Mild.refl _) rfl (by simp)
    · obtain rfl := Option.some.inj he
      rw [List.append_cons]
      exact .next _ (Mild.refl _) rfl (by simp)

theorem effect_clear {q : ProcId} (h : m.Inv) (hp : m.stack c = some p)
    (hcode : m.code p = .clear q :: l)
    (he : exec m c p ok (.clear q) l = some m') : Effect m m' p (.clear q) l := by
  obtain ⟨-, -, -, hz⟩ := h.reaping hp hcode rfl
  obtain rfl := Option.some.inj he
  refine .next [.release] ⟨fun r hr => ?_, rfl⟩ rfl (by simp)
  by_cases hrq : r = q
  · exact .inr (.inr (hrq ▸ hz))
  · rwa [setProc_states, Function.update_of_ne hrq] at hr

theorem effect_allocproc {i : ℕ}
    (he : exec m c p ok (.allocproc i) l = some m') : Effect m m' p (.allocproc i) l := by
  simp only [exec] at he
  split at he
  · next hi =>
    split at he
    · next hu =>
      obtain rfl := Option.some.inj he
      refine .next [.release, .kalloc ⟨i, hi⟩] ⟨fun r hr => ?_, rfl⟩ rfl
        (by simp)
      by_cases hri : r = ⟨i, hi⟩
      · exact .inl (hri ▸ hu)
      · have hst : Gone (states (m.kernel.setProc ⟨i, hi⟩ { m.kernel.proc ⟨i, hi⟩ with
            state := .EMBRYO, pid := m.kernel.nextpid }) r) := hr
        rwa [setProc_states, Function.update_of_ne hri] at hst
    · obtain rfl := Option.some.inj he
      exact .next [.allocproc (i + 1)] (Mild.refl _) rfl (by simp)
  · obtain rfl := Option.some.inj he
    exact .next [.release] (Mild.refl _) rfl (by simp)

theorem effect_kalloc {np : ProcId} (h : m.Inv) (hcode : m.code p = .kalloc np :: l)
    (he : exec m c p ok (.kalloc np) l = some m') : Effect m m' p (.kalloc np) l := by
  have hembryo := h.own.owned p np (owns_of_head hcode rfl)
  simp only [exec] at he
  split at he
  · obtain rfl := Option.some.inj he
    refine ⟨fun q hq => ?_, .inr ⟨[.copyuvm np], ahead_of_harmless rfl, Function.update_self .., by simp⟩,
      fun q hq => .inl hq, rfl⟩
    by_cases hqn : q = np
    · subst hqn
      exact .inr ⟨rfl, (Function.update_of_ne hq _ _).trans (Function.update_self ..)⟩
    · exact .inl ((Function.update_of_ne hq _ _).trans (Function.update_of_ne hqn _ _))
  · obtain rfl := Option.some.inj he
    exact .next [] (mild_setState _ np fun _ => .inr (.inl hembryo)) rfl (by simp)

theorem effect_copyuvm {np : ProcId} (h : m.Inv) (hcode : m.code p = .copyuvm np :: l)
    (he : exec m c p ok (.copyuvm np) l = some m') : Effect m m' p (.copyuvm np) l := by
  have hembryo := h.own.owned p np (owns_of_head hcode rfl)
  simp only [exec] at he
  split at he
  · obtain rfl := Option.some.inj he
    exact (Effect.next [.insert np 0]
      (mild_setProc m.kernel np { m.kernel.proc np with priority := 0 } rfl) rfl
      (by simp)).congr rfl rfl
  · obtain rfl := Option.some.inj he
    exact (Effect.next [] (mild_setState _ np fun _ => .inr (.inl hembryo)) rfl (by simp)).congr rfl rfl

theorem effect_insert {np : ProcId} {i : ℕ}
    (he : exec m c p ok (.insert np i) l = some m') : Effect m m' p (.insert np i) l := by
  simp only [exec] at he
  split at he
  · split at he
    · obtain rfl := Option.some.inj he
      exact .next [.store np i] (Mild.refl _) rfl (by simp)
    · obtain rfl := Option.some.inj he
      exact .next [.insert np (i + 1)] (Mild.refl _) rfl (by simp)
  · obtain rfl := Option.some.inj he
    exact .next [.link np] (Mild.refl _) rfl (by simp)

theorem effect_sleepWhile {n : ℕ} {ticks0 : ℕ}
    (he : exec m c p ok (.sleepWhile n ticks0) l = some m') : Effect m m' p (.sleepWhile n ticks0) l := by
  simp only [exec] at he
  split at he
  · split at he
    · obtain rfl := Option.some.inj he
      exact .next [.releaseTicks] (Mild.refl _) rfl (by simp)
    · obtain rfl := Option.some.inj he
      rw [List.append_cons]
      exact .next _ (Mild.refl _) rfl (by simp)
  · obtain rfl := Option.some.inj he
    exact .next [.releaseTicks] (Mild.refl _) rfl (by simp)

theorem exec_effect (h : m.Inv) (hp : m.stack c = some p) (hcode : m.code p = op :: l)
    (he : exec m c p ok op l = some m') : Effect m m' p op l := by
  cases op with
  | sched =>
      obtain rfl := Option.some.inj (Option.ite_none_right_eq_some.mp he).2
      exact (Effect.next [] (Mild.refl _) rfl (by simp)).congr rfl rfl
  | setState st => exact effect_setState he
  | setChan chan =>
      obtain rfl := Option.some.inj he
      exact .next [] (mild_setProc _ p _ rfl) rfl (by simp)
  | kill pid =>
      obtain rfl := Option.some.inj he
      exact .next [] (mild_kill _ pid) rfl (by simp)
  | checkKilled user => exact effect_checkKilled he
  | charge => exact effect_charge h hp hcode he
  | starvation => exact effect_starvation he
  | now =>
      obtain rfl := Option.some.inj he
      exact .next [.releaseTicks, .boostAll _] (Mild.refl _) rfl (by simp)
  | boostAll now =>
      obtain rfl := Option.some.inj he
      exact .next [] (mild_boostAll now _ _) rfl (by simp)
  | checkInit =>
      obtain ⟨-, he⟩ := Option.ite_none_left_eq_some.mp he
      obtain rfl := Option.some.inj he
      exact .next [] (Mild.refl _) rfl (by simp)
  | orphan =>
      obtain ⟨init, -, rfl⟩ := Option.map_eq_some_iff.mp he
      exact .next [] (mild_orphan _ p init) rfl (by simp)
  | zombieExit => cases he
  | scanChildren => exact effect_scanChildren he
  | kfree q =>
      obtain rfl := Option.some.inj he
      exact (Effect.next [.freevm q] (Mild.refl _) rfl (by simp)).congr rfl rfl
  | freevm q =>
      obtain rfl := Option.some.inj he
      exact (Effect.next [.clear q] (Mild.refl _) rfl (by simp)).congr rfl rfl
  | clear q => exact effect_clear h hp hcode he
  | allocproc i => exact effect_allocproc he
  | kalloc np => exact effect_kalloc h hcode he
  | copyuvm np => exact effect_copyuvm h hcode he
  | insert np i => exact effect_insert he
  | store np i =>
      obtain rfl := Option.some.inj he
      exact .next [.link np] (.of_wakes (.of_states (fun _ => rfl) rfl) rfl) rfl
        (by simp)
  | link np =>
      obtain rfl := Option.some.inj he
      exact .next [.publish np] (mild_setProc _ np _ rfl) rfl (by simp)
  | publish np =>
      obtain rfl := Option.some.inj he
      exact .next [] (mild_setState _ np fun hg => by rcases hg with hg | hg | hg <;> cases hg)
        rfl (by simp)
  | sleepStart n =>
      obtain rfl := Option.some.inj he
      exact .next [.sleepWhile n _] (Mild.refl _) rfl (by simp)
  | sleepWhile n ticks0 => exact effect_sleepWhile he
  | _ => exact Effect.shared (c := c) (by simp) he

/-! ## No comparison is dropped -/

theorem states_running (h : m.Inv) (hp : m.stack c = some p) (hcode : m.code p = op :: l)
    (hop : op = .charge) : states m.kernel p = .RUNNING := by
  subst hop
  exact (h.code hp hcode (by simp) rfl).1

theorem not_mem_exit : Op.starvation ∉ exit := by decide

theorem not_mem_forkret : Op.starvation ∉ forkret := by decide

theorem keeps_exit : exit.Pairwise fun o o' => o.last = true → o' ≠ .starvation := by decide

theorem Kept.tail (h : Kept m) (hcode : m.code p = op :: l) : op.last = true → .starvation ∉ l := by
  intro hlast hmem
  have hpair := h.last p
  rw [hcode, List.pairwise_cons] at hpair
  exact hpair.1 _ hmem hlast rfl

theorem Effect.kept (he : Effect m m' p op l) (h : Kept m) (hcode : m.code p = op :: l)
    (hrun : op = .charge → states m.kernel p = .RUNNING) : Kept m' := by
  have hpair := h.last p
  rw [hcode, List.pairwise_cons] at hpair
  refine ⟨fun q => ?_, fun q hq => ?_⟩
  · by_cases hqp : q = p
    · subst hqp
      rcases he.self with ⟨-, hexit⟩ | ⟨pre, hpre, hself, -⟩
      · rw [hexit]
        exact keeps_exit
      · rw [hself, List.pairwise_append]
        have hnone : ∀ o ∈ pre, ∀ o' : Op, o.last = true → o' ≠ .starvation := by
          intro o ho o' hlast
          cases (hpre.last o ho).symm.trans hlast
        exact ⟨List.pairwise_of_forall_mem_list fun o ho o' _ => hnone o ho o', hpair.2,
          fun o ho o' _ => hnone o ho o'⟩
    · rcases he.others q hqp with hsame | ⟨-, hfork⟩
      · rw [hsame]
        exact h.last q
      · rw [hfork]
        exact List.pairwise_singleton _ _
  · by_cases hqp : q = p
    · subst hqp
      rcases he.self with ⟨-, hexit⟩ | ⟨pre, hpre, hself, -⟩
      · rw [hexit]
        exact not_mem_exit
      · rw [hself]
        have hgone : op ≠ .charge ∧ .starvation ∉ l := by
          rcases he.gone q hq with hq | ⟨-, hlast⟩
          · refine ⟨fun hop => ?_, fun hmem => ?_⟩
            · rcases hq with hq | hq | hq <;> cases hq.symm.trans (hrun hop)
            · exact h.gone q hq (hcode ▸ List.mem_cons_of_mem _ hmem)
          · refine ⟨?_, h.tail hcode hlast⟩
            rintro rfl
            cases hlast
        intro hmem
        rcases List.mem_append.mp hmem with hmem | hmem
        · exact hgone.1 (hpre.test hmem)
        · exact hgone.2 hmem
    · have hq' : Gone (states m.kernel q) := (he.gone q hq).resolve_right fun hr => hqp hr.1
      rcases he.others q hqp with hsame | ⟨-, hfork⟩
      · rw [hsame]
        exact h.gone q hq'
      · rw [hfork]
        exact not_mem_forkret

/-- A step that does not make the comparison leaves it to be made. -/
theorem Effect.due (he : Effect m m' p op l) (h : Kept m) (hinv : m.Inv)
    (hcode : m.code p = op :: l) (hop : op ≠ .starvation) (hd : m.Due) : m'.Due := by
  obtain ⟨q, hq⟩ := hd
  refine ⟨q, ?_⟩
  by_cases hqp : q = p
  · subst hqp
    rw [hcode] at hq
    have hl : .starvation ∈ l := (List.mem_cons.mp hq).resolve_left (Ne.symm hop)
    rcases he.self with ⟨rfl, -⟩ | ⟨pre, -, hself, -⟩
    · exact absurd hl (h.tail hcode rfl)
    · rw [hself]
      exact List.mem_append_right pre hl
  · rcases he.others q hqp with hsame | ⟨rfl, -⟩
    · rwa [hsame]
    · have hembryo := hinv.own.owned p q (owns_of_head hcode rfl)
      exact absurd hq (h.gone q (.inr (.inl hembryo)))

/-- A step that executes no operation of a process only puts code before what is left to do. -/
structure Aside (m m' : Machine) : Prop where
  mild : Mild m.kernel m'.kernel
  code : ∀ q, ∃ pre, m'.code q = pre ++ m.code q ∧ .starvation ∉ pre ∧
    ((∀ o ∈ pre, o.last = false) ∨ m.code q = [])

theorem Aside.same (hk : Mild m.kernel m'.kernel) (hcode : m'.code = m.code) : Aside m m' :=
  ⟨hk, fun q => ⟨[], by rw [hcode]; rfl, by simp, .inl (by simp)⟩⟩

theorem Aside.put {pre : List Op} (hpre : .starvation ∉ pre)
    (hlast : (∀ o ∈ pre, o.last = false) ∨ m.code p = []) :
    Aside m (m.setCode p (pre ++ m.code p)) := by
  refine ⟨.refl _, fun q => ?_⟩
  by_cases hqp : q = p
  · subst hqp
    exact ⟨pre, Function.update_self .., hpre, hlast⟩
  · exact ⟨[], Function.update_of_ne hqp _ _, by simp, .inl (by simp)⟩

theorem interrupt_tests (c : ℕ) (user : Bool) (i : Interrupt) : .starvation ∉ i.code c user := by
  cases i with
  | timer => by_cases hc : c = 0 <;> simp [Interrupt.code, timer, wakeup, hc]
  | wakeup chan => simp [Interrupt.code, wakeup]

theorem interrupt_last (c : ℕ) (i : Interrupt) : ∀ o ∈ i.code c false, o.last = false := by
  cases i with
  | timer => by_cases hc : c = 0 <;> simp [Interrupt.code, timer, wakeup, hc, Op.last]
  | wakeup chan => simp [Interrupt.code, wakeup, Op.last]

theorem call_tests (s : Call) : .starvation ∉ s.code := by
  cases s <;> simp [Call.code, fork, exit, wait, kill, sleep, goToSleep, sys_sleep, sys_uptime]

theorem schedStep_aside (hs : schedStep m c = some m') : Aside m m' := by
  unfold schedStep at hs
  simp only at hs
  split at hs
  · obtain rfl := Option.some.inj (Option.ite_none_right_eq_some.mp hs).2
    exact .same (.refl _) rfl
  · obtain rfl := Option.some.inj hs
    exact .same (.refl _) rfl
  · next q rest _ =>
    split at hs
    · obtain rfl := Option.some.inj hs
      exact .same (.refl _) rfl
    · split at hs
      · obtain rfl := Option.some.inj hs
        exact .same (.of_wakes (.of_states (fun _ => rfl) rfl) rfl) rfl
      · split at hs
        · obtain rfl := Option.some.inj hs
          exact .same (.refl _) rfl
        · obtain rfl := Option.some.inj hs
          exact .same ⟨fun _ hg => hg, rfl⟩ rfl
  · next d _ =>
    obtain rfl := Option.some.inj hs
    exact .same (mild_setState _ d.p fun hg => by rcases hg with hg | hg | hg <;> cases hg) rfl
  · obtain rfl := Option.some.inj (Option.ite_none_right_eq_some.mp hs).2
    exact .same (.refl _) rfl
  · obtain rfl := Option.some.inj hs
    exact .same (.refl _) rfl
  · next d xticks _ =>
    obtain rfl := Option.some.inj (Option.ite_none_right_eq_some.mp hs).2
    exact .same (mild_setProc m.kernel d.p { m.kernel.proc d.p with lastTick := xticks } rfl) rfl
  · obtain rfl := Option.some.inj hs
    exact .same (.refl _) rfl
  · obtain rfl := Option.some.inj hs
    exact .same (.refl _) rfl
  · next d _ =>
    obtain rfl := Option.some.inj hs
    exact .same (mild_afterSwtch _ c d) rfl
  · obtain rfl := Option.some.inj (Option.ite_none_right_eq_some.mp hs).2
    exact .same (.refl _) rfl

theorem execIdle_aside (hs : execIdle m c op l = some m') : Aside m m' := by
  have hshared : (execShared m c op).map (fun m => m.setIntr c l) = some m' → Aside m m' := by
    intro he
    obtain ⟨n, hn, rfl⟩ := Option.map_eq_some_iff.mp he
    obtain ⟨hcode, hk⟩ := execShared_mild hn
    exact .same hk hcode
  cases op with
  | checkKilled user =>
      obtain rfl := Option.some.inj hs
      exact .same (.refl _) rfl
  | charge =>
      obtain rfl := Option.some.inj hs
      exact .same (.refl _) rfl
  | _ => exact hshared hs

/-- Every step executes one operation of a process or is aside. -/
theorem step_effect {a : Label} (h : m.Inv) (hs : step m a = some m') :
    (∃ p op l, m.nextOp a = some (p, op) ∧ m.code p = op :: l ∧
      (op = .charge → states m.kernel p = .RUNNING) ∧ Effect m m' p op l) ∨
      m.nextOp a = none ∧ Aside m m' := by
  cases a with
  | go c ok =>
      simp only [step] at hs
      split at hs
      · next p hp =>
        split at hs
        · cases hs
        · next op l hcode =>
          refine .inl ⟨p, op, l, ?_, hcode, states_running h hp hcode, exec_effect h hp hcode hs⟩
          simp [Machine.nextOp, hp, hcode]
      · next hp =>
        refine .inr ⟨by simp [Machine.nextOp, hp], ?_⟩
        split at hs
        · exact schedStep_aside hs
        · exact execIdle_aside hs
  | interrupt c i =>
      refine .inr ⟨rfl, ?_⟩
      obtain ⟨-, hs⟩ := Option.ite_none_left_eq_some.mp hs
      split at hs
      · next p hp =>
        obtain rfl := Option.some.inj hs
        refine .put (interrupt_tests c _ i) ?_
        cases hcode : m.code p with
        | nil => exact .inr rfl
        | cons op l => exact .inl (interrupt_last c i)
      · obtain rfl := Option.some.inj hs
        exact .same (.refl _) rfl
  | call c s =>
      refine .inr ⟨rfl, ?_⟩
      simp only [step] at hs
      split at hs
      · next p hp =>
        obtain ⟨hnil, hs⟩ := Option.ite_none_right_eq_some.mp hs
        obtain rfl := Option.some.inj hs
        have hput : Aside m (m.setCode p (s.code ++ m.code p)) := .put (call_tests s) (.inr hnil)
        rwa [hnil, List.append_nil] at hput
      · cases hs

theorem Aside.kept (ha : Aside m m') (h : Kept m) : Kept m' := by
  refine ⟨fun q => ?_, fun q hq => ?_⟩
  · obtain ⟨pre, hcode, htest, hlast⟩ := ha.code q
    rw [hcode, List.pairwise_append]
    refine ⟨List.pairwise_of_forall_mem_list fun o _ o' ho' _ => ?_, h.last q, fun o ho o' ho' => ?_⟩
    · rintro rfl
      exact htest ho'
    · rcases hlast with hlast | hnil
      · intro hl
        cases (hlast o ho).symm.trans hl
      · rw [hnil] at ho'
        cases ho'
  · obtain ⟨pre, hcode, htest, -⟩ := ha.code q
    rw [hcode]
    intro hmem
    rcases List.mem_append.mp hmem with hmem | hmem
    · exact htest hmem
    · exact h.gone q (ha.mild.gone q hq) hmem

theorem Aside.due (ha : Aside m m') (hd : m.Due) : m'.Due := by
  obtain ⟨q, hq⟩ := hd
  obtain ⟨pre, hcode, -⟩ := ha.code q
  exact ⟨q, hcode ▸ List.mem_append_right pre hq⟩

/-! ## The counter -/

/-- The counter is what has been counted since the last check, and at 100 the check is due. -/
structure Trigger (s : Counted) : Prop where
  inv : s.machine.Inv
  kept : Kept s.machine
  le : s.machine.kernel.starvTicks ≤ 100
  due : s.machine.kernel.starvTicks = 100 → s.machine.Due
  count : s.counted = 100 * s.checked + s.machine.kernel.starvTicks

theorem counts_of_op {a : Label} (hop : m.nextOp a = some (p, op)) (hc : op ≠ .charge) :
    m.counts a = false := by
  unfold Machine.counts
  rw [hop]
  cases op <;> first | rfl | contradiction

theorem checks_of_op {a : Label} (hop : m.nextOp a = some (p, op)) (hc : op ≠ .starvation) :
    m.checks a = false := by
  unfold Machine.checks
  rw [hop]
  cases op <;> first | rfl | contradiction

theorem counts_charge {a : Label} (hop : m.nextOp a = some (p, .charge))
    (hrun : states m.kernel p = .RUNNING) : m.counts a = true := by
  unfold Machine.counts
  rw [hop]
  exact decide_eq_true hrun

/-- The step `100 == starvTicks`: the counter restarts, or stays what it is. -/
theorem checks_starvation {a : Label} (hop : m.nextOp a = some (p, .starvation)) (running : Prop)
    [Decidable running] (hle : m.kernel.starvTicks ≤ 100) :
    ticked m.kernel.starvTicks running .starvation + 100 * (m.checks a).toNat =
      m.kernel.starvTicks ∧ ticked m.kernel.starvTicks running .starvation < 100 := by
  have hchecks : m.checks a = decide (m.kernel.starvTicks = 100) := by
    unfold Machine.checks
    rw [hop]
  rw [hchecks]
  unfold ticked
  by_cases hfull : m.kernel.starvTicks = 100
  · simp [hfull]
  · simp only [hfull, if_false, decide_false, Bool.toNat_false]
    omega

theorem countStep_trigger {s t : Counted} {a : Label} (h : Trigger s) (hok : CheckedFirst s a)
    (hs : countStep s a = some t) : Trigger t := by
  obtain ⟨m', hm, rfl⟩ := Option.map_eq_some_iff.mp hs
  have hinv' : m'.Inv := step_inv h.inv hm
  have hle := h.le
  have hcount := h.count
  rcases step_effect h.inv hm with ⟨p, op, l, hop, hcode, hrun, heff⟩ | ⟨hop, ha⟩
  · have hkept' : Kept m' := heff.kept h.kept hcode hrun
    have hstarv := heff.starv
    by_cases hc : op = .charge
    · subst hc
      have hcounts := counts_charge hop (hrun rfl)
      have hchecks := checks_of_op hop (by simp)
      -- at 100 the comparison is due, and the condition keeps this step away
      have hlt : s.machine.kernel.starvTicks ≠ 100 := fun hfull => hok hcounts hfull (h.due hfull)
      have hnext : m'.kernel.starvTicks = s.machine.kernel.starvTicks + 1 := by
        rw [hstarv]
        refine (if_pos (hrun rfl)).trans (Nat.mod_eq_of_lt ?_)
        omega
      refine ⟨hinv', hkept', ?_, fun _ => ⟨p, ?_⟩, ?_⟩
      · change m'.kernel.starvTicks ≤ 100
        omega
      · rcases heff.self with ⟨hno, -⟩ | ⟨pre, -, hself, htest⟩
        · cases hno
        · change _ ∈ m'.code p
          rw [hself]
          exact List.mem_append_left l (htest rfl (hrun rfl))
      · change s.counted + _ = 100 * (s.checked + _) + m'.kernel.starvTicks
        rw [hcounts, hchecks, hnext, Bool.toNat_true, Bool.toNat_false]
        omega
    · have hcounts := counts_of_op hop hc
      by_cases ht : op = .starvation
      · subst ht
        obtain ⟨hsum, hlt⟩ := checks_starvation hop (states s.machine.kernel p = .RUNNING) hle
        rw [← hstarv] at hsum hlt
        refine ⟨hinv', hkept', Nat.le_of_lt hlt, fun hfull => absurd hfull (Nat.ne_of_lt hlt), ?_⟩
        change s.counted + _ = 100 * (s.checked + _) + m'.kernel.starvTicks
        rw [hcounts, Bool.toNat_false]
        omega
      · have hchecks := checks_of_op hop ht
        have hsame : m'.kernel.starvTicks = s.machine.kernel.starvTicks :=
          hstarv.trans (ticked_of_ne hc ht)
        refine ⟨hinv', hkept', hsame ▸ hle, fun hfull => ?_, ?_⟩
        · exact heff.due h.kept h.inv hcode ht (h.due (hsame ▸ hfull))
        · change s.counted + _ = 100 * (s.checked + _) + m'.kernel.starvTicks
          rw [hcounts, hchecks, hsame]
          exact hcount
  · have hcounts : s.machine.counts a = false := by
      unfold Machine.counts
      rw [hop]
    have hchecks : s.machine.checks a = false := by
      unfold Machine.checks
      rw [hop]
    have hsame := ha.mild.starv
    refine ⟨hinv', ha.kept h.kept, hsame ▸ hle, fun hfull => ha.due (h.due (hsame ▸ hfull)), ?_⟩
    change s.counted + _ = 100 * (s.checked + _) + m'.kernel.starvTicks
    rw [hcounts, hchecks, hsame]
    exact hcount

theorem boot_trigger (qs : Queues) : Trigger { machine := boot qs } := by
  have hcode : ∀ p, (boot qs).code p = forkret ∨ (boot qs).code p = [] := by
    intro p
    unfold boot
    dsimp only
    split
    · exact .inl rfl
    · exact .inr rfl
  refine ⟨boot_inv qs, ⟨fun p => ?_, fun p _ => ?_⟩, ?_, ?_, ?_⟩
  · rcases hcode p with hp | hp
    · rw [hp]
      exact List.pairwise_singleton _ _
    · rw [hp]
      exact List.Pairwise.nil
  · rcases hcode p with hp | hp
    · rw [hp]
      exact not_mem_forkret
    · rw [hp]
      exact List.not_mem_nil
  · exact Nat.zero_le 100
  · intro hfull
    cases hfull
  · rfl

/-- A step that breaks the condition takes the counter past 100. -/
theorem le_iff_checkedFirst {s t : Counted} {a : Label} (h : Trigger s)
    (hs : countStep s a = some t) : t.machine.kernel.starvTicks ≤ 100 ↔ CheckedFirst s a := by
  refine ⟨fun hle hcounts hfull _ => ?_, fun hok => (countStep_trigger h hok hs).le⟩
  obtain ⟨m', hm, rfl⟩ := Option.map_eq_some_iff.mp hs
  rcases step_effect h.inv hm with ⟨p, op, l, hop, -, hrun, heff⟩ | ⟨hop, -⟩
  · by_cases hc : op = .charge
    · subst hc
      have hstarv : m'.kernel.starvTicks = (s.machine.kernel.starvTicks + 1) % 2 ^ 32 :=
        heff.starv.trans (if_pos (hrun rfl))
      rw [hfull] at hstarv
      exact absurd (hstarv ▸ hle) (by decide)
    · cases (counts_of_op hop hc).symm.trans hcounts
  · unfold Machine.counts at hcounts
    rw [hop] at hcounts
    cases hcounts

/-- The counter never passes 100, there is one check for every 100 counted ticks, and at 100 the
check is due; the condition is needed for every step. -/
theorem trigger_of_run (qs : Queues) {s : Counted}
    (h : Run countStep CheckedFirst { machine := boot qs } s) :
    s.machine.kernel.starvTicks ≤ 100 ∧
      s.counted = 100 * s.checked + s.machine.kernel.starvTicks ∧
      (s.machine.kernel.starvTicks = 100 → s.machine.Due) ∧
      ∀ a t, countStep s a = some t →
        (t.machine.kernel.starvTicks ≤ 100 ↔ CheckedFirst s a) := by
  have htrig : Trigger s := h.invariant (boot_trigger qs) fun _ _ _ hi hok hs =>
    countStep_trigger hi hok hs
  exact ⟨htrig.le, htrig.count, htrig.due, fun _ _ hs => le_iff_checkedFirst htrig hs⟩

end

/-! ## A CPU in user mode -/

/-- Interrupts come in while a process is in user mode. -/
def InUserMode (m : Machine) : Label → Prop
  | .interrupt c _ => ∃ p, m.stack c = some p ∧ m.code p = []
  | _ => True

/-- The conditions on runs under which a CPU in user mode can count ticks up to the hundredth. -/
structure Admits (ok : Machine → Label → Prop) : Prop where
  quiet : ∀ m c, m.counts (.go c true) = false → ok m (.go c true)
  low : ∀ m c, m.kernel.starvTicks < 100 → ok m (.go c true)
  timer : ∀ m c p, m.stack c = some p → m.code p = [] → ok m (.interrupt c .timer)

theorem admits_inUserMode : Admits InUserMode :=
  ⟨fun _ _ _ => trivial, fun _ _ _ => trivial, fun _ _ p hs hc => ⟨p, hs, hc⟩⟩

theorem admits_checkedFirst : Admits fun m a => CheckedFirst { machine := m } a where
  quiet _ _ hno hcounts := absurd (hno.symm.trans hcounts) Bool.false_ne_true
  low _ _ hlt _ hfull := absurd hfull (Nat.ne_of_lt hlt)
  timer _ _ _ _ _ hcounts := absurd hcounts Bool.false_ne_true

/-- What one CPU and one process have changed of the machine `m`. -/
structure Local where
  kernel : Kernel
  lock : Option ℕ := none
  ticksLock : Option ℕ := none
  stack : Option ProcId
  cr3 : Option ProcId
  pc : SchedPc
  code : List Op

def Machine.at (m : Machine) (c : ℕ) (p : ProcId) (s : Local) : Machine :=
  { m with
    kernel := s.kernel
    lock := s.lock
    ticksLock := s.ticksLock
    stack := Function.update m.stack c s.stack
    cr3 := Function.update m.cr3 c s.cr3
    sched := Function.update m.sched c s.pc
    code := Function.update m.code p s.code }

section
variable {ok : Machine → Label → Prop} {m : Machine} {k : Kernel} {c : ℕ} {p : ProcId} {op : Op}
  {l : List Op} {s t : Local} {d : Dispatch}

theorem at_setCode (l : List Op) : (m.at c p s).setCode p l = m.at c p { s with code := l } := by
  simp [Machine.at, Machine.setCode]

theorem at_next (k : Kernel) (l : List Op) :
    (m.at c p s).next p k l = m.at c p { s with kernel := k, code := l } := by
  simp [Machine.at, Machine.next, Machine.setCode, Machine.setKernel]

theorem at_setSched (pc : SchedPc) :
    (m.at c p s).setSched c pc = m.at c p { s with pc := pc } := by
  simp [Machine.at, Machine.setSched]

/-- One step of the process on the CPU. -/
theorem at_op (hstack : s.stack = some p) (hcode : s.code = op :: l)
    (hgo : ok (m.at c p s) (.go c true))
    (he : exec (m.at c p s) c p true op l = some (m.at c p t)) :
    Run step ok (m.at c p s) (m.at c p t) := by
  refine .single (.go c true) hgo ?_
  have hs : (m.at c p s).stack c = some p := (Function.update_self ..).trans hstack
  have hc : (m.at c p s).code p = op :: l := (Function.update_self ..).trans hcode
  simp only [step, hs, hc]
  exact he

theorem at_quiet (hok : Admits ok) (hstack : s.stack = some p) (hcode : s.code = op :: l)
    (hop : op ≠ .charge) : ok (m.at c p s) (.go c true) := by
  apply hok.quiet
  have hs : (m.at c p s).stack c = some p := (Function.update_self ..).trans hstack
  have hc : (m.at c p s).code p = op :: l := (Function.update_self ..).trans hcode
  have hnext : (m.at c p s).nextOp (.go c true) = some (p, op) := by
    simp [Machine.nextOp, hs, hc]
  exact counts_of_op hnext hop

/-- One step of the `scheduler` of the CPU. -/
theorem at_sched (hok : Admits ok) (hintr : m.intr c = []) (hstack : s.stack = none)
    (he : schedStep (m.at c p s) c = some (m.at c p t)) :
    Run step ok (m.at c p s) (m.at c p t) := by
  have hs : (m.at c p s).stack c = none := (Function.update_self ..).trans hstack
  have hnext : (m.at c p s).nextOp (.go c true) = none := by
    simp [Machine.nextOp, hs]
  refine .single (.go c true) (hok.quiet _ _ (by simp only [Machine.counts, hnext])) ?_
  have hi : (m.at c p s).intr c = [] := hintr
  simp only [step, hs, hi]
  exact he

theorem at_pc : (m.at c p s).sched c = s.pc := Function.update_self ..

theorem at_interrupt (hok : Admits ok) (hc : c ≠ 0) (hs : s.stack = some p) (hl : s.lock = none)
    (ht : s.ticksLock = none) (hcode : s.code = []) :
    Run step ok (m.at c p s)
      (m.at c p { s with code := [.checkKilled true, .charge, .checkKilled true] }) := by
  have hstack : (m.at c p s).stack c = some p := (Function.update_self ..).trans hs
  have hnil : (m.at c p s).code p = [] := (Function.update_self ..).trans hcode
  refine .single (.interrupt c .timer) (hok.timer _ _ _ hstack hnil) ?_
  have hlock : (m.at c p s).lock = none := hl
  have hticks : (m.at c p s).ticksLock = none := ht
  simp only [step, hlock, hticks, hstack, hnil]
  rw [if_neg (by simp)]
  simp only [Interrupt.code, timer, if_neg hc, List.isEmpty_nil, List.nil_append, List.append_nil]
  rw [at_setCode]

theorem at_checkKilled {user : Bool} (hok : Admits ok) (hs : s.stack = some p)
    (hcode : s.code = .checkKilled user :: l)
    (hkill : (s.kernel.proc p).killed = false) :
    Run step ok (m.at c p s) (m.at c p { s with code := l }) := by
  refine at_op hs hcode (at_quiet hok hs hcode Op.noConfusion) ?_
  have hno : ¬ (((m.at c p s).kernel.proc p).killed = true ∧ user = true) := by
    simp [Machine.at, hkill]
  simp only [exec, if_neg hno]
  exact congrArg some (at_next _ _)

theorem at_charge (hgo : ok (m.at c p s) (.go c true)) (hs : s.stack = some p)
    (hcode : s.code = .charge :: l)
    (hrun : (s.kernel.proc p).state = .RUNNING) :
    Run step ok (m.at c p s) (m.at c p
      { s with kernel := account s.kernel p, code := [.acquire, .starvation, .release] ++ yield ++ l }) := by
  refine at_op hs hcode hgo ?_
  have hrun' : ((m.at c p s).kernel.proc p).state = .RUNNING := hrun
  simp only [exec, if_pos hrun']
  exact congrArg some (at_next _ _)

theorem at_acquire (hok : Admits ok) (hs : s.stack = some p) (hcode : s.code = .acquire :: l)
    (hl : s.lock = none) :
    Run step ok (m.at c p s) (m.at c p { s with lock := some c, code := l }) := by
  refine at_op hs hcode (at_quiet hok hs hcode Op.noConfusion) ?_
  have hfree : (m.at c p s).lock = none := hl
  simp only [exec, execShared, if_pos hfree, Option.map_some]
  simp [Machine.at, Machine.setCode]

theorem at_release (hok : Admits ok) (hs : s.stack = some p) (hcode : s.code = .release :: l)
    (hl : s.lock = some c) :
    Run step ok (m.at c p s) (m.at c p { s with lock := none, code := l }) := by
  refine at_op hs hcode (at_quiet hok hs hcode Op.noConfusion) ?_
  have hheld : (m.at c p s).lock = some c := hl
  simp only [exec, execShared, if_pos hheld, Option.map_some]
  simp [Machine.at, Machine.setCode]

theorem at_starvation (hok : Admits ok) (hs : s.stack = some p) (hcode : s.code = .starvation :: l)
    (hne : s.kernel.starvTicks ≠ 100) :
    Run step ok (m.at c p s) (m.at c p { s with code := l }) := by
  refine at_op hs hcode (at_quiet hok hs hcode Op.noConfusion) ?_
  have hne' : (m.at c p s).kernel.starvTicks ≠ 100 := hne
  simp only [exec, if_neg hne']
  exact congrArg some (at_next _ _)

theorem at_setState {st : ProcState} (hok : Admits ok) (hs : s.stack = some p)
    (hcode : s.code = .setState st :: l) :
    Run step ok (m.at c p s)
      (m.at c p { s with kernel := s.kernel.setState p st, code := l }) :=
  at_op hs hcode (at_quiet hok hs hcode Op.noConfusion) (congrArg some (at_next _ _))

theorem at_leave (hok : Admits ok) (hs : s.stack = some p) (hcode : s.code = .sched :: l)
    (hl : s.lock = some c)
    (ht : s.ticksLock = none) (hst : (s.kernel.proc p).state ≠ .RUNNING) :
    Run step ok (m.at c p s) (m.at c p { s with stack := none, code := l }) := by
  refine at_op hs hcode (at_quiet hok hs hcode Op.noConfusion) ?_
  have hleave : (m.at c p s).lock = some c ∧ (m.at c p s).ticksLock ≠ some c ∧
      ((m.at c p s).kernel.proc p).state ≠ .RUNNING := ⟨hl, by simp [Machine.at, ht], hst⟩
  simp only [exec, if_pos hleave]
  simp [Machine.at]

/-- A timer interrupt up to the `swtch` of `sched`, not the hundredth. -/
theorem at_timer (hok : Admits ok) (hc : c ≠ 0) (hn : k.starvTicks + 1 < 100)
    (hrun : (k.proc p).state = .RUNNING)
    (hkill : (k.proc p).killed = false) :
    Run step ok (m.at c p ⟨k, none, none, some p, some p, .back d, []⟩)
      (m.at c p ⟨(account k p).setState p .RUNNABLE, some c, none, none, some p, .back d,
        [.release, .checkKilled true]⟩) := by
  have hlt : (account k p).starvTicks = k.starvTicks + 1 :=
    Nat.mod_eq_of_lt (by omega)
  have hne : (account k p).starvTicks ≠ 100 := by omega
  have hready : (((account k p).setState p .RUNNABLE).proc p).state ≠ .RUNNING := by
    simp [Kernel.setState, Kernel.setProc]
  refine (at_interrupt hok hc rfl rfl rfl rfl).trans ?_
  refine (at_checkKilled hok rfl rfl hkill).trans ?_
  refine (at_charge (hok.low _ _ (by show k.starvTicks < 100; omega)) rfl rfl hrun).trans ?_
  refine (at_acquire hok rfl rfl rfl).trans ?_
  refine (at_starvation hok rfl rfl hne).trans ?_
  refine (at_release hok rfl rfl rfl).trans ?_
  refine (at_acquire hok rfl rfl rfl).trans ?_
  refine (at_setState hok rfl rfl).trans ?_
  exact at_leave hok rfl rfl rfl rfl hready

/-- The kernel in which CPU `c` has chosen `d`. -/
def choose (k : Kernel) (c : ℕ) (d : Dispatch) : Kernel :=
  { k with cpu := Function.update k.cpu c { k.cpu c with current := some d } }

/-- No slot of `qs` makes a scan do anything but go on or choose `p`. -/
def Lone (k : Kernel) (p : ProcId) : Prop :=
  (k.proc p).state = .RUNNABLE ∧ ∀ x q, k.queues x = some q → q ≠ p → (k.proc q).state = .RUNNING

/-- From `switchkvm()` to the start of the next scan. -/
theorem at_back (hok : Admits ok) (hi : m.intr c = []) :
    Run step ok (m.at c p ⟨k, some c, none, none, some p, .back d, l⟩)
      (m.at c p ⟨afterSwtch k c d, some c, none, none, none,
        .scan (scanOrder ((afterSwtch k c d).cpu c).lastRR), l⟩) := by
  refine (at_sched hok (t := ⟨k, some c, none, none, none, .after d, l⟩) hi rfl ?_).trans ?_
  · simp only [schedStep, at_pc]
    simp [Machine.at, Machine.setSched]
  refine (at_sched hok (t := ⟨afterSwtch k c d, some c, none, none, none, .release, l⟩) hi rfl ?_).trans ?_
  · simp only [schedStep, at_pc]
    simp [Machine.at, Machine.setSched, Machine.setKernel]
  refine (at_sched hok (t := ⟨afterSwtch k c d, none, none, none, none, .loop, l⟩) hi rfl ?_).trans ?_
  · simp only [schedStep, at_pc]
    simp [Machine.at, Machine.setSched]
  refine at_sched hok hi rfl ?_
  simp only [schedStep, at_pc]
  simp [Machine.at]

theorem at_scan (hok : Admits ok) (hi : m.intr c = []) (hlone : Lone k p) {slots : List Slot} {x : Slot}
    (hx : x ∈ slots) (hp : k.queues x = some p) : ∃ y ∈ slots, k.queues y = some p ∧
    Run step ok (m.at c p ⟨k, some c, none, none, none, .scan slots, l⟩)
      (m.at c p ⟨choose k c ⟨y, p⟩, some c, none, none, some p, .run ⟨y, p⟩, l⟩) := by
  induction slots with
  | nil => cases hx
  | cons y rest ih =>
      by_cases hy : k.queues y = some p
      · refine ⟨y, List.mem_cons_self, hy, at_sched hok hi rfl ?_⟩
        have hq : (m.at c p ⟨k, some c, none, none, none, .scan (y :: rest), l⟩).kernel.queues y =
          some p := hy
        have hst : ((m.at c p ⟨k, some c, none, none, none, .scan (y :: rest), l⟩).kernel.proc p).state
          = .RUNNABLE := hlone.1
        simp only [schedStep, at_pc, hq, hst]
        simp [Machine.at, choose]
      · have hmem : x ∈ rest := by
          rcases List.mem_cons.mp hx with rfl | hx
          · exact absurd hp hy
          · exact hx
        obtain ⟨z, hz, hzp, hrun⟩ := ih hmem
        refine ⟨z, List.mem_cons_of_mem y hz, hzp, (at_sched hok hi rfl ?_).trans hrun⟩
        simp only [schedStep, at_pc]
        cases hq : k.queues y with
        | none =>
            have hq' : (m.at c p ⟨k, some c, none, none, none, .scan (y :: rest), l⟩).kernel.queues y =
              none := hq
            simp only [hq']
            exact congrArg some (at_setSched _)
        | some q =>
            have hq' : (m.at c p ⟨k, some c, none, none, none, .scan (y :: rest), l⟩).kernel.queues y =
              some q := hq
            have hne : q ≠ p := by
              rintro rfl
              exact hy hq
            have hst : ((m.at c p ⟨k, some c, none, none, none, .scan (y :: rest), l⟩).kernel.proc q).state
              = .RUNNING := hlone.2 y q hq hne
            simp only [hq', hst]
            exact congrArg some (at_setSched _)

/-- The kernel after the steps of a dispatch. -/
def dispatchKernel (k : Kernel) (p : ProcId) : Kernel :=
  (k.setState p .RUNNING).setProc p { (k.setState p .RUNNING).proc p with lastTick := k.ticks }

/-- From `p->state = RUNNING` to user mode. -/
theorem at_run (hok : Admits ok) (hi : m.intr c = []) {y : Slot} (hkill : (k.proc p).killed = false) :
    Run step ok
      (m.at c p ⟨k, some c, none, none, some p, .run ⟨y, p⟩, [.release, .checkKilled true]⟩)
      (m.at c p ⟨dispatchKernel k p, none, none, some p, some p, .back ⟨y, p⟩, []⟩) := by
  refine (at_sched hok (t := ⟨k.setState p .RUNNING, some c, none, none, some p, .uptime ⟨y, p⟩,
    [.release, .checkKilled true]⟩) hi rfl ?_).trans ?_
  · simp only [schedStep, at_pc]
    simp [Machine.at, Machine.setSched, Machine.setKernel]
  refine (at_sched hok (t := ⟨k.setState p .RUNNING, some c, some c, none, some p, .uptimeRead ⟨y, p⟩,
    [.release, .checkKilled true]⟩) hi rfl ?_).trans ?_
  · simp only [schedStep, at_pc]
    simp [Machine.at, Machine.setSched]
  refine (at_sched hok (t := ⟨k.setState p .RUNNING, some c, some c, none, some p,
    .uptimeDone ⟨y, p⟩ k.ticks, [.release, .checkKilled true]⟩) hi rfl ?_).trans ?_
  · simp only [schedStep, at_pc]
    exact congrArg some (at_setSched _)
  refine (at_sched hok (t := ⟨dispatchKernel k p, some c, none, none, some p, .swtch ⟨y, p⟩,
    [.release, .checkKilled true]⟩) hi rfl ?_).trans ?_
  · simp only [schedStep, at_pc]
    simp [Machine.at, Machine.setSched, Machine.setKernel, dispatchKernel]
  refine (at_sched hok (t := ⟨dispatchKernel k p, some c, none, some p, some p, .back ⟨y, p⟩,
    [.release, .checkKilled true]⟩) hi rfl ?_).trans ?_
  · simp only [schedStep, at_pc]
    simp [Machine.at, Machine.setSched]
  refine (at_release hok rfl rfl rfl).trans ?_
  refine at_checkKilled hok rfl rfl ?_
  simp [dispatchKernel, Kernel.setState, Kernel.setProc, hkill]

/-- `d.p` runs on CPU `c`, and every other queued process on a CPU of its own. -/
structure Alone (k : Kernel) (c : ℕ) (d : Dispatch) : Prop where
  running : (k.proc d.p).state = .RUNNING
  alive : (k.proc d.p).killed = false
  others : ∀ x q, k.queues x = some q → q ≠ d.p → (k.proc q).state = .RUNNING
  single : Single IsSlot k.queues
  slot : IsSlot d.q
  queued : k.queues d.q = some d.p
  lastRR : ∀ i ∈ (k.cpu c).lastRR, i < NPROC

/-- The same when `d.p` has given the CPU up. -/
structure Waiting (k k' : Kernel) (c : ℕ) (p : ProcId) : Prop where
  ready : (k'.proc p).state = .RUNNABLE
  alive : (k'.proc p).killed = false
  rest : ∀ q, q ≠ p → k'.proc q = k.proc q
  starv : k'.starvTicks = k.starvTicks + 1
  kept : ∀ x q, q ≠ p → k'.queues x = some q → k.queues x = some q
  single : Single IsSlot k'.queues
  queued : ∃ x, IsSlot x ∧ k'.queues x = some p
  lastRR : ∀ i ∈ (k'.cpu c).lastRR, i < NPROC

theorem afterSwtch_waiting (h : Alone k c d) (hn : k.starvTicks + 1 < 100) :
    Waiting k (afterSwtch ((account k d.p).setState d.p .RUNNABLE) c d) c d.p := by
  have hrest : ∀ q, q ≠ d.p → ((account k d.p).setState d.p .RUNNABLE).proc q = k.proc q := by
    intro q hq
    simp [Kernel.setState, Kernel.setProc, account, hq]
  have hready : (((account k d.p).setState d.p .RUNNABLE).proc d.p).state = .RUNNABLE := by
    simp [Kernel.setState, Kernel.setProc]
  have halive : (((account k d.p).setState d.p .RUNNABLE).proc d.p).killed = false := by
    simp [Kernel.setState, Kernel.setProc, account, h.alive]
  have hstarv : ((account k d.p).setState d.p .RUNNABLE).starvTicks = k.starvTicks + 1 :=
    Nat.mod_eq_of_lt (by omega)
  have hqueues : ((account k d.p).setState d.p .RUNNABLE).queues = k.queues := rfl
  have hcpu : ((account k d.p).setState d.p .RUNNABLE).cpu = k.cpu := rfl
  generalize (account k d.p).setState d.p .RUNNABLE = w at hrest hready halive hstarv hqueues hcpu
  unfold afterSwtch
  simp only
  split
  · split
    · next hrow =>
      have hmoved := clear_enqueue_moved (hqueues ▸ h.single) h.slot (hqueues ▸ h.queued)
        (show d.q.1 + 1 < 4 by omega)
      obtain ⟨x, hx, hxp⟩ := hmoved.here
      refine ⟨?_, ?_, fun q hq => ?_, hstarv, fun x q hq hxq => ?_, hmoved.single, ⟨x, hx, hxp⟩, ?_⟩
      · simpa [Kernel.setProc] using hready
      · simpa [Kernel.setProc] using halive
      · simpa [Kernel.setProc, hq] using hrest q hq
      · exact hqueues ▸ (hmoved.others x q hq).mp hxq
      · simpa [hcpu] using h.lastRR
    · refine ⟨?_, ?_, fun q hq => ?_, hstarv, fun x q _ hxq => hqueues ▸ hxq, hqueues ▸ h.single,
        ⟨d.q, h.slot, hqueues ▸ h.queued⟩, ?_⟩
      · simpa [Kernel.setProc] using hready
      · simpa [Kernel.setProc] using halive
      · simpa [Kernel.setProc, hq] using hrest q hq
      · have hlt := h.slot.2
        intro i hi
        simp only [Function.update_self, Option.mem_def, Option.some.injEq] at hi
        subst hi
        split <;> omega
  · refine ⟨hready, halive, hrest, hstarv, fun x q _ hxq => hqueues ▸ hxq, hqueues ▸ h.single,
      ⟨d.q, h.slot, hqueues ▸ h.queued⟩, ?_⟩
    simpa [hcpu] using h.lastRR

theorem dispatch_alone {k k' : Kernel} {y : Slot} (h : Alone k c d) (hw : Waiting k k' c d.p)
    (hy : IsSlot y) (hq : k'.queues y = some d.p) :
    Alone (dispatchKernel (choose k' c ⟨y, d.p⟩) d.p) c ⟨y, d.p⟩ where
  running := by simp [dispatchKernel, Kernel.setState, Kernel.setProc]
  alive := by simp [dispatchKernel, Kernel.setState, Kernel.setProc, choose, hw.alive]
  others := by
    intro x q hxq hne
    have hne' : q ≠ d.p := hne
    have hk : ((dispatchKernel (choose k' c ⟨y, d.p⟩) d.p).proc q) = k'.proc q := by
      simp [dispatchKernel, Kernel.setState, Kernel.setProc, choose, hne']
    rw [hk, hw.rest q hne']
    exact h.others x q (hw.kept x q hne' hxq) hne'
  single := hw.single
  slot := hy
  queued := hq
  lastRR := by
    have hcpu : ((dispatchKernel (choose k' c ⟨y, d.p⟩) d.p).cpu c).lastRR = (k'.cpu c).lastRR := by
      simp [dispatchKernel, Kernel.setState, Kernel.setProc, choose]
    rw [hcpu]
    exact hw.lastRR

/-- A tick that is not the hundredth, and back to user mode. -/
theorem at_tick (hok : Admits ok) (hi : m.intr c = []) (hc : c ≠ 0) (h : Alone k c d)
    (hn : k.starvTicks + 1 < 100) :
    ∃ k' y, Alone k' c ⟨y, d.p⟩ ∧ k'.starvTicks = k.starvTicks + 1 ∧
      (∀ q, q ≠ d.p → k'.proc q = k.proc q) ∧
      Run step ok (m.at c d.p ⟨k, none, none, some d.p, some d.p, .back d, []⟩)
        (m.at c d.p ⟨k', none, none, some d.p, some d.p, .back ⟨y, d.p⟩, []⟩) := by
  have hw := afterSwtch_waiting h hn
  have htimer := at_timer (m := m) (d := d) hok hc hn h.running h.alive
  have hback := at_back (m := m) (p := d.p) (d := d) (l := [.release, .checkKilled true])
    (k := (account k d.p).setState d.p .RUNNABLE) hok hi
  generalize afterSwtch ((account k d.p).setState d.p .RUNNABLE) c d = k' at hw hback
  have hlone : Lone k' d.p := by
    refine ⟨hw.ready, fun x q hxq hne => ?_⟩
    rw [hw.rest q hne]
    exact h.others x q (hw.kept x q hne hxq) hne
  obtain ⟨x, hx, hxp⟩ := hw.queued
  obtain ⟨y, hy, hyp, hscan⟩ := at_scan (m := m) (l := [.release, .checkKilled true]) hok hi hlone
    ((mem_scanOrder hw.lastRR).mpr hx) hxp
  have hrun := at_run (m := m) (k := choose k' c ⟨y, d.p⟩) (p := d.p) hok hi (y := y) hw.alive
  refine ⟨_, y, dispatch_alone h hw ((mem_scanOrder hw.lastRR).mp hy) hyp, hw.starv, fun q hq => ?_,
    htimer.trans (hback.trans (hscan.trans hrun))⟩
  rw [← hw.rest q hq]
  simp [dispatchKernel, Kernel.setState, Kernel.setProc, choose, hq]

/-- Ticks up to the ninety-ninth. -/
theorem at_ticks (hok : Admits ok) (hi : m.intr c = []) (hc : c ≠ 0) (h : Alone k c d) (n : ℕ)
    (hn : k.starvTicks + n < 100) :
    ∃ k' y, Alone k' c ⟨y, d.p⟩ ∧ k'.starvTicks = k.starvTicks + n ∧
      (∀ q, q ≠ d.p → k'.proc q = k.proc q) ∧
      Run step ok (m.at c d.p ⟨k, none, none, some d.p, some d.p, .back d, []⟩)
        (m.at c d.p ⟨k', none, none, some d.p, some d.p, .back ⟨y, d.p⟩, []⟩) := by
  induction n with
  | zero => exact ⟨k, d.q, h, rfl, fun _ _ => rfl, .refl⟩
  | succ n ih =>
      obtain ⟨k₁, y₁, h₁, hstarv₁, hrest₁, hrun₁⟩ := ih (by omega)
      obtain ⟨k₂, y₂, h₂, hstarv₂, hrest₂, hrun₂⟩ := at_tick (m := m) hok hi hc h₁ (by omega)
      refine ⟨k₂, y₂, h₂, by omega, fun q hq => ?_, hrun₁.trans hrun₂⟩
      rw [hrest₂ q hq, hrest₁ q hq]

theorem at_same (m : Machine) (c : ℕ) (p : ProcId) :
    m.at c p ⟨m.kernel, m.lock, m.ticksLock, m.stack c, m.cr3 c, m.sched c, m.code p⟩ = m := by
  simp [Machine.at]

/-- The hundredth tick, up to its check. -/
theorem at_hundredth (hok : Admits ok) (hc : c ≠ 0) (hn : k.starvTicks = 99)
    (hrun : (k.proc p).state = .RUNNING) (hkill : (k.proc p).killed = false) :
    Run step ok (m.at c p ⟨k, none, none, some p, some p, .back d, []⟩)
      (m.at c p ⟨account k p, some c, none, some p, some p, .back d,
        .starvation :: .release :: yield ++ [.checkKilled true]⟩) := by
  refine (at_interrupt hok hc rfl rfl rfl rfl).trans ?_
  refine (at_checkKilled hok rfl rfl hkill).trans ?_
  refine (at_charge (hok.low _ _ (by show k.starvTicks < 100; omega)) rfl rfl hrun).trans ?_
  exact at_acquire hok rfl rfl rfl

/-- The check is made, and the counter starts again. -/
theorem countStep_check (hs : s.stack = some p) (hcode : s.code = .starvation :: l)
    (hn : s.kernel.starvTicks = 100) (counted checked : ℕ) :
    ∃ m', countStep ⟨m.at c p s, counted, checked⟩ (.go c true) = some ⟨m', counted, checked + 1⟩ ∧
      m'.kernel.starvTicks = 0 := by
  have hstack : (m.at c p s).stack c = some p := (Function.update_self ..).trans hs
  have hfirst : (m.at c p s).code p = .starvation :: l := (Function.update_self ..).trans hcode
  have hfull : (m.at c p s).kernel.starvTicks = 100 := hn
  have hnext : (m.at c p s).nextOp (.go c true) = some (p, .starvation) := by
    simp [Machine.nextOp, hstack, hfirst]
  have hcounts := counts_of_op hnext Op.noConfusion
  have hchecks : (m.at c p s).checks (.go c true) = true := by
    unfold Machine.checks
    rw [hnext]
    exact decide_eq_true hfull
  refine ⟨(m.at c p s).next p { (m.at c p s).kernel with starvTicks := 0 } (.acquireTicks :: .now :: l),
    ?_, rfl⟩
  simp only [countStep, step, hstack, hfirst, exec, if_pos hfull, Option.map_some, hcounts, hchecks]
  rfl

theorem counted_of_run {m' : Machine} (h : Run step (fun m a => CheckedFirst { machine := m } a) m m')
    (counted checked : ℕ) :
    ∃ n j, Run countStep CheckedFirst ⟨m, counted, checked⟩ ⟨m', n, j⟩ := by
  induction h with
  | refl => exact ⟨counted, checked, .refl⟩
  | tail a _ hok hs ih =>
      obtain ⟨n, j, hrun⟩ := ih
      exact ⟨_, _, hrun.tail a hok (congrArg (Option.map _) hs)⟩

/-- `starvTicks++` on a CPU in user mode. -/
theorem charge_user {c : ℕ} (hc : c ≠ 0) (hl : m.lock = none) (ht : m.ticksLock = none)
    (hs : m.stack c = some p) (hcode : m.code p = []) (hrun : (m.kernel.proc p).state = .RUNNING)
    (hkill : (m.kernel.proc p).killed = false) :
    ∃ m', Run step InUserMode m m' ∧ m'.kernel = account m.kernel p ∧ m'.lock = none ∧
      m'.ticksLock = none ∧ (∀ c', m'.stack c' = m.stack c') ∧ ∀ q, q ≠ p → m'.code q = m.code q := by
  have hrun' := (at_interrupt admits_inUserMode (m := m) (c := c) (p := p)
    (s := ⟨m.kernel, m.lock, m.ticksLock, m.stack c, m.cr3 c, m.sched c, m.code p⟩) hc hs hl ht hcode).trans
      ((at_checkKilled admits_inUserMode
        (s := ⟨m.kernel, m.lock, m.ticksLock, m.stack c, m.cr3 c, m.sched c, _⟩) hs rfl hkill).trans
          (at_charge trivial
            (s := ⟨m.kernel, m.lock, m.ticksLock, m.stack c, m.cr3 c, m.sched c, _⟩) hs rfl hrun))
  rw [at_same] at hrun'
  refine ⟨_, hrun', rfl, hl, ht, fun c' => ?_, fun q hq => Function.update_of_ne hq _ _⟩
  simp [Machine.at]

/-- Two CPUs in user mode count the hundredth tick and the next before either makes the comparison. -/
theorem count_past (hi : m.intr c = []) (hc : c ≠ 0) (hm : m = m.at c d.p
      ⟨k, none, none, some d.p, some d.p, .back d, []⟩) (h : Alone k c d) (hn : k.starvTicks < 100)
    {e : ℕ} {q : ProcId} (he : e ≠ 0) (hne : e ≠ c) (hqp : q ≠ d.p) (hs : m.stack e = some q)
    (hcode : m.code q = []) (hrun : (k.proc q).state = .RUNNING)
    (hkill : (k.proc q).killed = false) :
    ∃ m', Run step InUserMode m m' ∧ m'.kernel.starvTicks = 101 := by
  obtain ⟨k₁, y, h₁, hstarv₁, hrest, hticks⟩ :=
    at_ticks (m := m) admits_inUserMode hi hc h (99 - k.starvTicks) (by omega)
  rw [← hm] at hticks
  obtain ⟨m₂, hrun₂, hk₂, hl₂, ht₂, hs₂, hc₂⟩ := charge_user (p := d.p)
    (m := m.at c d.p ⟨k₁, none, none, some d.p, some d.p, .back ⟨y, d.p⟩, []⟩) hc rfl rfl
    (Function.update_self ..) (Function.update_self ..) h₁.running h₁.alive
  have hproc : m₂.kernel.proc q = k.proc q := by
    rw [hk₂, ← hrest q hqp]
    exact Function.update_of_ne hqp _ _
  obtain ⟨m₃, hrun₃, hk₃, -⟩ := charge_user he hl₂ ht₂
    ((hs₂ e).trans ((Function.update_of_ne hne _ _).trans hs))
    ((hc₂ q hqp).trans ((Function.update_of_ne hqp _ _).trans hcode)) (hproc ▸ hrun) (hproc ▸ hkill)
  refine ⟨m₃, hticks.trans (hrun₂.trans hrun₃), ?_⟩
  have h99 : k₁.starvTicks = 99 := by omega
  have hcount : (account k₁ d.p).starvTicks = 100 := by
    show (k₁.starvTicks + 1) % 2 ^ 32 = 100
    omega
  rw [hk₃, hk₂]
  show ((account k₁ d.p).starvTicks + 1) % 2 ^ 32 = 101
  omega

end

/-- The second CPU runs init in user mode, and every other queued process is on a CPU of its own. -/
structure InitRuns (m : Machine) : Prop where
  shape : m = m.at 1 0 ⟨m.kernel, none, none, some 0, some 0, .back ⟨(0, 0), 0⟩, []⟩
  intr : m.intr 1 = []
  starv : m.kernel.starvTicks = 0
  alone : Alone m.kernel 1 ⟨(0, 0), 0⟩

theorem initRuns {m : Machine} (hcpu : (m.lock, m.ticksLock, m.stack 1, m.cr3 1, m.sched 1, m.intr 1,
      m.code 0) = (none, none, some 0, some 0, .back ⟨(0, 0), 0⟩, [], []))
    (hkernel : ((m.kernel.cpu 1).lastRR, m.kernel.starvTicks, (m.kernel.proc 0).state,
      (m.kernel.proc 0).killed) = (none, 0, .RUNNING, false))
    (hqueued : m.kernel.queues (0, 0) = some 0)
    (hslots : ∀ x q, m.kernel.queues x = some q → x = (0, q.val) ∧
      (q ≠ 0 → (m.kernel.proc q).state = .RUNNING)) : InitRuns m := by
  simp only [Prod.mk.injEq] at hcpu hkernel
  obtain ⟨hlock, hticks, hstack, hcr3, hpc, hintr, hcode⟩ := hcpu
  obtain ⟨hlast, hstarv, hrun, hkill⟩ := hkernel
  have hat := at_same m 1 0
  rw [hlock, hticks, hstack, hcr3, hpc, hcode] at hat
  refine ⟨hat.symm, hintr, hstarv, hrun, hkill, fun x q hx => (hslots x q hx).2,
    fun x y q _ _ hx hy => ?_, ⟨by decide, by decide⟩, hqueued, by simp [hlast]⟩
  rw [(hslots x q hx).1, (hslots y q hy).1]

/-- The second CPU dispatches init. -/
def oneCpu : List Label := List.replicate 8 (.go 1 true)

/-- On one CPU the hundredth tick is checked, and the counter starts again. -/
theorem trigger_hundredth : ∃ s, Run countStep CheckedFirst { machine := boot userinit.queues } s ∧
    0 < s.checked ∧ s.machine.kernel.starvTicks = 0 ∧ s.counted = 100 * s.checked := by
  have hqueues : ((play step oneCpu (boot userinit.queues)).map fun m => m.kernel.queues) =
      some (Function.update (fun _ => none) (0, 0) (some 0)) := rfl
  have hvals : ((play step oneCpu (boot userinit.queues)).map fun m =>
      ((m.lock, m.ticksLock, m.stack 1, m.cr3 1, m.sched 1, m.intr 1, m.code 0),
        ((m.kernel.cpu 1).lastRR, m.kernel.starvTicks, (m.kernel.proc 0).state,
          (m.kernel.proc 0).killed))) =
      some ((none, none, some 0, some 0, .back ⟨(0, 0), 0⟩, [], []), (none, 0, .RUNNING, false)) := rfl
  obtain ⟨m, hm, hq⟩ := Option.map_eq_some_iff.mp hqueues
  rw [hm] at hvals
  obtain ⟨hcpu, hkernel⟩ := Prod.mk.inj (Option.some.inj hvals)
  have hinit : InitRuns m := by
    refine initRuns hcpu hkernel (by rw [hq, Function.update_self]) fun x q hx => ?_
    rw [hq] at hx
    by_cases h0 : x = (0, 0)
    · subst h0
      rw [Function.update_self] at hx
      obtain rfl := Option.some.inj hx
      exact ⟨rfl, fun hne => absurd rfl hne⟩
    · rw [Function.update_of_ne h0] at hx
      cases hx
  have hstart : Run step (fun m a => CheckedFirst { machine := m } a) (boot userinit.queues) m :=
    .of_playOk (by decide +kernel) hm
  obtain ⟨k, y, halone, hstarv, -, hticks⟩ := at_ticks (m := m) admits_checkedFirst hinit.intr
    (by decide) hinit.alone 99 (by rw [hinit.starv]; decide)
  rw [← hinit.shape] at hticks
  rw [hinit.starv, Nat.zero_add] at hstarv
  have hlast := at_hundredth (m := m) (p := 0) (d := ⟨y, 0⟩) admits_checkedFirst (by decide : 1 ≠ 0)
    hstarv halone.running halone.alive
  obtain ⟨n, j, hrun⟩ := counted_of_run (hstart.trans (hticks.trans hlast)) 0 0
  have hfull : (account k 0).starvTicks = 100 := by
    show (k.starvTicks + 1) % 2 ^ 32 = 100
    omega
  obtain ⟨m', hcheck, hzero⟩ := countStep_check (m := m) (c := 1) (p := 0)
    (s := ⟨account k 0, some 1, none, some 0, some 0, .back ⟨y, 0⟩, _⟩) rfl rfl hfull n j
  have hquiet : CheckedFirst ⟨m.at 1 0 ⟨account k 0, some 1, none, some 0, some 0, .back ⟨y, 0⟩,
      .starvation :: .release :: yield ++ [.checkKilled true]⟩, n, j⟩ (.go 1 true) :=
    at_quiet admits_checkedFirst rfl rfl Op.noConfusion
  have hrun' := hrun.tail _ hquiet hcheck
  have htrigger := trigger_of_run userinit.queues hrun'
  refine ⟨_, hrun', Nat.succ_pos j, hzero, ?_⟩
  rw [htrigger.2.1, hzero, Nat.add_zero]

/-- The second CPU dispatches init, which forks, and the third CPU its child. -/
def twoCpus : List Label :=
  List.replicate 8 (.go 1 true) ++ .call 1 .fork :: List.replicate 11 (.go 1 true) ++
    List.replicate 9 (.go 2 true)

/-- With interrupts in user mode only, the counter gets past 100. -/
theorem trigger_missed : ∃ m, Run step InUserMode (boot userinit.queues) m ∧
    m.kernel.starvTicks = 101 := by
  have hqueues : ((play step twoCpus (boot userinit.queues)).map fun m => m.kernel.queues) =
      some (Function.update (Function.update (fun _ => none) (0, 0) (some 0)) (0, 1) (some 1)) := rfl
  have hvals : ((play step twoCpus (boot userinit.queues)).map fun m =>
      ((m.lock, m.ticksLock, m.stack 1, m.cr3 1, m.sched 1, m.intr 1, m.code 0),
        ((m.kernel.cpu 1).lastRR, m.kernel.starvTicks, (m.kernel.proc 0).state,
          (m.kernel.proc 0).killed))) =
      some ((none, none, some 0, some 0, .back ⟨(0, 0), 0⟩, [], []), (none, 0, .RUNNING, false)) := rfl
  have hchild : ((play step twoCpus (boot userinit.queues)).map fun m =>
      (m.stack 2, m.code 1, (m.kernel.proc 1).state, (m.kernel.proc 1).killed)) =
      some (some 1, [], .RUNNING, false) := rfl
  obtain ⟨m, hm, hq⟩ := Option.map_eq_some_iff.mp hqueues
  rw [hm] at hvals hchild
  obtain ⟨hcpu, hkernel⟩ := Prod.mk.inj (Option.some.inj hvals)
  simp only [Option.map_some, Option.some.injEq, Prod.mk.injEq] at hchild
  obtain ⟨hstack, hcode, hrun, hkill⟩ := hchild
  have hok : PlayOk step InUserMode twoCpus (boot userinit.queues) := by
    refine playOk_of_forall (fun a ha s => ?_) _
    simp only [twoCpus, List.mem_append, List.mem_cons, List.mem_replicate] at ha
    rcases ha with (⟨-, rfl⟩ | rfl | ⟨-, rfl⟩) | ⟨-, rfl⟩ <;> trivial
  have hinit : InitRuns m := by
    refine initRuns hcpu hkernel (by rw [hq]; decide) fun x q hx => ?_
    rw [hq] at hx
    by_cases h1 : x = (0, 1)
    · subst h1
      rw [Function.update_self] at hx
      obtain rfl := Option.some.inj hx
      exact ⟨rfl, fun _ => hrun⟩
    · rw [Function.update_of_ne h1] at hx
      by_cases h0 : x = (0, 0)
      · subst h0
        rw [Function.update_self] at hx
        obtain rfl := Option.some.inj hx
        exact ⟨rfl, fun hne => absurd rfl hne⟩
      · rw [Function.update_of_ne h0] at hx
        cases hx
  obtain ⟨m', hpast, hend⟩ := count_past (e := 2) (q := 1) hinit.intr (by decide) hinit.shape hinit.alone
    (by rw [hinit.starv]; decide) (by decide) (by decide) (by decide) hstack hcode hrun hkill
  exact ⟨m', (Run.of_playOk hok hm).trans hpast, hend⟩

end IntroToOS.Mlfq.Smp

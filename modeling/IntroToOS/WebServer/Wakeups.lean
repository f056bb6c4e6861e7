import IntroToOS.WebServer.HandOff

/-! # No lost wake-ups

A worker waits only after it has seen an empty buffer, and `main` only after it has seen a full one.
While there is something to do, either somebody is awake to do it or the thread that has made it so
still has the lock and is about to signal.
-/

namespace IntroToOS.WebServer
open Lib
set_option autoImplicit false

variable {n_buffers n_threads : ℕ}

/-- `main` is between its `put_buffer` and its `pthread_cond_signal(&full)`. -/
def MainPc.signalsFull : MainPc n_buffers → Bool
  | .store .. | .signal => true
  | _ => false

/-- The worker is between its `free_buffer` and its `pthread_cond_signal(&empty)`. -/
def WorkerPc.signalsEmpty : WorkerPc n_buffers → Bool
  | .signal _ => true
  | _ => false

def MainPc.waits : MainPc n_buffers → Bool
  | .waiting _ => true
  | _ => false

structure WakeInv (s : Server n_buffers n_threads) : Prop where
  full : s.fill_count ≠ 0 → (∃ w, s.worker w ≠ .waiting) ∨ s.main.signalsFull = true
  empty : s.main.waits = true → s.fill_count = n_buffers ∨
    ∃ w, (s.worker w).signalsEmpty = true

section
variable {s t : Server n_buffers n_threads} {w : Fin n_threads} {pc : WorkerPc n_buffers}

/-- A worker is awake after its step; if it was on its way to `empty`, so it still is, or `main` does
not wait. -/
theorem WakeInv.worker (h : WakeInv s) (hcount : t.fill_count = s.fill_count)
    (hworker : t.worker = Function.update s.worker w pc) (hpc : pc ≠ .waiting)
    (hempty : t.main.waits = true → s.main.waits = true ∧
      ((s.worker w).signalsEmpty = true → pc.signalsEmpty = true)) : WakeInv t where
  full _ := .inl ⟨w, by rwa [hworker, Function.update_self]⟩
  empty hwaits := by
    obtain ⟨hwaits, hsignal⟩ := hempty hwaits
    rw [hcount, hworker]
    refine (h.empty hwaits).imp_right fun ⟨v, hv⟩ => ?_
    by_cases hvw : v = w
    · subst hvw
      exact ⟨v, by rw [Function.update_self]; exact hsignal hv⟩
    · exact ⟨v, by rwa [Function.update_of_ne hvw]⟩

/-- `main` moves without waiting, and puts nothing without being about to signal. -/
theorem WakeInv.main (h : WakeInv s) (hworker : t.worker = s.worker)
    (hwaits : t.main.waits = false)
    (hfull : t.main.signalsFull = true ∨
      t.fill_count = s.fill_count ∧ s.main.signalsFull = false) : WakeInv t where
  full hfill := by
    rcases hfull with hfull | ⟨hcount, hno⟩
    · exact .inr hfull
    · rw [hcount] at hfill
      rw [hworker]
      exact .inl ((h.full hfill).resolve_right (by rw [hno]; decide))
  empty hw := by
    rw [hwaits] at hw
    cases hw

theorem mainTest_wake {connfd : ℤ} (h : WakeInv s) (hmain : s.main = .check connfd) :
    WakeInv (mainTest s connfd) := by
  unfold mainTest
  split
  · next hfull =>
    refine ⟨fun hfill => .inl ?_, fun _ => .inl hfull⟩
    exact (h.full hfill).resolve_right (by rw [hmain]; exact Bool.false_ne_true)
  · split
    · next u hput =>
      have hsame : u = s := by
        unfold put_buffer at hput
        split at hput
        · exact (Prod.mk.inj hput).1.symm
        · cases hput
      subst hsame
      exact h.main rfl (by rw [hmain]; rfl) (.inr ⟨rfl, by rw [hmain]; rfl⟩)
    · next u i hput =>
      obtain ⟨-, rfl⟩ := put_buffer_eq_some hput
      exact h.main rfl rfl (.inl rfl)

theorem workerTest_wake (h : WakeInv s) (hw : s.worker w = .check) :
    WakeInv (workerTest s w) := by
  unfold workerTest
  split
  · next hzero =>
    refine ⟨fun hfill => absurd hzero hfill, fun hwaits => ?_⟩
    refine (h.empty hwaits).imp_right fun ⟨v, hv⟩ => ⟨v, ?_⟩
    have hvw : v ≠ w := by
      rintro rfl
      rw [hw] at hv
      cases hv
    show ((s.setWorker w .waiting).worker v).signalsEmpty = true
    rwa [Server.setWorker_of_ne hvw]
  · split
    · next u hget =>
      have hsame : u = s := by
        unfold get_buffer at hget
        split at hget
        · exact (Prod.mk.inj hget).1.symm
        · cases hget
      subst hsame
      exact ⟨h.full, h.empty⟩
    · next u i hget =>
      obtain ⟨-, -, rfl⟩ := get_buffer_eq_some hget
      refine h.worker rfl rfl (by simp) fun hwaits => ⟨hwaits, fun hs => ?_⟩
      rw [hw] at hs
      cases hs

theorem mainSignal_wake {woken : Fin n_threads → Bool} (hworkers : 0 < n_threads)
    (hs : mainSignal s woken = some t) : WakeInv t := by
  unfold mainSignal at hs
  split at hs
  · next hwake =>
    obtain rfl := Option.some.inj hs
    refine ⟨fun _ => .inl ?_, fun hwaits => by cases hwaits⟩
    by_cases hsome : ∃ w, s.worker w = .waiting
    · obtain ⟨w, hw⟩ := hwake hsome
      exact ⟨w, by simp [hw.1, hw.2]⟩
    · refine ⟨⟨0, hworkers⟩, ?_⟩
      have hno : s.worker ⟨0, hworkers⟩ ≠ .waiting := fun hw => hsome ⟨_, hw⟩
      show (if s.worker ⟨0, hworkers⟩ = .waiting ∧ _ then _ else _ : WorkerPc n_buffers) ≠ _
      rw [if_neg fun hw => hno hw.1]
      exact hno
  · cases hs

theorem run_wake {a : Event n_threads} (hworkers : 0 < n_threads) (h : WakeInv s)
    (hs : run s a = some t) : WakeInv t := by
  cases a with
  | accept connfd =>
      simp only [run] at hs
      split at hs
      · next hmain =>
        obtain rfl := Option.some.inj hs
        exact h.main rfl rfl (.inr ⟨rfl, by rw [hmain]; rfl⟩)
      · cases hs
  | mainLock =>
      simp only [run] at hs
      split at hs
      · next hmain _ =>
        obtain rfl := Option.some.inj hs
        exact h.main rfl rfl (.inr ⟨rfl, by rw [hmain]; rfl⟩)
      · next hmain _ =>
        obtain rfl := Option.some.inj hs
        exact h.main rfl rfl (.inr ⟨rfl, by rw [hmain]; rfl⟩)
      · cases hs
  | mainTest =>
      simp only [run] at hs
      split at hs
      · next hmain =>
        obtain rfl := Option.some.inj hs
        exact mainTest_wake h hmain
      · cases hs
  | mainStore =>
      simp only [run] at hs
      split at hs
      · next hmain =>
        obtain rfl := Option.some.inj hs
        exact h.main rfl rfl (.inl rfl)
      · cases hs
  | mainSignal woken =>
      simp only [run] at hs
      split at hs
      · exact mainSignal_wake hworkers hs
      · cases hs
  | mainUnlock =>
      simp only [run] at hs
      split at hs
      · next hmain =>
        obtain rfl := Option.some.inj hs
        exact h.main rfl rfl (.inr ⟨rfl, by rw [hmain]; rfl⟩)
      · cases hs
  | mainSpurious =>
      simp only [run] at hs
      split at hs
      · next hmain =>
        obtain rfl := Option.some.inj hs
        exact h.main rfl rfl (.inr ⟨rfl, by rw [hmain]; rfl⟩)
      · cases hs
  | lock w =>
      simp only [run] at hs
      split at hs
      · next hw _ =>
        obtain rfl := Option.some.inj hs
        exact h.worker rfl rfl (by simp) fun hm => ⟨hm, fun hq => by rw [hw] at hq; cases hq⟩
      · next hw _ =>
        obtain rfl := Option.some.inj hs
        exact h.worker rfl rfl (by simp) fun hm => ⟨hm, fun hq => by rw [hw] at hq; cases hq⟩
      · cases hs
  | test w =>
      simp only [run] at hs
      split at hs
      · next hw =>
        obtain rfl := Option.some.inj hs
        exact workerTest_wake h hw
      · cases hs
  | free w =>
      simp only [run] at hs
      split at hs
      · next i fd hw =>
        obtain rfl := Option.some.inj hs
        refine ⟨fun _ => .inl ⟨w, ?_⟩, fun _ => .inr ⟨w, ?_⟩⟩
        · rw [Server.setWorker_self]
          simp
        · rw [Server.setWorker_self]
          rfl
      · cases hs
  | signal w =>
      simp only [run] at hs
      split at hs
      · next fd hw =>
        obtain rfl := Option.some.inj hs
        -- `main` does not wait any more
        have hawake : (wakeMain s.main).waits = false := by cases s.main <;> rfl
        refine h.worker rfl rfl (by simp) fun hm => ?_
        rw [show MainPc.waits _ = _ from hawake] at hm
        cases hm
      · cases hs
  | unlock w =>
      simp only [run] at hs
      split at hs
      · next hw =>
        obtain rfl := Option.some.inj hs
        exact h.worker rfl rfl (by simp) fun hm => ⟨hm, fun hq => by rw [hw] at hq; cases hq⟩
      · cases hs
  | handle w =>
      simp only [run] at hs
      split at hs
      · next hw =>
        obtain rfl := Option.some.inj hs
        exact h.worker rfl rfl (by simp) fun hm => ⟨hm, fun hq => by rw [hw] at hq; cases hq⟩
      · cases hs
  | spurious w =>
      simp only [run] at hs
      split at hs
      · next hw =>
        obtain rfl := Option.some.inj hs
        exact h.worker rfl rfl (by simp) fun hm => ⟨hm, fun hq => by rw [hw] at hq; cases hq⟩
      · cases hs

theorem wake_of_run {malloc : Fin n_buffers → ConnInfo} (hworkers : 0 < n_threads)
    (hrun : Run step (fun _ _ => True) (init malloc) s) : WakeInv s := by
  refine hrun.invariant ⟨fun hfill => absurd rfl hfill, fun hwaits => by cases hwaits⟩
    fun t a u ht _ hs => ?_
  unfold step at hs
  split at hs
  · cases hs
  · exact run_wake hworkers ht hs

/-- Nobody sleeps over work that can be done, unless a signal is about to come: the thread that is to
send it has the lock. Without a holder of the lock nobody sleeps over work at all. -/
structure NoLostWakeup (s : Server n_buffers n_threads) : Prop where
  full : 0 < s.fill_count → (∀ w, s.worker w = .waiting) →
    s.main_lock = some .main ∧ s.main.signalsFull = true
  empty : s.fill_count < n_buffers → (∃ connfd, s.main = .waiting connfd) →
    ∃ w, s.main_lock = some (.worker w) ∧ (s.worker w).signalsEmpty = true

theorem no_lost_wakeup {malloc : Fin n_buffers → ConnInfo} (hworkers : 0 < n_threads)
    (hmalloc : ∀ i, (malloc i).issued = 0)
    (hrun : Run step (fun _ _ => True) (init malloc) s) : NoLostWakeup s := by
  have hwake := wake_of_run hworkers hrun
  have hinv := inv_of_run hmalloc hrun
  constructor
  · intro hfill hall
    have hsignal := (hwake.full (by omega)).resolve_left fun ⟨w, hw⟩ => hw (hall w)
    have hin : s.inside .main = true := by
      rw [Server.inside]
      cases hm : s.main <;> rw [hm] at hsignal <;> first | rfl | cases hsignal
    exact ⟨hinv.lock.holds hin, hsignal⟩
  · rintro hfill ⟨connfd, hmain⟩
    obtain ⟨w, hw⟩ := (hwake.empty (by rw [hmain]; rfl)).resolve_left (by omega)
    have hin : s.inside (.worker w) = true := by
      rw [Server.inside]
      cases hpc : s.worker w <;> rw [hpc] at hw <;> first | rfl | cases hw
    exact ⟨w, hinv.lock.holds hin, hw⟩

/-- One worker sleeps and is woken, and the other one takes its connection. -/
theorem no_lost_wakeup_stolen : ∃ t, play step oneConnection (init fun _ : Fin 2 => ⟨7, 3, 0⟩) =
    some t ∧ NoLostWakeup t := by
  have hsome : (play step oneConnection (init fun _ : Fin 2 => ⟨7, 3, 0⟩)).isSome = true := by
    decide +kernel
  obtain ⟨t, ht⟩ := Option.isSome_iff_exists.mp hsome
  exact ⟨t, ht, no_lost_wakeup (by decide) (fun _ => rfl) (.of_play ht)⟩

end

end IntroToOS.WebServer

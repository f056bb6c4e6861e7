import IntroToOS.Pipes.Ends

/-! # Who sleeps in a pipe

When nobody has the lock, a process that sleeps has a reason to: a writer sleeps only while the pipe
is full and somebody can read, and a reader only while it is empty and somebody can write
(`sleepers_of_run`). There is one exception. A writer that finds the pipe full and itself killed
returns without the `wakeup` that the bytes it has stored are owed, so that from then on a reader may
sleep in front of a full pipe (`cut_off_reader`).
-/

namespace IntroToOS.Pipes
open Lib
set_option autoImplicit false

variable {T : Type} [DecidableEq T] {s s' : State T} {t u : T} {pc : Pc} {chan : Chan}

/-- The process will call `wakeup` before it gives the lock up. -/
def Pc.wakes (chan : Chan) : Pc → Bool
  | .run (.write ..) | .wake _ => chan = .nread
  | .copy .. => chan = .nwrite
  | .finish r => r.chan = chan
  | _ => false

def State.Sleeps (s : State T) (chan : Chan) : Prop :=
  ∃ t c, s.pc t = .asleep c ∧ c.chan = some chan

/-- There is nothing to do for those who wait on the channel. -/
def Pipe.Idle (p : Pipe) : Chan → Prop
  | .nread => p.count = 0 ∧ p.writeopen = true
  | .nwrite => p.count = PIPESIZE ∧ p.readopen = true

/-- The write is refused. -/
def Reply.isCut : Reply → Bool
  | .write _ _ _ ok => !ok
  | _ => false

def Pc.isCut : Pc → Bool
  | .leave r => r.isCut
  | _ => false

/-- A killed writer has been refused. -/
def State.Cut (s : State T) : Prop := ∃ x ∈ s.replies, x.2.isCut = true ∧ s.killed x.1 = true

def State.Cutting (s : State T) : Prop :=
  s.Cut ∨ ∃ t, (s.pc t).isCut = true ∧ s.killed t = true

structure WakeInv (s : State T) : Prop where
  asleep : ∀ chan, s.Sleeps chan → s.pipe.Idle chan ∨ (∃ u, (s.pc u).wakes chan = true) ∨
    chan = .nread ∧ s.Cutting
  dozing : ∀ t c, s.pc t = .doze c ∨ s.pc t = .wake c → ∃ chan, c.chan = some chan ∧ s.pipe.Idle chan

/-- Nobody falls asleep with the others. -/
theorem sleeps_of_others (h : s'.Sleeps chan)
    (hothers : ∀ u, u ≠ t → Moved (s.pc u) (s'.pc u)) :
    s.Sleeps chan ∨ ∃ c, s'.pc t = .asleep c ∧ c.chan = some chan := by
  obtain ⟨u, c, hpc, hchan⟩ := h
  by_cases hu : u = t
  · exact .inr ⟨c, hu ▸ hpc, hchan⟩
  · rcases hothers u hu with heq | ⟨d, -, heq⟩
    · exact .inl ⟨u, c, heq ▸ hpc, hchan⟩
    · rw [heq] at hpc
      cases hpc

theorem Pc.inside_of_wakes (h : pc.wakes chan = true) : pc.inside = true := by
  cases pc with
  | run c | wake c | copy n bytes | finish r => rfl
  | _ => cases h

/-- The cut is passed on, from the program counter to the replies in the end. -/
theorem cutting_mono (h : s.Cutting) (hreplies : ∀ x ∈ s.replies, x ∈ s'.replies)
    (hkilled : ∀ u, s.killed u = true → s'.killed u = true)
    (hown : (s.pc t).isCut = true → s.killed t = true → s'.Cutting)
    (hothers : ∀ u, u ≠ t → Moved (s.pc u) (s'.pc u)) : s'.Cutting := by
  rcases h with ⟨x, hx, hcut, hk⟩ | ⟨u, hcut, hk⟩
  · exact .inl ⟨x, hreplies x hx, hcut, hkilled _ hk⟩
  · by_cases hu : u = t
    · subst hu
      exact hown hcut hk
    · exact .inr ⟨u, by rwa [(hothers u hu).same (f := Pc.isCut) fun _ => rfl], hkilled u hk⟩

/-- A step after which the process does not sleep and has not decided to, and which leaves the pipe
alone. -/
theorem WakeInv.moves (h : WakeInv s) (hpipe : s'.pipe = s.pipe) (hawake : ∀ c, s'.pc t ≠ .asleep c)
    (hwakes : ∀ chan, (s.pc t).wakes chan = true → s'.Sleeps chan →
      (s'.pc t).wakes chan = true ∨ chan = .nread ∧ s'.Cutting)
    (hcut : s.Cutting → s'.Cutting)
    (hdoze : ∀ c, s'.pc t = .doze c ∨ s'.pc t = .wake c →
      ∃ chan, c.chan = some chan ∧ s.pipe.Idle chan)
    (hothers : ∀ u, u ≠ t → Moved (s.pc u) (s'.pc u)) : WakeInv s' where
  asleep chan hsleeps := by
    have hbefore := (sleeps_of_others hsleeps hothers).resolve_right fun ⟨c, hc, _⟩ => hawake c hc
    rw [hpipe]
    rcases h.asleep chan hbefore with hidle | ⟨u, hu⟩ | ⟨hchan, hc⟩
    · exact .inl hidle
    · by_cases hut : u = t
      · subst hut
        exact .inr ((hwakes chan hu hsleeps).imp_left fun hw => ⟨u, hw⟩)
      · exact .inr (.inl ⟨u, by rwa [(hothers u hut).same (f := Pc.wakes chan) fun _ => rfl]⟩)
    · exact .inr (.inr ⟨hchan, hcut hc⟩)
  dozing u c hc := by
    rw [hpipe]
    by_cases hu : u = t
    · exact hdoze c (hu ▸ hc)
    · rcases hothers u hu with heq | ⟨d, -, heq⟩
      · exact h.dozing u c (heq ▸ hc)
      · rw [heq] at hc
        rcases hc with hc | hc <;> cases hc

/-- A step that changes the pipe, of a process that stays awake with the lock. -/
theorem WakeInv.changes (h : WakeInv s) (hlock : Locked s) (hin : (s.pc t).inside = true)
    (hawake : ∀ c, s'.pc t ≠ .asleep c ∧ s'.pc t ≠ .doze c ∧ s'.pc t ≠ .wake c)
    (hidle : ∀ chan, s.pipe.Idle chan → s'.pipe.Idle chan ∨ (s'.pc t).wakes chan = true)
    (hwakes : ∀ chan, (s.pc t).wakes chan = true → (s'.pc t).wakes chan = true)
    (hcut : s.Cutting → s'.Cutting)
    (hothers : ∀ u, u ≠ t → Moved (s.pc u) (s'.pc u)) : WakeInv s' where
  asleep chan hsleeps := by
    have hbefore := (sleeps_of_others hsleeps hothers).resolve_right
      fun ⟨c, hc, _⟩ => (hawake c).1 hc
    rcases h.asleep chan hbefore with hi | ⟨u, hu⟩ | ⟨hchan, hc⟩
    · exact (hidle chan hi).imp_right fun hw => .inl ⟨t, hw⟩
    · obtain rfl : u = t := hlock.unique (t := u) (u := t) (Pc.inside_of_wakes hu) hin
      exact .inr (.inl ⟨u, hwakes chan hu⟩)
    · exact .inr (.inr ⟨hchan, hcut hc⟩)
  dozing u c hc := by
    by_cases hu : u = t
    · subst hu
      rcases hc with hc | hc
      · exact absurd hc (hawake c).2.1
      · exact absurd hc (hawake c).2.2
    · have hin' : (s.pc u).inside = true := by
        rw [← (hothers u hu).same (f := Pc.inside) fun _ => rfl]
        rcases hc with hc | hc <;> rw [hc] <;> rfl
      exact absurd (hlock.unique (t := u) (u := t) hin' hin) hu

/-- Without a write among the replies, and with the others as they were. -/
theorem cutting_of_goto (hcut : (s.pc t).isCut = false)
    (hreplies : ∀ x ∈ s.replies, x ∈ s'.replies) (hkilled : s'.killed = s.killed)
    (hothers : ∀ u, u ≠ t → Moved (s.pc u) (s'.pc u)) (h : s.Cutting) : s'.Cutting := by
  refine cutting_mono (t := t) h hreplies (fun u hu => by rwa [hkilled]) (fun hc => ?_) hothers
  rw [hcut] at hc
  cases hc

theorem WakeInv.doze {c : Call} (h : WakeInv s) (hpc : s.pc t = .doze c)
    (hpc' : s'.pc t = .asleep c) (hpipe : s'.pipe = s.pipe) (hcut : s.Cutting → s'.Cutting)
    (hothers : ∀ u, u ≠ t → Moved (s.pc u) (s'.pc u)) : WakeInv s' := by
  obtain ⟨chan₀, hchan₀, hidle₀⟩ := h.dozing t c (.inl hpc)
  refine ⟨fun chan hsleeps => ?_, fun u d hd => ?_⟩
  · rw [hpipe]
    rcases sleeps_of_others hsleeps hothers with hbefore | ⟨d, hd, hchan⟩
    · rcases h.asleep chan hbefore with hidle | ⟨u, hu⟩ | ⟨hchan, hc⟩
      · exact .inl hidle
      · have hut : u ≠ t := by
          rintro rfl
          rw [hpc] at hu
          cases hu
        exact .inr (.inl ⟨u, by rwa [(hothers u hut).same (f := Pc.wakes chan) fun _ => rfl]⟩)
      · exact .inr (.inr ⟨hchan, hcut hc⟩)
    · rw [hpc'] at hd
      obtain rfl := Pc.asleep.inj hd
      rw [hchan₀] at hchan
      exact .inl (Option.some.inj hchan ▸ hidle₀)
  · rw [hpipe]
    by_cases hu : u = t
    · rw [hu, hpc'] at hd
      rcases hd with hd | hd <;> cases hd
    · rcases hothers u hu with heq | ⟨e, -, heq⟩
      · exact h.dozing u d (heq ▸ hd)
      · rw [heq] at hd
        rcases hd with hd | hd <;> cases hd

/-- Nobody sleeps on a channel after a `wakeup`. -/
theorem not_sleeps_wakeup (hpc : ∀ c, pc ≠ .asleep c) : ¬ ((s.wakeup chan).goto t pc).Sleeps chan := by
  rintro ⟨u, c, hu, hchan⟩
  by_cases hut : u = t
  · rw [hut, goto_self] at hu
    exact hpc c hu
  · rw [goto_of_ne hut] at hu
    have hwake : wakePc chan (s.pc u) = .asleep c := hu
    unfold wakePc at hwake
    split at hwake
    · next d =>
      split at hwake
      · cases hwake
      · next hne =>
        obtain rfl := Pc.asleep.inj hwake
        exact hne hchan
    · next hne => exact hne c hwake

omit [DecidableEq T] in
/-- A refused writer owes a `wakeup` only if it is killed: without a reader nobody sleeps. -/
theorem EndsInv.not_sleeps (h : EndsInv s) (hclosed : s.pipe.readopen = false) :
    ¬ s.Sleeps .nread := by
  rintro ⟨u, c, hu, hchan⟩
  cases c with
  | read n =>
      have := h.closed u false hclosed (by rw [hu]; rfl)
      rw [hu] at this
      cases this
  | _ => cases hchan

theorem Goes.wakes (hgo : Goes s t s') (hlock : Locked s) (hends' : EndsInv s') (h : WakeInv s) :
    WakeInv s' := by
  have hothers : ∀ u, u ≠ t → Moved (s.pc u) (s'.pc u) := fun u hu => hgo.others hu
  cases hgo with
  | doze c hpc =>
      exact h.doze hpc goto_self rfl (cutting_of_goto (t := t) (by rw [hpc]; rfl) (fun _ => id) rfl
        hothers) hothers
  | store addr n i hpc hn hroom =>
      refine h.changes (t := t) hlock (by rw [hpc]; rfl) (fun c => ?_) (fun chan hidle => ?_)
        (fun chan hw => ?_) (cutting_of_goto (t := t) (by rw [hpc]; rfl) (fun _ => id) rfl hothers)
        hothers
      · simp
      · cases chan with
        | nread => exact .inr (by simp [Pc.wakes])
        | nwrite => exact absurd (s.pipe.full_iff.mpr hidle.1) hroom
      · rw [hpc] at hw
        simpa [Pc.wakes] using hw
  | take n bytes hpc hn hsome =>
      refine h.changes (t := t) hlock (by rw [hpc]; rfl) (fun c => ?_) (fun chan hidle => ?_)
        (fun chan hw => ?_) (cutting_of_goto (t := t) (by rw [hpc]; rfl) (fun _ => id) rfl hothers)
        hothers
      · simp
      · cases chan with
        | nread => exact absurd (s.pipe.empty_iff.mpr hidle.1) hsome
        | nwrite => exact .inr (by simp [Pc.wakes])
      · rw [hpc] at hw
        simpa [Pc.wakes] using hw
  | close w hpc =>
      refine h.changes (t := t) hlock (by rw [hpc]; rfl) (fun c => ?_) (fun chan hidle => ?_)
        (fun chan hw => ?_) (cutting_of_goto (t := t) (by rw [hpc]; rfl) (fun _ => id) rfl hothers)
        hothers
      · simp [pipeclose]
      · cases w <;> cases chan <;> first
          | exact .inl hidle
          | exact .inr (by simp [pipeclose, Pc.wakes, Reply.chan])
      · rw [hpc] at hw
        cases hw
  | wake c hpc =>
      refine h.moves (t := t) rfl (fun d => by simp) (fun chan hw hsleeps => ?_)
        (cutting_of_goto (t := t) (by rw [hpc]; rfl) (fun _ => id) rfl hothers) (fun d hd => ?_) hothers
      · rw [hpc] at hw
        obtain rfl : chan = .nread := of_decide_eq_true hw
        exact absurd hsleeps (not_sleeps_wakeup fun d => by simp)
      · rw [goto_self] at hd
        rcases hd with hd | hd
        · obtain rfl := Pc.doze.inj hd
          exact h.dozing t c (.inr hpc)
        · cases hd
  | finish r hpc =>
      refine h.moves (t := t) rfl (fun d => by simp) (fun chan hw hsleeps => ?_)
        (cutting_of_goto (t := t) (by rw [hpc]; rfl) (fun _ => id) rfl hothers)
        (fun d hd => by simp at hd) hothers
      rw [hpc] at hw
      obtain rfl : r.chan = chan := of_decide_eq_true hw
      exact absurd hsleeps (not_sleeps_wakeup fun d => by simp)
  | leave r hpc =>
      have hpc' : (Pipes.leave s t r).pc t = if lastClose s.pipe r then .free else .out := goto_self
      refine h.moves (t := t) rfl (fun d => ?_) (fun chan hw _ => ?_) (fun hcut => ?_) (fun d hd => ?_)
        hothers
      · rw [hpc']
        split <;> exact fun h => by cases h
      · rw [hpc] at hw
        cases hw
      · refine cutting_mono (t := t) hcut (fun x hx => List.mem_append_left _ hx) (fun _ => id)
          (fun hc hk => .inl ⟨(t, r), List.mem_append_right _ (List.mem_singleton_self _), ?_, hk⟩)
          hothers
        rwa [hpc] at hc
      · rw [hpc'] at hd
        split at hd <;> rcases hd with hd | hd <;> cases hd
  | refused addr n i hpc hfull hend =>
      refine h.moves (t := t) rfl (fun d => by simp) (fun chan hw hsleeps => .inr ?_)
        (cutting_of_goto (t := t) (by rw [hpc]; rfl) (fun _ => id) rfl hothers)
        (fun d hd => by simp at hd) hothers
      rw [hpc] at hw
      obtain rfl : chan = .nread := of_decide_eq_true hw
      rcases hend with hclosed | hkilled
      · exact absurd hsleeps (hends'.not_sleeps hclosed)
      · exact ⟨rfl, .inr ⟨t, by rw [goto_self]; rfl, hkilled⟩⟩
  | acquire c hpc hnone =>
      refine h.moves (t := t) rfl (fun d => by simp) (fun chan hw _ => ?_)
        (cutting_of_goto (t := t) ?_ (fun _ => id) rfl hothers) (fun d hd => by simp at hd) hothers
      · rcases hpc with hpc | hpc <;> rw [hpc] at hw <;> cases hw
      · rcases hpc with hpc | hpc <;> rw [hpc] <;> rfl
  | full addr n i hpc hfull hopen =>
      refine h.moves (t := t) rfl (fun d => by simp) (fun chan hw _ => .inl ?_)
        (cutting_of_goto (t := t) (by rw [hpc]; rfl) (fun _ => id) rfl hothers) (fun d hd => ?_) hothers
      · rw [hpc] at hw
        rw [goto_self]
        exact hw
      · rw [goto_self] at hd
        rcases hd with hd | hd
        · cases hd
        · obtain rfl := Pc.wake.inj hd
          exact ⟨.nwrite, rfl, s.pipe.full_iff.mp hfull, hopen⟩
  | empty n hpc hempty hopen =>
      refine h.moves (t := t) rfl (fun d => by simp) (fun chan hw _ => ?_)
        (cutting_of_goto (t := t) (by rw [hpc]; rfl) (fun _ => id) rfl hothers) (fun d hd => ?_) hothers
      · rw [hpc] at hw
        cases hw
      · rw [goto_self] at hd
        rcases hd with hd | hd
        · obtain rfl := Pc.doze.inj hd
          exact ⟨.nread, rfl, s.pipe.empty_iff.mp hempty, hopen⟩
        · cases hd
  | filled _ _ _ hpc | interrupted _ hpc | ready _ hpc | taken _ _ hpc | free hpc =>
      refine h.moves (t := t) rfl (fun d => by simp) (fun chan hw _ => .inl ?_)
        (cutting_of_goto (t := t) (by rw [hpc]; rfl) (fun _ => id) rfl hothers)
        (fun d hd => by simp at hd) hothers
      rw [hpc] at hw
      simp only [goto_self]
      first
        | exact hw
        | cases hw
        | exact decide_eq_true (of_decide_eq_true hw).symm

theorem step_wakes {a : Event T} (h : WakeInv s) (hinv : PipeInv s) (hinv' : PipeInv s')
    (hs : step s a = some s') : WakeInv s' := by
  cases a with
  | call t c =>
      obtain ⟨hpc, -, rfl⟩ := step_call hs
      have hothers : ∀ u, u ≠ t → Moved (s.pc u) ((s.goto t (.enter c)).pc u) :=
        fun u hu => moved_goto hu
      refine h.moves (t := t) rfl (fun d => by simp) (fun chan hw _ => ?_)
        (cutting_of_goto (t := t) (by rw [hpc]; rfl) (fun _ => id) rfl hothers)
        (fun d hd => by simp at hd) hothers
      rw [hpc] at hw
      cases hw
  | go t => exact (goes_of_go hs).wakes hinv.lock hinv'.ends h
  | kill t =>
      obtain rfl := Option.some.inj hs
      have hmoved := moved_kill s t
      have hsleeps : ∀ c, (kill s t).pc t ≠ .asleep c := by
        intro c hc
        have hkill : killPc (s.pc t) = .asleep c := (goto_self (s := s)).symm.trans hc
        unfold killPc at hkill
        split at hkill
        · cases hkill
        · next hne => exact hne c hkill
      have hkilled : ∀ u, s.killed u = true → (kill s t).killed u = true := by
        intro u hu
        show Function.update s.killed t true u = true
        by_cases hut : u = t
        · rw [hut, Function.update_self]
        · rw [Function.update_of_ne hut, hu]
      refine h.moves (t := t) rfl hsleeps (fun chan hw _ => .inl ?_) (fun hcut => ?_) (fun c hc => ?_)
        fun u _ => hmoved u
      · rwa [(hmoved t).same (f := Pc.wakes chan) fun _ => rfl]
      · refine cutting_mono (t := t) hcut (fun _ => id) hkilled (fun hc hk => .inr ⟨t, ?_, hkilled t hk⟩)
          fun u _ => hmoved u
        rwa [(hmoved t).same (f := Pc.isCut) fun _ => rfl]
      · rcases hmoved t with heq | ⟨d, -, heq⟩
        · exact h.dozing t c (heq ▸ hc)
        · rw [heq] at hc
          rcases hc with hc | hc <;> cases hc

/-- A process can go on. -/
def State.CanGo (s : State T) (t : T) : Prop := (go s t).isSome = true

theorem canGo_of_inside (h : (s.pc t).inside = true) : s.CanGo t := by
  unfold State.CanGo go
  cases hpc : s.pc t with
  | run c => cases c <;> rfl
  | wake c | doze c | copy n bytes | finish r | leave r => rfl
  | _ =>
      rw [hpc] at h
      cases h

theorem canGo_of_free (hlock : s.lock = none) (hout : s.pc t ≠ .out)
    (hawake : ∀ c, s.pc t ≠ .asleep c) : s.CanGo t := by
  cases hpc : s.pc t with
  | out => exact absurd hpc hout
  | asleep c => exact absurd hpc (hawake c)
  | enter c | woken c => simp [State.CanGo, go, hpc, hlock]
  | free => simp [State.CanGo, go, hpc]
  | _ => exact canGo_of_inside (by rw [hpc]; rfl)

/-- What a process that sleeps waits for, and that somebody can go on while not all sleep. -/
structure Sleepers (s : State T) : Prop where
  writer : s.lock = none → s.Sleeps .nwrite → s.pipe.queued.length = PIPESIZE ∧ s.pipe.readopen = true
  reader : s.lock = none → s.Sleeps .nread → s.pipe.queued = [] ∧ s.pipe.writeopen = true ∨ s.Cut
  apart : s.lock = none → s.Sleeps .nwrite → s.Sleeps .nread → s.Cut
  live : ∀ t, s.pc t ≠ .out → (∀ c, s.pc t ≠ .asleep c) → ∃ u, s.CanGo u

theorem wake_of_run {page : ℕ → Byte} (hrun : Run step Promised (pipealloc page) s) :
    PipeInv s ∧ WakeInv s := by
  have hstart : WakeInv (pipealloc page : State T) := by
    refine ⟨?_, fun t c hc => ?_⟩
    · rintro chan ⟨t, c, hc, -⟩
      cases hc
    · rcases hc with hc | hc <;> cases hc
  refine hrun.invariant (P := fun s => PipeInv s ∧ WakeInv s) ⟨inv_of_run .refl, hstart⟩ ?_
  rintro u a v ⟨hu, hwake⟩ hok hs
  have hv := step_inv hu hok hs
  exact ⟨hv, step_wakes hwake hu hv hs⟩

theorem sleepers_of_run {page : ℕ → Byte} (hrun : Run step Promised (pipealloc page) s) :
    Sleepers s := by
  obtain ⟨hinv, hwake⟩ := wake_of_run hrun
  -- without the lock nobody is about to call `wakeup`, and a refused writer has returned
  have hfree : s.lock = none → ∀ u, (s.pc u).inside = true → False := by
    intro hlock u hu
    have := hinv.lock.holds hu
    rw [hlock] at this
    cases this
  have hcut : s.lock = none → s.Cutting → s.Cut := by
    rintro hlock (hc | ⟨u, hu, -⟩)
    · exact hc
    · refine absurd ?_ (hfree hlock u)
      cases hpc : s.pc u with
      | leave r => rfl
      | _ =>
          rw [hpc] at hu
          cases hu
  have hwriter : s.lock = none → s.Sleeps .nwrite →
      s.pipe.count = PIPESIZE ∧ s.pipe.readopen = true := by
    intro hlock hsleeps
    rcases hwake.asleep _ hsleeps with hidle | ⟨u, hu⟩ | ⟨hchan, -⟩
    · exact hidle
    · exact (hfree hlock u (Pc.inside_of_wakes hu)).elim
    · cases hchan
  have hreader : s.lock = none → s.Sleeps .nread →
      (s.pipe.count = 0 ∧ s.pipe.writeopen = true) ∨ s.Cut := by
    intro hlock hsleeps
    rcases hwake.asleep _ hsleeps with hidle | ⟨u, hu⟩ | ⟨-, hc⟩
    · exact .inl hidle
    · exact (hfree hlock u (Pc.inside_of_wakes hu)).elim
    · exact .inr (hcut hlock hc)
  refine ⟨fun hlock hw => ?_, fun hlock hr => ?_, fun hlock hw hr => ?_, fun t hout hawake => ?_⟩
  · rw [Pipe.queued, Ring.length_contents]
    exact hwriter hlock hw
  · refine (hreader hlock hr).imp_left fun hidle => ⟨?_, hidle.2⟩
    rw [Pipe.queued, hidle.1]
    rfl
  · refine (hreader hlock hr).resolve_left fun hidle => ?_
    have hzero := hidle.1
    have hfull := (hwriter hlock hw).1
    rw [hzero] at hfull
    cases hfull
  · cases hlock : s.lock with
    | none => exact ⟨t, canGo_of_free hlock hout hawake⟩
    | some u => exact ⟨u, canGo_of_inside ((hinv.lock u).mp hlock)⟩

theorem sleepingReader_sleepers : ∃ s, play step (sleepingReader.take 4) (pipealloc fun _ => 0) =
    some s ∧ Sleepers s := by
  have hsome : (play step (sleepingReader.take 4) (pipealloc fun _ => 0)).isSome = true := by
    decide +kernel
  obtain ⟨s, hs⟩ := Option.isSome_iff_exists.mp hsome
  exact ⟨s, hs, sleepers_of_run (.of_playOk (by decide +kernel) hs)⟩

/-- A reader sleeps, and a killed writer fills the pipe. -/
def killedWriter : List (Event Bool) :=
  .call false (.read 1) :: List.replicate 3 (.go false) ++ .call true (.write (fun _ => 7) 600 0) ::
    List.replicate 513 (.go true) ++ .kill true :: List.replicate 2 (.go true)

/-- What a process sleeps on. -/
def Pc.channel : Pc → Option Chan
  | .asleep c => c.chan
  | _ => none

omit [DecidableEq T] in
theorem sleeps_of_channel (h : (s.pc t).channel = some chan) : s.Sleeps chan := by
  cases hpc : s.pc t with
  | asleep c =>
      rw [hpc] at h
      exact ⟨t, c, hpc, h⟩
  | _ =>
      rw [hpc] at h
      cases h

theorem cut_off_reader : ∃ s : State Bool, Run step Promised (pipealloc fun _ => 0) s ∧
    s.lock = none ∧ s.Sleeps .nread ∧ s.pipe.count = PIPESIZE := by
  have hplay : (play step killedWriter (pipealloc fun _ => 0)).map
      (fun s => (s.lock, (s.pc false).channel, s.pipe.count)) = some (none, some .nread, 512) := by
    decide +kernel
  obtain ⟨s, hs, hfacts⟩ := Option.map_eq_some_iff.mp hplay
  obtain ⟨hlock, hfacts⟩ := Prod.mk.inj hfacts
  obtain ⟨hchannel, hcount⟩ := Prod.mk.inj hfacts
  exact ⟨s, .of_playOk (by decide +kernel) hs, hlock, sleeps_of_channel hchannel, hcount⟩

end IntroToOS.Pipes

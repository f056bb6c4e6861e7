import IntroToOS.Pipes.Stream

/-! # The two ends of a pipe

A read returns fewer bytes than it has asked for only when the pipe is empty. It returns none only when
the write end is closed and every byte has been read, and then the stream has ended for good; a write is
refused only when nobody can read or the writer is killed (`ends_of_run`). The page is freed once, by
the second `pipeclose`, and nobody is in the pipe any more (`freed_of_run`).
-/

namespace IntroToOS.Pipes
open Lib
set_option autoImplicit false

variable {T : Type} [DecidableEq T] {s s' : State T} {t u : T} {pc : Pc}

/-! ## Who uses an end -/

/-- The process has closed this end and still has the lock. -/
def Pc.closed (writable : Bool) : Pc → Bool
  | .finish (.close w) | .leave (.close w) => w == writable
  | _ => false

/-- An end is used by nobody but the process that closes it, from its call on. -/
structure EndsInv (s : State T) : Prop where
  closing : ∀ t w, (s.pc t).closes w = true →
    s.pipe.isOpen w = true ∧ ∀ u, u ≠ t → (s.pc u).using ≠ some w
  closed : ∀ t w, s.pipe.isOpen w = false → (s.pc t).using = some w → (s.pc t).closed w = true

theorem Pc.using_of_closes {w : Bool} (h : pc.closes w = true) : pc.using = some w := by
  cases pc with
  | enter c | run c | wake c | doze c | asleep c | woken c =>
      exact congrArg some (beq_iff_eq.mp (Bool.and_eq_true_iff.mp h).2)
  | _ => cases h

theorem Pc.inside_of_closed {w : Bool} (h : pc.closed w = true) : pc.inside = true := by
  unfold Pc.closed at h
  split at h
  · rfl
  · rfl
  · cases h

/-- A step that leaves the flags alone and in which the process goes on to use the same end, or none. -/
theorem EndsInv.moves (h : EndsInv s) (hflags : ∀ w, s'.pipe.isOpen w = s.pipe.isOpen w)
    (hown : (s'.pc t).using = none ∨ (s'.pc t).using = (s.pc t).using ∧
      (∀ w, (s'.pc t).closes w = true → (s.pc t).closes w = true) ∧
      ∀ w, (s.pc t).closed w = true → (s'.pc t).closed w = true)
    (hothers : ∀ u, u ≠ t → Moved (s.pc u) (s'.pc u)) : EndsInv s' := by
  have husing : ∀ u w, (s'.pc u).using = some w → (s.pc u).using = some w := by
    intro u w hw
    by_cases hu : u = t
    · subst hu
      rcases hown with hnone | ⟨hsame, -⟩
      · rw [hnone] at hw
        cases hw
      · rwa [hsame] at hw
    · rwa [(hothers u hu).same (f := Pc.using) fun _ => rfl] at hw
  have hcloses : ∀ u w, (s'.pc u).closes w = true → (s.pc u).closes w = true := by
    intro u w hw
    by_cases hu : u = t
    · subst hu
      rcases hown with hnone | ⟨-, hcl, -⟩
      · rw [Pc.using_of_closes hw] at hnone
        cases hnone
      · exact hcl w hw
    · rwa [(hothers u hu).same (f := Pc.closes w) fun _ => rfl] at hw
  refine ⟨fun u w hw => ?_, fun u w hopen hw => ?_⟩
  · obtain ⟨hopen, halone⟩ := h.closing u w (hcloses u w hw)
    exact ⟨(hflags w).trans hopen, fun v hv hvw => halone v hv (husing v w hvw)⟩
  · have hclosed := h.closed u w ((hflags w).symm.trans hopen) (husing u w hw)
    by_cases hu : u = t
    · subst hu
      rcases hown with hnone | ⟨-, -, hcl⟩
      · rw [hnone] at hw
        cases hw
      · exact hcl w hclosed
    · rwa [(hothers u hu).same (f := Pc.closed w) fun _ => rfl]

theorem isOpen_pipeclose (s : State T) (t : T) (w v : Bool) :
    (pipeclose s t w).pipe.isOpen v = (s.pipe.isOpen v && !(v == w)) := by
  cases w <;> cases v <;> simp [pipeclose, Pipe.isOpen]

/-- The flag is cleared by the one process that uses the end. -/
theorem EndsInv.close {w : Bool} (h : EndsInv s) (hpc : s.pc t = .run (.close w)) :
    EndsInv (pipeclose s t w) := by
  have hcloses : (s.pc t).closes w = true := by
    simp [hpc, Pc.closes, Call.isClose, Call.writable]
  obtain ⟨hopen, halone⟩ := h.closing t w hcloses
  have hself : (pipeclose s t w).pc t = .finish (.close w) := goto_self
  have hother : ∀ u, u ≠ t → (pipeclose s t w).pc u = s.pc u := fun u hu => goto_of_ne hu
  refine ⟨fun u v hv => ?_, fun u v hclosed hv => ?_⟩
  · by_cases hu : u = t
    · subst hu
      rw [hself] at hv
      cases hv
    · rw [hother u hu] at hv
      obtain ⟨hvopen, hvalone⟩ := h.closing u v hv
      have hvw : v ≠ w := by
        rintro rfl
        exact hvalone t (Ne.symm hu) (Pc.using_of_closes hcloses)
      refine ⟨by rw [isOpen_pipeclose, hvopen, beq_false_of_ne hvw]; rfl, fun x hx hxv => ?_⟩
      by_cases hxt : x = t
      · subst hxt
        rw [hself] at hxv
        exact hvw (Option.some.inj hxv).symm
      · rw [hother x hxt] at hxv
        exact hvalone x hx hxv
  · by_cases hu : u = t
    · subst hu
      rw [hself] at hv ⊢
      exact beq_iff_eq.mpr (Option.some.inj hv)
    · rw [hother u hu] at hv ⊢
      rw [isOpen_pipeclose] at hclosed
      by_cases hvw : v = w
      · subst hvw
        exact absurd hv (halone u hu)
      · rw [beq_false_of_ne hvw, Bool.not_false, Bool.and_true] at hclosed
        exact h.closed u v hclosed hv

theorem EndsInv.call {c : Call} (h : EndsInv s) (hpc : s.pc t = .out)
    (hok : Promised s (.call t c)) : EndsInv (s.goto t (.enter c)) := by
  obtain ⟨hopen, hnone, halone⟩ := hok
  refine ⟨fun u w hw => ?_, fun u w hclosed hw => ?_⟩
  · by_cases hu : u = t
    · subst hu
      rw [goto_self] at hw
      cases c with
      | close v =>
          have hvw : (v == w) = true := hw
          obtain rfl := beq_iff_eq.mp hvw
          exact ⟨hopen, fun x hx => by rw [goto_of_ne hx]; exact halone rfl x⟩
      | _ => cases hw
    · rw [goto_of_ne hu] at hw
      obtain ⟨hwopen, hwalone⟩ := h.closing u w hw
      refine ⟨hwopen, fun x hx hxw => ?_⟩
      by_cases hxt : x = t
      · subst hxt
        rw [goto_self] at hxw
        obtain rfl : c.writable = w := Option.some.inj hxw
        rw [hnone u] at hw
        cases hw
      · rw [goto_of_ne hxt] at hxw
        exact hwalone x hx hxw
  · by_cases hu : u = t
    · subst hu
      rw [goto_self] at hw
      obtain rfl : c.writable = w := Option.some.inj hw
      rw [show (s.goto u _).pipe = s.pipe from rfl, hopen] at hclosed
      cases hclosed
    · rw [goto_of_ne hu] at hw ⊢
      exact h.closed u w hclosed hw

theorem Goes.ends (hgo : Goes s t s') (h : EndsInv s) : EndsInv s' := by
  have hothers : ∀ u, u ≠ t → Moved (s.pc u) (s'.pc u) := fun u hu => hgo.others hu
  cases hgo with
  | close w hpc => exact h.close hpc
  | leave r hpc =>
      refine h.moves (t := t) (fun _ => rfl) (.inl ?_) hothers
      show ((s.goto t _).pc t).using = none
      rw [goto_self]
      split <;> rfl
  | free hpc =>
      refine h.moves (t := t) (fun _ => rfl) (.inl ?_) hothers
      show ((s.goto t _).pc t).using = none
      rw [goto_self]
      rfl
  | acquire c hpc hlock =>
      refine h.moves (t := t) (fun _ => rfl) (.inr ?_) hothers
      simp only [goto_self]
      rcases hpc with hpc | hpc <;> rw [hpc] <;> exact ⟨rfl, fun _ => id, fun _ => id⟩
  | filled _ _ _ hpc | refused _ _ _ hpc | full _ _ _ hpc | store _ _ _ hpc | interrupted _ hpc
  | empty _ hpc | ready _ hpc | take _ _ hpc | taken _ _ hpc | doze _ hpc | wake _ hpc =>
      refine h.moves (t := t) (fun _ => rfl) (.inr ?_) hothers
      simp only [goto_self, hpc]
      exact ⟨rfl, fun _ => id, fun _ => id⟩
  | finish r hpc =>
      refine h.moves (t := t) (fun _ => rfl) (.inr ?_) hothers
      simp only [goto_self, hpc]
      refine ⟨rfl, fun w hw => (by cases hw), fun w hw => ?_⟩
      cases r <;> exact hw

theorem step_ends {a : Event T} (h : EndsInv s) (hok : Promised s a) (hs : step s a = some s') :
    EndsInv s' := by
  cases a with
  | call t c =>
      obtain ⟨hpc, -, rfl⟩ := step_call hs
      exact h.call hpc hok
  | go t => exact (goes_of_go hs).ends h
  | kill t =>
      obtain rfl := Option.some.inj hs
      have hmoved := moved_kill s t
      refine h.moves (t := t) (fun _ => rfl) (.inr ⟨?_, fun w hw => ?_, fun w hw => ?_⟩)
        fun u _ => hmoved u
      · exact (hmoved t).same fun _ => rfl
      · rwa [(hmoved t).same (f := Pc.closes w) fun _ => rfl] at hw
      · rwa [(hmoved t).same (f := Pc.closed w) fun _ => rfl]

/-! ## What the results say -/

/-- What a call that is about to return, or has returned, says about the pipe. -/
def Reply.Means (s : State T) (t : T) : Reply → Prop
  | .write _ _ _ ok => ok = false → s.pipe.readopen = false ∨ s.killed t = true
  | .read n bytes => (bytes = none → s.killed t = true) ∧
    (bytes = some [] → 0 < n → s.pipe.writeopen = false ∧ s.pipe.count = 0)
  | .close _ => True

/-- What a process knows from the tests it has made under the lock. -/
def Pc.Knows (s : State T) (t : T) : Pc → Prop
  | .copy _ bytes => bytes = [] → s.pipe.count = 0 → s.pipe.writeopen = false
  | .finish r | .leave r => r.Means s t
  | _ => True

structure ToldInv (s : State T) : Prop where
  pc : ∀ t, (s.pc t).Knows s t
  replies : ∀ x ∈ s.replies, x.2.Means s x.1

/-- Nothing that a result says is undone. -/
structure Later (s s' : State T) : Prop where
  readopen : s.pipe.readopen = false → s'.pipe.readopen = false
  killed : ∀ t, s.killed t = true → s'.killed t = true
  ended : s.pipe.writeopen = false ∧ s.pipe.count = 0 →
    s'.pipe.writeopen = false ∧ s'.pipe.count = 0

omit [DecidableEq T] in
theorem Later.told (h : Later s s') {r : Reply} (hr : r.Means s t) : r.Means s' t := by
  cases r with
  | write addr n i ok => exact fun hok => (hr hok).imp h.readopen (h.killed t)
  | read n bytes => exact ⟨fun hb => h.killed t (hr.1 hb), fun hb hn => h.ended (hr.2 hb hn)⟩
  | close w => trivial

omit [DecidableEq T] in
/-- What another process knows. -/
theorem Later.knows (h : Later s s')
    (hcopy : (∃ n bytes, s.pc u = .copy n bytes) → s'.pipe.count = s.pipe.count)
    (hopen : s.pipe.writeopen = false → s'.pipe.writeopen = false)
    (hmoved : Moved (s.pc u) (s'.pc u)) (hu : (s.pc u).Knows s u) : (s'.pc u).Knows s' u := by
  rcases hmoved with heq | ⟨c, -, heq⟩
  · rw [heq]
    cases hpc : s.pc u with
    | copy n bytes =>
        rw [hpc] at hu
        exact fun hb hz => hopen (hu hb (hcopy ⟨n, bytes, hpc⟩ ▸ hz))
    | finish r | leave r =>
        rw [hpc] at hu
        exact h.told hu
    | _ => trivial
  · rw [heq]
    trivial

omit [DecidableEq T] in
theorem Later.of_same (hpipe : s'.pipe = s.pipe) (hkilled : s'.killed = s.killed) : Later s s' where
  readopen h := by rwa [hpipe]
  killed t h := by rwa [hkilled]
  ended h := by rwa [hpipe]

/-- A step that leaves the pipe alone. -/
theorem ToldInv.moves (h : ToldInv s) (hpipe : s'.pipe = s.pipe) (hkilled : s'.killed = s.killed)
    (hreplies : s'.replies = s.replies) (hown : (s'.pc t).Knows s' t)
    (hothers : ∀ u, u ≠ t → Moved (s.pc u) (s'.pc u)) : ToldInv s' := by
  have hlater := Later.of_same hpipe hkilled
  refine ⟨fun u => ?_, fun x hx => hlater.told (h.replies x (hreplies ▸ hx))⟩
  by_cases hu : u = t
  · exact hu ▸ hown
  · exact hlater.knows (fun _ => by rw [hpipe]) (fun ho => by rwa [hpipe]) (hothers u hu) (h.pc u)

omit [DecidableEq T] in
/-- Another process does not copy while `t` has the lock. -/
theorem Locked.not_copy (h : Locked s) (hin : (s.pc t).inside = true) (hu : u ≠ t) :
    ¬ ∃ n bytes, s.pc u = .copy n bytes := by
  rintro ⟨n, bytes, hpc⟩
  exact hu (h.unique (t := u) (u := t) (by simp [hpc, Pc.inside]) hin)

theorem ToldInv.put {addr : ℕ → Byte} {n : ℤ} {i : ℕ} (h : ToldInv s) (hlock : Locked s)
    (hends : EndsInv s) (hpc : s.pc t = .run (.write addr n i))
    (hs : s' = { s.goto t (.run (.write addr n (i + 1))) with
      pipe := s.pipe.put (addr i), stored := s.stored ++ [(t, addr i)] }) : ToldInv s' := by
  -- the write end is open, so that the stream has not ended
  have hopen : s.pipe.writeopen = true := by
    by_contra hclosed
    have := hends.closed t true ((Bool.not_eq_true _).mp hclosed) (by rw [hpc]; rfl)
    rw [hpc] at this
    cases this
  have hlater : Later s s' := by
    refine ⟨fun hr => by rwa [hs], fun u hk => by rwa [hs], fun he => ?_⟩
    rw [hopen] at he
    cases he.1
  refine ⟨fun u => ?_, fun x hx => hlater.told (h.replies x (by rwa [hs] at hx))⟩
  by_cases hu : u = t
  · rw [hu, hs]
    show ((s.goto t _).pc t).Knows _ t
    rw [goto_self]
    trivial
  · refine hlater.knows (fun hcopy => ?_) (fun hw => by rwa [hs]) (by rw [hs]; exact moved_goto hu)
      (h.pc u)
    exact absurd hcopy (hlock.not_copy (t := t) (by simp [hpc, Pc.inside]) hu)

theorem ToldInv.take {n : ℤ} {bytes : List Byte} (h : ToldInv s) (hlock : Locked s)
    (hpc : s.pc t = .copy n bytes) (hsome : s.pipe.nread ≠ s.pipe.nwrite)
    (hs : s' = { s.goto t (.copy n (bytes ++ [s.pipe.take.1])) with pipe := s.pipe.take.2 }) :
    ToldInv s' := by
  have hlater : Later s s' := by
    refine ⟨fun hr => by rwa [hs], fun u hk => by rwa [hs], fun he => ?_⟩
    exact absurd (s.pipe.empty_iff.mpr he.2) hsome
  refine ⟨fun u => ?_, fun x hx => hlater.told (h.replies x (by rwa [hs] at hx))⟩
  by_cases hu : u = t
  · rw [hu, hs]
    show ((s.goto t _).pc t).Knows _ t
    rw [goto_self]
    intro hb
    simp at hb
  · refine hlater.knows (fun hcopy => ?_) (fun hw => by rwa [hs]) (by rw [hs]; exact moved_goto hu)
      (h.pc u)
    exact absurd hcopy (hlock.not_copy (t := t) (by simp [hpc, Pc.inside]) hu)

theorem count_pipeclose (s : State T) (t : T) (w : Bool) :
    (pipeclose s t w).pipe.count = s.pipe.count := by
  cases w <;> rfl

theorem ToldInv.close {w : Bool} (h : ToldInv s) : ToldInv (pipeclose s t w) := by
  have hflag : ∀ v, s.pipe.isOpen v = false → (pipeclose s t w).pipe.isOpen v = false := by
    intro v hv
    rw [isOpen_pipeclose, hv, Bool.false_and]
  have hlater : Later s (pipeclose s t w) :=
    ⟨hflag false, fun u hk => hk, fun he => ⟨hflag true he.1, (count_pipeclose s t w).trans he.2⟩⟩
  refine ⟨fun u => ?_, fun x hx => hlater.told (h.replies x hx)⟩
  by_cases hu : u = t
  · subst hu
    show ((s.goto u _).pc u).Knows _ u
    rw [goto_self]
    trivial
  · exact hlater.knows (fun _ => count_pipeclose s t w) (hflag true) (moved_goto hu) (h.pc u)

theorem ToldInv.leave {r : Reply} (h : ToldInv s) (hpc : s.pc t = .leave r) :
    ToldInv (leave s t r) := by
  have hlater : Later s (Pipes.leave s t r) := Later.of_same rfl rfl
  refine ⟨fun u => ?_, fun x hx => ?_⟩
  · by_cases hu : u = t
    · subst hu
      show ((s.goto u _).pc u).Knows _ u
      rw [goto_self]
      split <;> trivial
    · exact hlater.knows (fun _ => rfl) id (moved_goto hu) (h.pc u)
  · rcases List.mem_append.mp hx with hx | hx
    · exact hlater.told (h.replies x hx)
    · rw [List.mem_singleton.mp hx]
      have hknows := h.pc t
      rw [hpc] at hknows
      exact hlater.told hknows

theorem knows_goto (h : pc.Knows s t) : ((s.goto t pc).pc t).Knows s t := by
  rw [goto_self]
  exact h

theorem Goes.told (hgo : Goes s t s') (hlock : Locked s) (hends : EndsInv s) (h : ToldInv s) :
    ToldInv s' := by
  have hothers : ∀ u, u ≠ t → Moved (s.pc u) (s'.pc u) := fun u hu => hgo.others hu
  have hknows := h.pc t
  cases hgo with
  | store addr n i hpc hn hroom => exact h.put hlock hends hpc rfl
  | take n bytes hpc hn hsome => exact h.take hlock hpc hsome rfl
  | close w hpc => exact h.close
  | leave r hpc => exact h.leave hpc
  | filled addr n i hpc hn =>
      exact h.moves (t := t) rfl rfl rfl (knows_goto fun hok => by cases hok) hothers
  | refused addr n i hpc hfull hend =>
      exact h.moves (t := t) rfl rfl rfl (knows_goto fun _ => hend) hothers
  | interrupted n hpc hkilled =>
      exact h.moves (t := t) rfl rfl rfl (knows_goto ⟨fun _ => hkilled, fun hb => (by cases hb)⟩) hothers
  | ready n hpc hready =>
      refine h.moves (t := t) rfl rfl rfl (knows_goto fun _ hz => ?_) hothers
      exact hready (s.pipe.empty_iff.mpr hz)
  | taken n bytes hpc hend =>
      rw [hpc] at hknows
      refine h.moves (t := t) rfl rfl rfl (knows_goto ⟨fun hb => (by cases hb), fun hb hn => ?_⟩) hothers
      obtain rfl := Option.some.inj hb
      have hz := s.pipe.empty_iff.mp (hend hn)
      exact ⟨hknows rfl hz, hz⟩
  | finish r hpc =>
      rw [hpc] at hknows
      refine h.moves (t := t) rfl rfl rfl ?_ hothers
      rw [goto_self]
      exact hknows
  | acquire c hpc hnone | doze c hpc | free hpc | full _ _ _ hpc | empty _ hpc | wake c hpc =>
      refine h.moves (t := t) rfl rfl rfl ?_ hothers
      simp only [goto_self]
      trivial

structure PipeInv (s : State T) : Prop where
  lock : Locked s
  ends : EndsInv s
  told : ToldInv s

theorem step_inv {a : Event T} (h : PipeInv s) (hok : Promised s a) (hs : step s a = some s') :
    PipeInv s' := by
  refine ⟨step_locked h.lock hs, step_ends h.ends hok hs, ?_⟩
  cases a with
  | call t c =>
      obtain ⟨hpc, -, rfl⟩ := step_call hs
      exact h.told.moves (t := t) rfl rfl rfl (knows_goto trivial) fun u hu => moved_goto hu
  | go t => exact (goes_of_go hs).told h.lock h.ends h.told
  | kill t =>
      obtain rfl := Option.some.inj hs
      have hlater : Later s (kill s t) := by
        refine ⟨id, fun u hk => ?_, id⟩
        show Function.update s.killed t true u = true
        by_cases hu : u = t
        · rw [hu, Function.update_self]
        · rw [Function.update_of_ne hu, hk]
      exact ⟨fun u => hlater.knows (fun _ => rfl) id (moved_kill s t u) (h.told.pc u),
        fun x hx => hlater.told (h.told.replies x hx)⟩

theorem inv_of_run {page : ℕ → Byte} (hrun : Run step Promised (pipealloc page) s) : PipeInv s := by
  refine hrun.invariant ⟨?_, ⟨fun t w hw => ?_, fun t w _ hw => ?_⟩, fun t => trivial, fun x hx => ?_⟩
    fun _ _ _ ht hok hs => step_inv ht hok hs
  · exact (streamInv_pipealloc page).lock
  · cases hw
  · cases hw
  · cases hx

/-! ## Short reads -/

def Reply.short : Reply → Bool
  | .read n (some bytes) => bytes.length < n
  | _ => false

/-- The process is about to return from a read with less than it has asked for. -/
def Pc.short : Pc → Bool
  | .finish r | .leave r => r.short
  | _ => false

theorem Pc.inside_of_short (h : pc.short = true) : pc.inside = true := by
  cases pc with
  | finish r | leave r => rfl
  | _ => cases h

/-- The pipe is empty then, and stays so, since the process has the lock. -/
def ShortInv (s : State T) : Prop := ∀ t, (s.pc t).short = true → s.pipe.count = 0

/-- A step of a process that has the lock, or one that leaves the pipe alone. -/
theorem ShortInv.moves (h : ShortInv s) (hlock : Locked s)
    (hpipe : s'.pipe = s.pipe ∨ (s.pc t).inside = true)
    (hown : (s'.pc t).short = true → s'.pipe.count = 0)
    (hothers : ∀ u, u ≠ t → Moved (s.pc u) (s'.pc u)) : ShortInv s' := by
  intro u hu
  by_cases hut : u = t
  · subst hut
    exact hown hu
  · rw [(hothers u hut).same (f := Pc.short) fun _ => rfl] at hu
    rcases hpipe with hpipe | hin
    · rw [hpipe]
      exact h u hu
    · exact absurd (hlock.unique (Pc.inside_of_short hu) hin) hut

theorem Goes.short (hgo : Goes s t s') (hlock : Locked s) (h : ShortInv s) : ShortInv s' := by
  have hothers : ∀ u, u ≠ t → Moved (s.pc u) (s'.pc u) := fun u hu => hgo.others hu
  cases hgo with
  | taken n bytes hpc hend =>
      refine h.moves (t := t) hlock (.inl rfl) (fun hs => ?_) hothers
      rw [goto_self] at hs
      exact s.pipe.empty_iff.mp (hend (of_decide_eq_true hs))
  | finish r hpc =>
      refine h.moves (t := t) hlock (.inl rfl) (fun hs => ?_) hothers
      rw [goto_self] at hs
      exact h t (by rw [hpc]; exact hs)
  | store addr n i hpc hn hroom =>
      refine h.moves (t := t) hlock (.inr (by rw [hpc]; rfl)) (fun hs => ?_) hothers
      cases (congrArg Pc.short goto_self).symm.trans hs
  | take n bytes hpc hn hsome =>
      refine h.moves (t := t) hlock (.inr (by rw [hpc]; rfl)) (fun hs => ?_) hothers
      cases (congrArg Pc.short goto_self).symm.trans hs
  | close w hpc =>
      refine h.moves (t := t) hlock (.inr (by rw [hpc]; rfl)) (fun hs => ?_) hothers
      cases (congrArg Pc.short goto_self).symm.trans hs
  | leave r hpc =>
      refine h.moves (t := t) hlock (.inl rfl) (fun hs => ?_) hothers
      have hout := (congrArg Pc.short goto_self).symm.trans hs
      split at hout <;> cases hout
  | _ =>
      refine h.moves (t := t) hlock (.inl rfl) (fun hs => ?_) hothers
      cases (congrArg Pc.short goto_self).symm.trans hs

theorem step_short {a : Event T} (hlock : Locked s) (h : ShortInv s) (hs : step s a = some s') :
    ShortInv s' := by
  cases a with
  | call t c =>
      obtain ⟨hpc, -, rfl⟩ := step_call hs
      refine h.moves (t := t) hlock (.inl rfl) (fun hs => ?_) fun u hu => moved_goto hu
      cases (congrArg Pc.short goto_self).symm.trans hs
  | go t => exact (goes_of_go hs).short hlock h
  | kill t =>
      obtain rfl := Option.some.inj hs
      have hmoved := moved_kill s t
      refine h.moves (t := t) hlock (.inl rfl) (fun hs => h t ?_) fun u _ => hmoved u
      rwa [(hmoved t).same (f := Pc.short) fun _ => rfl] at hs

theorem short_of_run {page : ℕ → Byte} (hrun : Run step Promised (pipealloc page) s) :
    ShortInv s := by
  refine (hrun.invariant (P := fun s => Locked s ∧ ShortInv s) ⟨(streamInv_pipealloc page).lock,
    fun t ht => ?_⟩ fun _ _ _ ht _ hs => ⟨step_locked ht.1 hs, step_short ht.1 ht.2 hs⟩).2
  cases ht

/-- What the results of calls mean: the pipe is empty while a read returns with less than it has asked
for, and the rest holds from the return on. -/
structure Ends (s : State T) : Prop where
  short : ∀ t n bytes, s.pc t = .finish (.read n (some bytes)) ∨ s.pc t = .leave (.read n (some bytes)) →
    (bytes.length : ℤ) < n → s.lock = some t ∧ s.pipe.queued = []
  eof : ∀ t n, (t, .read n (some [])) ∈ s.replies → 0 < n → s.pipe.writeopen = false ∧
    s.stored.map Prod.snd = s.replies.flatMap (fun x => x.2.bytes) ++ s.inHand
  interrupted : ∀ t n, (t, .read n none) ∈ s.replies → s.killed t = true
  refused : ∀ t addr n i, (t, .write addr n i false) ∈ s.replies →
    s.pipe.readopen = false ∨ s.killed t = true

theorem ends_of_run {page : ℕ → Byte} (hrun : Run step Promised (pipealloc page) s) : Ends s := by
  have hinv := inv_of_run hrun
  have htold := hinv.told.replies
  have hqueued : s.pipe.count = 0 → s.pipe.queued = [] := fun hcount => by
    rw [Pipe.queued, hcount]
    rfl
  refine ⟨fun t n bytes hpc hlt => ?_, fun t n hmem hn => ?_, fun t n hmem => (htold _ hmem).1 rfl,
    fun t addr n i hmem => htold _ hmem rfl⟩
  · have hshort : (s.pc t).short = true := by
      rcases hpc with hpc | hpc <;> rw [hpc] <;> exact decide_eq_true hlt
    exact ⟨(hinv.lock t).mpr (Pc.inside_of_short hshort), hqueued (short_of_run hrun t hshort)⟩
  · obtain ⟨hclosed, hcount⟩ := (htold _ hmem).2 rfl hn
    have horder := (streamInv_of_run hrun).order
    rw [hqueued hcount, List.append_nil] at horder
    exact ⟨hclosed, horder⟩

/-! ## The life of the page -/

/-- Both ends are closed. -/
def Pipe.shut (p : Pipe) : Prop := p.readopen = false ∧ p.writeopen = false

/-- The process has closed an end and will free the page, if that was the last one. -/
def Pc.inClose (pc : Pc) : Bool := pc.closed true || pc.closed false

/-- Everybody else is out of the pipe. -/
def State.Alone (s : State T) (t : T) : Prop := ∀ u, u ≠ t → s.pc u = .out

/-- An end is open; or the second `pipeclose` has the lock, has released it, or has freed the page. -/
inductive Life (s : State T) : Prop
  | used (hshut : ¬ s.pipe.shut) (hfrees : s.frees = 0) (hfree : ∀ u, s.pc u ≠ .free)
  | closing (t : T) (hshut : s.pipe.shut) (hfrees : s.frees = 0) (hpc : (s.pc t).inClose = true)
    (halone : s.Alone t)
  | freeing (t : T) (hshut : s.pipe.shut) (hfrees : s.frees = 0) (hpc : s.pc t = .free)
    (halone : s.Alone t)
  | freed (hshut : s.pipe.shut) (hfrees : s.frees = 1) (hout : ∀ u, s.pc u = .out)

theorem Pc.closed_of_inClose (h : pc.inClose = true) :
    ∃ w, pc = .finish (.close w) ∨ pc = .leave (.close w) := by
  unfold Pc.inClose at h
  cases pc with
  | finish r =>
      cases r with
      | close w => exact ⟨w, .inl rfl⟩
      | _ => cases h
  | leave r =>
      cases r with
      | close w => exact ⟨w, .inr rfl⟩
      | _ => cases h
  | _ => cases h

theorem Pc.inClose_of_closed {w : Bool} (h : pc.closed w = true) : pc.inClose = true := by
  unfold Pc.inClose
  cases w
  · rw [h, Bool.or_true]
  · rw [h, Bool.true_or]

/-- A process that uses no end is out, or is about to free the page. -/
theorem Pc.out_of_using (h : pc.using = none) : pc = .out ∨ pc = .free := by
  cases pc with
  | out => exact .inl rfl
  | free => exact .inr rfl
  | _ => cases h

omit [DecidableEq T] in
/-- Once both ends are closed, a process that uses one has just closed it. -/
theorem EndsInv.inClose (h : EndsInv s) (hshut : s.pipe.shut) {w : Bool}
    (hu : (s.pc u).using = some w) : (s.pc u).inClose = true := by
  refine Pc.inClose_of_closed (h.closed u w ?_ hu)
  cases w
  · exact hshut.1
  · exact hshut.2

omit [DecidableEq T] in
/-- The second `pipeclose` makes its assignment while nobody else is in the pipe. -/
theorem EndsInv.alone {w : Bool} (h : EndsInv s) (hlock : Locked s) (hpc : s.pc t = .run (.close w))
    (hother : s.pipe.isOpen (!w) = false) (hfree : ∀ u, s.pc u ≠ .free) : s.Alone t := by
  intro u hu
  refine (Pc.out_of_using ?_).resolve_right (hfree u)
  by_contra hsome
  obtain ⟨v, hv⟩ := Option.ne_none_iff_exists'.mp hsome
  have hcloses : (s.pc t).closes w = true := by simp [hpc, Pc.closes, Call.isClose, Call.writable]
  by_cases hvw : v = w
  · subst hvw
    exact (h.closing t v hcloses).2 u hu hv
  · obtain rfl : v = !w := by cases v <;> cases w <;> first | rfl | exact absurd rfl hvw
    have hin := Pc.inside_of_closed (h.closed u _ hother hv)
    exact hu (hlock.unique (t := u) (u := t) hin (by simp [hpc, Pc.inside]))

theorem shut_pipeclose {w : Bool} (s : State T) (t : T) :
    (pipeclose s t w).pipe.shut ↔ s.pipe.isOpen (!w) = false := by
  cases w <;> simp [pipeclose, Pipe.shut, Pipe.isOpen]

theorem Life.close {w : Bool} (h : Life s) (hlock : Locked s) (hends : EndsInv s)
    (hpc : s.pc t = .run (.close w)) : Life (pipeclose s t w) := by
  have hself : (pipeclose s t w).pc t = .finish (.close w) := goto_self
  have hrun : ∀ u, (s.pc u).inClose = true ∨ s.pc u = .free ∨ s.pc u = .out → u ≠ t := by
    rintro u hu rfl
    rw [hpc] at hu
    rcases hu with hu | hu | hu <;> cases hu
  cases h with
  | used hshut hfrees hfree =>
      by_cases hother : s.pipe.isOpen (!w) = false
      · have halone := hends.alone hlock hpc hother hfree
        refine .closing t ((shut_pipeclose s t).mpr hother) hfrees ?_ fun u hu => ?_
        · rw [hself]
          exact Pc.inClose_of_closed (w := w) (beq_self_eq_true w)
        · exact (goto_of_ne hu).trans (halone u hu)
      · refine .used (fun hs => hother ((shut_pipeclose s t).mp hs)) hfrees fun u => ?_
        by_cases hu : u = t
        · rw [hu, hself]
          exact fun h => by cases h
        · exact fun h => hfree u ((goto_of_ne hu).symm.trans h)
  | closing u hshut hfrees hin halone =>
      have := halone t (Ne.symm (hrun u (.inl hin)))
      rw [hpc] at this
      cases this
  | freeing u hshut hfrees hfree halone =>
      have := halone t (Ne.symm (hrun u (.inr (.inl hfree))))
      rw [hpc] at this
      cases this
  | freed hshut hfrees hout =>
      have := hout t
      rw [hpc] at this
      cases this

theorem Moved.out {pc pc' : Pc} (h : Moved pc pc') : pc' = .out ↔ pc = .out := by
  rcases h with rfl | ⟨c, rfl, rfl⟩
  · exact Iff.rfl
  · exact iff_of_false (fun h => by cases h) fun h => by cases h

theorem Moved.free {pc pc' : Pc} (h : Moved pc pc') : pc' = .free ↔ pc = .free := by
  rcases h with rfl | ⟨c, rfl, rfl⟩
  · exact Iff.rfl
  · exact iff_of_false (fun h => by cases h) fun h => by cases h

theorem Goes.ne_out (hgo : Goes s t s') : s.pc t ≠ .out := by
  intro hout
  cases hgo <;> simp_all

/-- A step that closes nothing, of a process that does not go on to free the page. -/
theorem Life.moves (h : Life s) (hshut : s'.pipe.shut ↔ s.pipe.shut) (hfrees : s'.frees = s.frees)
    (hout : s.pc t ≠ .out) (hfree : s.pc t ≠ .free ∧ s'.pc t ≠ .free)
    (hin : (s.pc t).inClose = true → (s'.pc t).inClose = true)
    (hothers : ∀ u, u ≠ t → Moved (s.pc u) (s'.pc u)) : Life s' := by
  cases h with
  | used hno hzero hnone =>
      refine .used (fun h => hno (hshut.mp h)) (hfrees.trans hzero) fun u => ?_
      by_cases hu : u = t
      · exact hu ▸ hfree.2
      · exact fun h => hnone u ((hothers u hu).free.mp h)
  | closing u hs hzero hu halone =>
      obtain rfl : t = u := by
        by_contra hne
        exact hout (halone t hne)
      exact .closing t (hshut.mpr hs) (hfrees.trans hzero) (hin hu) fun v hv =>
        (hothers v hv).out.mpr (halone v hv)
  | freeing u hs hzero hu halone =>
      by_cases htu : t = u
      · exact absurd (htu ▸ hu) hfree.1
      · exact absurd (halone t htu) hout
  | freed hs hone hall => exact absurd (hall t) hout

theorem Life.leave {r : Reply} (h : Life s) (hpc : s.pc t = .leave r) : Life (leave s t r) := by
  have hout : s.pc t ≠ .out := by simp [hpc]
  have hself : (Pipes.leave s t r).pc t = if lastClose s.pipe r then .free else .out := goto_self
  have hother : ∀ u, u ≠ t → (Pipes.leave s t r).pc u = s.pc u := fun u hu => goto_of_ne hu
  cases h with
  | used hno hzero hnone =>
      refine .used hno hzero fun u => ?_
      by_cases hu : u = t
      · have hlast : lastClose s.pipe r = false := by
          rw [← Bool.not_eq_true]
          intro hl
          cases r with
          | close w =>
              simp only [lastClose, Bool.and_eq_true, Bool.not_eq_true'] at hl
              exact hno hl
          | _ => cases hl
        rw [hu, hself, hlast]
        exact fun h => by cases h
      · rw [hother u hu]
        exact hnone u
  | closing u hs hzero hu halone =>
      obtain rfl : t = u := by
        by_contra hne
        exact hout (halone t hne)
      obtain ⟨w, hw⟩ := Pc.closed_of_inClose hu
      obtain rfl : r = .close w := by
        rw [hpc] at hw
        rcases hw with hw | hw
        · cases hw
        · exact Pc.leave.inj hw
      refine .freeing t hs hzero ?_ fun v hv => (hother v hv).trans (halone v hv)
      rw [hself, if_pos]
      simp only [lastClose, hs.1, hs.2]
      rfl
  | freeing u hs hzero hu halone =>
      by_cases htu : t = u
      · rw [← htu, hpc] at hu
        cases hu
      · exact absurd (halone t htu) hout
  | freed hs hone hall => exact absurd (hall t) hout

theorem Life.free (h : Life s) (hpc : s.pc t = .free) :
    Life { s.goto t .out with frees := s.frees + 1 } := by
  cases h with
  | used hno hzero hnone => exact absurd hpc (hnone t)
  | closing u hs hzero hu halone =>
      by_cases htu : t = u
      · rw [← htu, hpc] at hu
        cases hu
      · have := halone t htu
        rw [hpc] at this
        cases this
  | freeing u hs hzero hu halone =>
      obtain rfl : t = u := by
        by_contra hne
        have := halone t hne
        rw [hpc] at this
        cases this
      refine .freed hs (congrArg (· + 1) hzero) fun v => ?_
      by_cases hv : v = t
      · exact hv ▸ goto_self
      · exact (goto_of_ne hv).trans (halone v hv)
  | freed hs hone hall =>
      have := hall t
      rw [hpc] at this
      cases this

theorem Goes.life (hgo : Goes s t s') (hlock : Locked s) (hends : EndsInv s) (h : Life s) :
    Life s' := by
  have hothers : ∀ u, u ≠ t → Moved (s.pc u) (s'.pc u) := fun u hu => hgo.others hu
  have hout := hgo.ne_out
  cases hgo with
  | close w hpc => exact h.close hlock hends hpc
  | leave r hpc => exact h.leave hpc
  | free hpc => exact h.free hpc
  | acquire c hpc hnone =>
      refine h.moves (t := t) Iff.rfl rfl hout ?_ ?_ hothers
      · rcases hpc with hpc | hpc <;> simp [hpc]
      · rcases hpc with hpc | hpc <;> simp [hpc, Pc.inClose, Pc.closed]
  | finish r hpc =>
      refine h.moves (t := t) Iff.rfl rfl hout (by simp [hpc]) ?_ hothers
      rw [hpc, goto_self]
      cases r <;> exact id
  | filled _ _ _ hpc | refused _ _ _ hpc | full _ _ _ hpc | store _ _ _ hpc | interrupted _ hpc
  | empty _ hpc | ready _ hpc | take _ _ hpc | taken _ _ hpc | doze _ hpc | wake _ hpc =>
      refine h.moves (t := t) Iff.rfl rfl hout (by simp [hpc]) ?_ hothers
      rw [hpc]
      exact fun h => by cases h

theorem step_life {a : Event T} (h : Life s) (hinv : PipeInv s) (hok : Promised s a)
    (hs : step s a = some s') : Life s' := by
  cases a with
  | call t c =>
      obtain ⟨hpc, -, rfl⟩ := step_call hs
      obtain ⟨hopen, -, -⟩ := hok
      cases h with
      | used hno hzero hnone =>
          refine .used hno hzero fun u => ?_
          by_cases hu : u = t
          · rw [hu, goto_self]
            exact fun h => by cases h
          · rw [goto_of_ne hu]
            exact hnone u
      | closing _ hshut | freeing _ hshut | freed hshut =>
          have hclosed : s.pipe.isOpen c.writable = false := by
            cases c.writable
            · exact hshut.1
            · exact hshut.2
          rw [hopen] at hclosed
          cases hclosed
  | go t => exact (goes_of_go hs).life hinv.lock hinv.ends h
  | kill t =>
      obtain rfl := Option.some.inj hs
      have hmoved := moved_kill s t
      cases h with
      | used hno hzero hnone =>
          exact .used hno hzero fun u h => hnone u ((hmoved u).free.mp h)
      | closing u hshut hzero hu halone =>
          refine .closing u hshut hzero ?_ fun v hv => (hmoved v).out.mpr (halone v hv)
          rwa [(hmoved u).same (f := Pc.inClose) fun _ => rfl]
      | freeing u hshut hzero hu halone =>
          exact .freeing u hshut hzero ((hmoved u).free.mpr hu) fun v hv =>
            (hmoved v).out.mpr (halone v hv)
      | freed hshut hone hall => exact .freed hshut hone fun u => (hmoved u).out.mpr (hall u)

/-- The page is freed at most once, when nobody is in the pipe or will be again, and it is freed when
both ends are closed and all calls have returned. -/
structure FreedOnce (s : State T) : Prop where
  once : s.frees ≤ 1
  unused : s.frees = 1 → s.pipe.shut ∧ ∀ t, s.pc t = .out
  freed : s.pipe.shut → (∀ t, s.pc t = .out) → s.frees = 1

theorem freed_of_run {page : ℕ → Byte} (hrun : Run step Promised (pipealloc page) s) :
    FreedOnce s := by
  have hstart : Life (pipealloc page : State T) := by
    refine .used (fun h => ?_) rfl fun u h => ?_
    · cases h.1
    · cases h
  have hinv : PipeInv s ∧ Life s := by
    refine hrun.invariant (P := fun s => PipeInv s ∧ Life s) ⟨inv_of_run .refl, hstart⟩ ?_
    rintro u a v ⟨hu, hlife⟩ hok hs
    exact ⟨step_inv hu hok hs, step_life hlife hu hok hs⟩
  cases hinv.2 with
  | used hno hzero hnone =>
      exact ⟨hzero ▸ Nat.zero_le 1, fun h => by omega, fun h => absurd h hno⟩
  | closing t hshut hzero ht halone =>
      refine ⟨hzero ▸ Nat.zero_le 1, fun h => by omega, fun _ hall => ?_⟩
      rw [hall t] at ht
      cases ht
  | freeing t hshut hzero ht halone =>
      refine ⟨hzero ▸ Nat.zero_le 1, fun h => by omega, fun _ hall => ?_⟩
      rw [hall t] at ht
      cases ht
  | freed hshut hone hall => exact ⟨Nat.le_of_eq hone, fun _ => ⟨hshut, hall⟩, fun _ _ => hone⟩

/-- The writer closes its end, and the reader gets the end of the stream and closes its own. -/
def closedPipe : List (Event Bool) :=
  .call true (.close true) :: List.replicate 4 (.go true) ++ .call false (.read 2) ::
    List.replicate 5 (.go false) ++ .call false (.close false) :: List.replicate 5 (.go false)

theorem closedPipe_ends : ∃ s, play step closedPipe (pipealloc fun _ => 0) = some s ∧
    s.replies.length = 3 ∧ Ends s := by
  have hplay : (play step closedPipe (pipealloc fun _ => 0)).map (fun s => s.replies.length) =
      some 3 := by decide +kernel
  obtain ⟨s, hs, hlen⟩ := Option.map_eq_some_iff.mp hplay
  exact ⟨s, hs, hlen, ends_of_run (.of_playOk (by decide +kernel) hs)⟩

theorem closedPipe_freed : ∃ s, play step closedPipe (pipealloc fun _ => 0) = some s ∧
    s.frees = 1 ∧ FreedOnce s := by
  have hplay : (play step closedPipe (pipealloc fun _ => 0)).map (fun s => s.frees) = some 1 := by
    decide +kernel
  obtain ⟨s, hs, hfrees⟩ := Option.map_eq_some_iff.mp hplay
  exact ⟨s, hs, hfrees, freed_of_run (.of_playOk (by decide +kernel) hs)⟩

end IntroToOS.Pipes

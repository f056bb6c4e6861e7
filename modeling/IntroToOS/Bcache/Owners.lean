import IntroToOS.Lib.Mutex
import IntroToOS.Bcache.Machine

/-! # Who has a buffer

However the processes and the interrupt handler interleave, a sector is in one buffer at most, a
buffer is `B_BUSY` exactly while one process has it, and it is up to date whenever that process is not
in a call of its own. None of the panics of `bio.c` and `ide.c` can happen but the one of `bget`, and
that one only when all the buffers are in use (`owners_of_run`).
-/

namespace IntroToOS.Bcache
open Lib
set_option autoImplicit false

variable {T D : Type} [DecidableEq T] {s s' : Cache T D} {t u : T} {b c : BufId} {pc : Pc}
  {dev sector : BitVec 32} {k : Rw}

/-! ## Steps -/

/-- What a step of `t` can do. -/
inductive Goes (s : Cache T D) (t : T) : Cache T D → Prop
  | acquire (dev sector : BitVec 32)
    (hpc : s.pc t = .get dev sector ∨ s.pc t = .wokenGet dev sector) (hlock : s.bcacheLock = none) :
    Goes s t { s.goto t (.scan dev sector) with bcacheLock := some t }
  | busy (b : BufId) (dev sector : BitVec 32) (hpc : s.pc t = .scan dev sector)
    (hfind : cached s dev sector = some b) (hbusy : (s.buf b).busy = true) :
    Goes s t { s.goto t (.asleepGet b dev sector) with bcacheLock := none }
  | hit (b : BufId) (dev sector : BitVec 32) (hpc : s.pc t = .scan dev sector)
    (hfind : cached s dev sector = some b) (hbusy : (s.buf b).busy = false) :
    Goes s t (give s t b (s.buf b))
  | miss (b : BufId) (dev sector : BitVec 32) (hpc : s.pc t = .scan dev sector)
    (hnone : cached s dev sector = none) (hfind : victim s = some b) :
    Goes s t (give s t b { dev := dev, sector := sector, data := (s.buf b).data })
  | full (dev sector : BitVec 32) (hpc : s.pc t = .scan dev sector)
    (hnone : cached s dev sector = none) (hfull : victim s = none) : Goes s t (s.panic .bget)
  | found (b : BufId) (hpc : s.pc t = .got b) (hvalid : (s.buf b).valid = true) :
    Goes s t (s.goto t .out)
  | read (b : BufId) (hpc : s.pc t = .got b) (hvalid : (s.buf b).valid = false) :
    Goes s t (s.goto t (.iderw b .bread))
  | refused (b : BufId) (k : Rw) (p : Panic) (hpc : s.pc t = .iderw b k)
    (hp : (s.buf b).busy = false ∨ (s.buf b).valid = true ∧ (s.buf b).dirty = false ∨
      (s.buf b).dev ≠ 0 ∧ s.havedisk1 = false) : Goes s t (s.panic p)
  | checked (b : BufId) (k : Rw) (hpc : s.pc t = .iderw b k) : Goes s t (s.goto t (.enter b k))
  | lock (b : BufId) (k : Rw) (hpc : s.pc t = .enter b k) (hlock : s.idelock = none) :
    Goes s t { s.goto t (.append b k) with idelock := some (.proc t) }
  | relock (b : BufId) (k : Rw) (hpc : s.pc t = .wokenIde b k) (hlock : s.idelock = none) :
    Goes s t { s.goto t (.wait b k) with idelock := some (.proc t) }
  | enqueue (b : BufId) (k : Rw) (hpc : s.pc t = .append b k) : Goes s t (enqueue s t b k)
  | done (b : BufId) (k : Rw) (hpc : s.pc t = .wait b k) (hserved : (s.buf b).served = true) :
    Goes s t { s.goto t .out with idelock := none }
  | doze (b : BufId) (k : Rw) (hpc : s.pc t = .wait b k) (hserved : (s.buf b).served = false) :
    Goes s t { s.goto t (.asleepIde b k) with idelock := none }
  | remove (b : BufId) (hpc : s.pc t = .brelse b) (hlock : s.bcacheLock = none) :
    Goes s t { s.goto t (.move b) with bcacheLock := some t }
  | move (b : BufId) (hpc : s.pc t = .move b) : Goes s t (moveToFront s t b)
  | wake (b : BufId) (hpc : s.pc t = .wake b) : Goes s t ((wakeup s b).goto t .unlock)
  | unlock (hpc : s.pc t = .unlock) : Goes s t { s.goto t .out with bcacheLock := none }

theorem goes_bget (hpc : s.pc t = .scan dev sector) : Goes s t (bget s t dev sector) := by
  unfold bget
  split
  · next b hfind =>
    split
    · next hbusy => exact .busy b dev sector hpc hfind hbusy
    · next hbusy => exact .hit b dev sector hpc hfind (Bool.not_eq_true _ ▸ hbusy)
  · next hnone =>
    split
    · next b hfind => exact .miss b dev sector hpc hnone hfind
    · next hfull => exact .full dev sector hpc hnone hfull

theorem goes_iderw (hpc : s.pc t = .iderw b k) : Goes s t (iderw s t b k) := by
  unfold iderw
  dsimp only
  split
  · next hbusy => exact .refused b k _ hpc (.inl hbusy)
  · split
    · next hdone => exact .refused b k _ hpc (.inr (.inl hdone))
    · split
      · next hdisk => exact .refused b k _ hpc (.inr (.inr hdisk))
      · exact .checked b k hpc

theorem goes_waitIde (hpc : s.pc t = .wait b k) : Goes s t (waitIde s t b k) := by
  unfold waitIde
  split
  · next hserved => exact .done b k hpc hserved
  · next hserved => exact .doze b k hpc (Bool.not_eq_true _ ▸ hserved)

theorem goes_of_go (hs : go s t = some s') : Goes s t s' := by
  unfold go at hs
  split at hs
  case h_1 | h_2 | h_3 => cases hs
  case h_4 dev sector hpc =>
    obtain ⟨hlock, rfl⟩ := Option.ite_none_right_eq_some.mp hs |>.imp_right Option.some.inj
    exact .acquire dev sector (.inl hpc) hlock
  case h_5 dev sector hpc =>
    obtain ⟨hlock, rfl⟩ := Option.ite_none_right_eq_some.mp hs |>.imp_right Option.some.inj
    exact .acquire dev sector (.inr hpc) hlock
  case h_9 b k hpc =>
    obtain ⟨hlock, rfl⟩ := Option.ite_none_right_eq_some.mp hs |>.imp_right Option.some.inj
    exact .lock b k hpc hlock
  case h_11 b k hpc =>
    obtain ⟨hlock, rfl⟩ := Option.ite_none_right_eq_some.mp hs |>.imp_right Option.some.inj
    exact .relock b k hpc hlock
  case h_13 b hpc =>
    obtain ⟨hlock, rfl⟩ := Option.ite_none_right_eq_some.mp hs |>.imp_right Option.some.inj
    exact .remove b hpc hlock
  all_goals obtain rfl := Option.some.inj hs
  case h_6 hpc => exact goes_bget hpc
  case h_7 b hpc =>
    split
    · next hvalid => exact .found b hpc hvalid
    · next hvalid => exact .read b hpc (Bool.not_eq_true _ ▸ hvalid)
  case h_8 hpc => exact goes_iderw hpc
  case h_10 hpc => exact .enqueue _ _ hpc
  case h_12 hpc => exact goes_waitIde hpc
  case h_14 hpc => exact .move _ hpc
  case h_15 hpc => exact .wake _ hpc
  case h_16 hpc => exact .unlock hpc

/-- What a step of the interrupt handler can do. -/
inductive Handles (s : Cache T D) (ok : Bool) : Cache T D → Prop
  | interrupt (hpc : s.handler = .idle) : Handles s ok { s with handler := .enter }
  | acquire (hpc : s.handler = .enter) (hlock : s.idelock = none) :
    Handles s ok { s with idelock := some .handler, handler := .run }
  | spurious (hpc : s.handler = .run) (hqueue : s.idequeue = []) :
    Handles s ok { s with idelock := none, handler := .idle }
  | serve (b : BufId) (queue : List BufId) (data : D) (hpc : s.handler = .run)
    (hqueue : s.idequeue = b :: queue)
    (hdirty : (s.buf b).dirty = true → data = (s.buf b).data)
    (hread : (s.buf b).dirty = false → ok = true →
      data = s.disk (ideAddr (s.buf b).dev (s.buf b).sector)) :
    Handles s ok { s.setBuf b { s.buf b with valid := true, dirty := false, data := data } with
      idequeue := queue
      handler := .wake b
      started := none }
  | wake (b : BufId) (hpc : s.handler = .wake b) :
    Handles s ok { wakeup s b with handler := .start }
  | last (hpc : s.handler = .start) (hqueue : s.idequeue = []) :
    Handles s ok { s with idelock := none, handler := .idle }
  | start (b : BufId) (queue : List BufId) (hpc : s.handler = .start)
    (hqueue : s.idequeue = b :: queue) :
    Handles s ok { idestart s b with idelock := none, handler := .idle }

omit [DecidableEq T] in
theorem handles_ideintr {ok : Bool} (hpc : s.handler = .run) : Handles s ok (ideintr s ok) := by
  unfold ideintr
  split
  · next hqueue => exact .spurious hpc hqueue
  · next b queue hqueue =>
    refine .serve b queue _ hpc hqueue (fun hdirty => ?_) fun hdirty hok => ?_
    · rw [if_neg fun h => Bool.false_ne_true (h.1.symm.trans hdirty)]
    · rw [if_pos ⟨hdirty, hok⟩]

omit [DecidableEq T] in
theorem handles_startNext {ok : Bool} (hpc : s.handler = .start) : Handles s ok (startNext s) := by
  unfold startNext
  split
  · next hqueue => exact .last hpc hqueue
  · next b queue hqueue => exact .start b queue hpc hqueue

omit [DecidableEq T] in
theorem handles_of_handle {ok : Bool} (hs : handle s ok = some s') : Handles s ok s' := by
  unfold handle at hs
  split at hs
  case h_2 hpc =>
    obtain ⟨hlock, rfl⟩ := Option.ite_none_right_eq_some.mp hs |>.imp_right Option.some.inj
    exact .acquire hpc hlock
  all_goals obtain rfl := Option.some.inj hs
  case h_1 hpc => exact .interrupt hpc
  case h_3 hpc => exact handles_ideintr hpc
  case h_4 b hpc => exact .wake b hpc
  case h_5 hpc => exact handles_startNext hpc

/-- A process that does not make the step is woken at most. -/
def Moved (pc pc' : Pc) : Prop :=
  pc' = pc ∨ (∃ b dev sector, pc = .asleepGet b dev sector ∧ pc' = .wokenGet dev sector) ∨
    ∃ b k, pc = .asleepIde b k ∧ pc' = .wokenIde b k

theorem moved_wakePc (b : BufId) (pc : Pc) : Moved pc (wakePc b pc) := by
  unfold wakePc
  split
  · next c dev sector =>
    split
    · exact .inr (.inl ⟨c, dev, sector, rfl, rfl⟩)
    · exact .inl rfl
  · next c k =>
    split
    · exact .inr (.inr ⟨c, k, rfl, rfl⟩)
    · exact .inl rfl
  · exact .inl rfl

theorem moved_killPc (pc : Pc) : Moved pc (killPc pc) := by
  unfold killPc
  split
  · next b dev sector => exact .inr (.inl ⟨b, dev, sector, rfl, rfl⟩)
  · next b k => exact .inr (.inr ⟨b, k, rfl, rfl⟩)
  · exact .inl rfl

/-- A function of the program counter that a wake-up leaves alone. -/
theorem Moved.same {α : Type*} {f : Pc → α}
    (hget : ∀ b dev sector, f (.wokenGet dev sector) = f (.asleepGet b dev sector))
    (hide : ∀ b k, f (.wokenIde b k) = f (.asleepIde b k)) {pc pc' : Pc} (h : Moved pc pc') :
    f pc' = f pc := by
  rcases h with rfl | ⟨b, dev, sector, rfl, rfl⟩ | ⟨b, k, rfl, rfl⟩
  · rfl
  · exact hget b dev sector
  · exact hide b k

@[simp] theorem goto_self : (s.goto t pc).pc t = pc := Function.update_self ..

theorem goto_of_ne (h : u ≠ t) : (s.goto t pc).pc u = s.pc u := Function.update_of_ne h ..

theorem moved_goto (h : u ≠ t) : Moved (s.pc u) ((s.goto t pc).pc u) := .inl (goto_of_ne h)

theorem Goes.others (h : Goes s t s') (hu : u ≠ t) : Moved (s.pc u) (s'.pc u) := by
  cases h with
  | full | refused => exact .inl rfl
  | wake b hpc =>
      rw [goto_of_ne hu]
      exact moved_wakePc b _
  | enqueue b k hpc =>
      unfold Bcache.enqueue
      dsimp only
      split <;> exact moved_goto hu
  | _ => exact moved_goto hu

omit [DecidableEq T] in
theorem Handles.others {ok : Bool} (h : Handles s ok s') (u : T) : Moved (s.pc u) (s'.pc u) := by
  cases h with
  | wake b hpc => exact moved_wakePc b _
  | _ => exact .inl rfl

theorem moved_kill (s : Cache T D) (t u : T) : Moved (s.pc u) ((s.goto t (killPc (s.pc t))).pc u) := by
  by_cases hu : u = t
  · subst hu
    rw [goto_self]
    exact moved_killPc _
  · exact moved_goto hu

/-! ## What a process does with its buffers -/

inductive Use
  | fresh
  | asked (k : Rw)
  | queued (k : Rw)
  | leaving
  deriving DecidableEq

/-- The buffer that a process is busy with. -/
def Pc.use : Pc → Option (BufId × Use)
  | .got b => some (b, .fresh)
  | .iderw b k | .enter b k | .append b k => some (b, .asked k)
  | .wait b k | .asleepIde b k | .wokenIde b k => some (b, .queued k)
  | .brelse b | .move b => some (b, .leaving)
  | _ => none

def Pc.useOf (pc : Pc) (b : BufId) : Option Use :=
  pc.use.bind fun x => if x.1 = b then some x.2 else none

theorem Moved.use {pc pc' : Pc} (h : Moved pc pc') : pc'.use = pc.use :=
  h.same (f := Pc.use) (fun _ _ _ => rfl) fun _ _ => rfl

theorem useOf_eq_some {x : Use} : pc.useOf b = some x ↔ pc.use = some (b, x) := by
  simp only [Pc.useOf, Option.bind_eq_some_iff, Option.ite_none_right_eq_some, Option.some.injEq,
    Prod.exists]
  constructor
  · rintro ⟨_, _, huse, rfl, rfl⟩
    exact huse
  · intro huse
    exact ⟨b, x, huse, rfl, rfl⟩

/-- A process that is busy with one buffer holds the others. -/
theorem useOf_of_ne (h : ∀ c x, pc.use = some (c, x) → c = b) (hc : c ≠ b) : pc.useOf c = none := by
  rw [Option.eq_none_iff_forall_ne_some]
  intro x hx
  exact hc (h c x (useOf_eq_some.mp hx))

/-- What is left to do for the buffer. -/
def Pending (x : Buf D) : Rw → Prop
  | .bread => x.valid = false ∧ x.dirty = false
  | .bwrite => x.dirty = true

/-- The flags of a buffer whose owner makes this use of it. -/
def Fits (x : Buf D) (queued : Prop) (modified : Bool) : Option Use → Prop
  | none => x.served = true ∧ ¬ queued
  | some .fresh => x.dirty = false ∧ ¬ queued ∧ modified = false
  | some (.asked k) => Pending x k ∧ ¬ queued ∧ modified = false
  | some (.queued k) => (queued ∧ Pending x k ∨ ¬ queued ∧ x.served = true) ∧ modified = false
  | some .leaving => x.served = true ∧ ¬ queued ∧ modified = false

structure Kept (s : Cache T D) (b : BufId) : Prop where
  rests : s.owner b = none → (s.buf b).busy = false ∧ (s.buf b).dirty = false ∧
    b ∉ s.idequeue ∧ s.modified b = false
  fits : ∀ t, s.owner b = some t → (s.buf b).busy = true ∧
    Fits (s.buf b) (b ∈ s.idequeue) (s.modified b) ((s.pc t).useOf b)

structure Owned (s : Cache T D) : Prop where
  has : ∀ t b x, (s.pc t).use = some (b, x) → s.owner b = some t
  kept : ∀ b, Kept s b

/-- What a step leaves alone of a buffer. -/
def Untouched (s s' : Cache T D) (b : BufId) : Prop :=
  s'.buf b = s.buf b ∧ s'.owner b = s.owner b ∧ (b ∈ s'.idequeue ↔ b ∈ s.idequeue) ∧
    s'.modified b = s.modified b

/-- A step of `t` that is about one buffer. -/
theorem Owned.step (h : Owned s) (b : BufId) (t : T)
    (hothers : ∀ u, u ≠ t → (s'.pc u).use = (s.pc u).use)
    (hpc : ∀ c x, (s.pc t).use = some (c, x) → c = b)
    (hpc' : ∀ c x, (s'.pc t).use = some (c, x) → c = b ∧ s'.owner b = some t)
    (hown : s'.owner b = s.owner b ∨ s.owner b = none ∨ s.owner b = some t)
    (hcells : ∀ c, c ≠ b → Untouched s s' c) (hb : Kept s' b) : Owned s' := by
  refine ⟨fun u c x huse => ?_, fun c => ?_⟩
  · by_cases hu : u = t
    · subst hu
      obtain ⟨rfl, howner⟩ := hpc' c x huse
      exact howner
    · rw [hothers u hu] at huse
      have hhas := h.has u c x huse
      by_cases hc : c = b
      · subst hc
        rcases hown with heq | hnone | hmine
        · rw [heq, hhas]
        · cases hnone.symm.trans hhas
        · exact absurd (Option.some.inj (hhas.symm.trans hmine)) hu
      · rw [(hcells c hc).2.1, hhas]
  · by_cases hc : c = b
    · rw [hc]
      exact hb
    · obtain ⟨hbuf, howner, hqueue, hmod⟩ := hcells c hc
      refine ⟨fun hnone => ?_, fun u hu => ?_⟩
      · rw [hbuf, hqueue, hmod]
        exact (h.kept c).rests (howner.symm.trans hnone)
      · have huse : (s'.pc u).useOf c = (s.pc u).useOf c := by
          by_cases hut : u = t
          · rw [hut, useOf_of_ne hpc hc, useOf_of_ne (fun d x hd => (hpc' d x hd).1) hc]
          · rw [Pc.useOf, hothers u hut, Pc.useOf]
        rw [hbuf, hqueue, hmod, huse]
        exact (h.kept c).fits u (howner.symm.trans hu)

omit [DecidableEq T] in
/-- A step that changes neither a buffer nor what is done with it. -/
theorem Owned.same (h : Owned s) (hpc : ∀ u, (s'.pc u).use = (s.pc u).use)
    (hcells : ∀ c, Untouched s s' c) : Owned s' := by
  refine ⟨fun u c x huse => ?_, fun c => ?_⟩
  · rw [(hcells c).2.1]
    exact h.has u c x (hpc u ▸ huse)
  · obtain ⟨hbuf, howner, hqueue, hmod⟩ := hcells c
    refine ⟨fun hnone => ?_, fun u hu => ?_⟩
    · rw [hbuf, hqueue, hmod]
      exact (h.kept c).rests (howner.symm.trans hnone)
    · rw [hbuf, hqueue, hmod, Pc.useOf, hpc u, ← Pc.useOf]
      exact (h.kept c).fits u (howner.symm.trans hu)

omit [DecidableEq T] in
/-- The process that is busy with a buffer has it, and its flags fit. -/
theorem Owned.busy_with (h : Owned s) {x : Use} (huse : (s.pc t).use = some (b, x)) :
    s.owner b = some t ∧ (s.buf b).busy = true ∧
      Fits (s.buf b) (b ∈ s.idequeue) (s.modified b) (some x) := by
  have hown := h.has t b x huse
  have hfits := (h.kept b).fits t hown
  rw [useOf_eq_some.mpr huse] at hfits
  exact ⟨hown, hfits⟩

/-- Only what the owner does with the buffer changes. -/
theorem Owned.turns (h : Owned s) (hown : s.owner b = some t)
    (hothers : ∀ u, u ≠ t → (s'.pc u).use = (s.pc u).use)
    (hpc : ∀ c x, (s.pc t).use = some (c, x) → c = b)
    (hpc' : ∀ c x, (s'.pc t).use = some (c, x) → c = b) (hcells : ∀ c, Untouched s s' c)
    (hfits : Fits (s.buf b) (b ∈ s.idequeue) (s.modified b) ((s'.pc t).useOf b)) : Owned s' := by
  obtain ⟨hbuf, howner, hqueue, hmod⟩ := hcells b
  have hown' : s'.owner b = some t := howner.trans hown
  refine h.step b t hothers hpc (fun c x huse => ⟨hpc' c x huse, hown'⟩) (.inl howner)
    (fun c _ => hcells c) ⟨fun hnone => ?_, fun u hu => ?_⟩
  · cases hnone.symm.trans hown'
  · obtain rfl := Option.some.inj (hown'.symm.trans hu)
    rw [hbuf, hqueue, hmod]
    exact ⟨((h.kept b).fits t hown).1, hfits⟩

theorem Goes.use (h : Goes s t s') (ht : (s'.pc t).use = (s.pc t).use) (u : T) :
    (s'.pc u).use = (s.pc u).use := by
  by_cases hu : u = t
  · rw [hu, ht]
  · exact (h.others hu).use

omit [DecidableEq T] in
theorem Owned.free (h : Owned s) (hfree : (s.buf b).busy = false) : s.owner b = none := by
  rw [Option.eq_none_iff_forall_ne_some]
  intro t ht
  exact Bool.false_ne_true (hfree.symm.trans ((h.kept b).fits t ht).1)

theorem use_of_pc {x : Use} (hpc : pc.use = some (b, x)) :
    ∀ c y, pc.use = some (c, y) → c = b := by
  intro c y hy
  exact (Prod.mk.inj (Option.some.inj (hy.symm.trans hpc))).1

theorem use_of_none (hpc : pc.use = none) (b : BufId) : ∀ c y, pc.use = some (c, y) → c = b := by
  intro c y hy
  cases hpc.symm.trans hy

theorem useOf_of_none (hpc : pc.use = none) : pc.useOf b = none := by
  rw [Pc.useOf, hpc]
  rfl

theorem Owned.give {x : Buf D} (h : Owned s) (hpc : (s.pc t).use = none)
    (hfree : (s.buf b).busy = false) (hx : x.dirty = false) : Owned (give s t b x) := by
  have hnone := h.free hfree
  obtain ⟨-, -, hqueue, -⟩ := (h.kept b).rests hnone
  have hown : (Bcache.give s t b x).owner b = some t := Function.update_self ..
  have huse : ((Bcache.give s t b x).pc t).use = some (b, .fresh) := by
    show ((s.goto t (.got b)).pc t).use = _
    rw [goto_self]
    rfl
  refine h.step b t (fun u hu => (moved_goto hu).use) (use_of_none hpc b)
    (fun c y hy => ⟨use_of_pc huse c y hy, hown⟩) (.inr (.inl hnone)) (fun c hc => ?_)
    ⟨fun hn => (by cases hn.symm.trans hown), fun u hu => ?_⟩
  · exact ⟨Function.update_of_ne hc .., Function.update_of_ne hc .., Iff.rfl,
      Function.update_of_ne hc ..⟩
  · obtain rfl := Option.some.inj (hown.symm.trans hu)
    rw [useOf_eq_some.mpr huse]
    have hbuf : (Bcache.give s t b x).buf b = { x with busy := true } := Function.update_self ..
    rw [hbuf]
    exact ⟨rfl, hx, hqueue, Function.update_self ..⟩

theorem Owned.moveToFront (h : Owned s) (hpc : s.pc t = .move b) : Owned (moveToFront s t b) := by
  have huse : (s.pc t).use = some (b, .leaving) := by rw [hpc]; rfl
  obtain ⟨hown, -, hserved, hqueue, hmod⟩ := h.busy_with huse
  have huse' : ((Bcache.moveToFront s t b).pc t).use = none := by
    show ((s.goto t (.wake b)).pc t).use = _
    rw [goto_self]
    rfl
  have hown' : (Bcache.moveToFront s t b).owner b = none := Function.update_self ..
  refine h.step b t (fun u hu => (moved_goto hu).use) (use_of_pc huse)
    (fun c y hy => (by cases huse'.symm.trans hy)) (.inr (.inr hown)) (fun c hc => ?_)
    ⟨fun _ => ?_, fun u hu => (by cases hown'.symm.trans hu)⟩
  · exact ⟨Function.update_of_ne hc .., Function.update_of_ne hc .., Iff.rfl, rfl⟩
  · have hbuf : (Bcache.moveToFront s t b).buf b = { s.buf b with busy := false } :=
      Function.update_self ..
    rw [hbuf]
    rw [Buf.served, Bool.and_eq_true, Bool.not_eq_true'] at hserved
    exact ⟨rfl, hserved.2, hqueue, hmod⟩

theorem enqueue_pc : (enqueue s t b k).pc = (s.goto t (.wait b k)).pc := by
  unfold enqueue
  dsimp only
  split <;> rfl

theorem enqueue_idequeue : (enqueue s t b k).idequeue = s.idequeue ++ [b] := by
  unfold enqueue
  dsimp only
  split <;> rfl

theorem enqueue_cells : (enqueue s t b k).buf = s.buf ∧ (enqueue s t b k).owner = s.owner ∧
    (enqueue s t b k).modified = s.modified := by
  unfold enqueue
  dsimp only
  split <;> exact ⟨rfl, rfl, rfl⟩

theorem Owned.enqueue (h : Owned s) (hpc : s.pc t = .append b k) : Owned (enqueue s t b k) := by
  have huse : (s.pc t).use = some (b, .asked k) := by rw [hpc]; rfl
  obtain ⟨hown, hbusy, hpending, -, hmod⟩ := h.busy_with huse
  obtain ⟨hbuf', hown', hmod'⟩ := enqueue_cells (s := s) (t := t) (b := b) (k := k)
  have huse' : ((Bcache.enqueue s t b k).pc t).use = some (b, .queued k) := by
    rw [enqueue_pc, goto_self]
    rfl
  have howner : (Bcache.enqueue s t b k).owner b = some t := by rw [hown', hown]
  refine h.step b t (fun u hu => ?_) (use_of_pc huse)
    (fun c y hy => ⟨use_of_pc huse' c y hy, howner⟩) (.inl (by rw [hown'])) (fun c hc => ?_)
    ⟨fun hnone => (by cases hnone.symm.trans howner), fun u hu => ?_⟩
  · rw [enqueue_pc]
    exact (moved_goto hu).use
  · refine ⟨by rw [hbuf'], by rw [hown'], ?_, by rw [hmod']⟩
    simp [enqueue_idequeue, hc]
  · obtain rfl := Option.some.inj (howner.symm.trans hu)
    rw [useOf_eq_some.mpr huse', hbuf', hmod', enqueue_idequeue]
    exact ⟨hbusy, .inl ⟨List.mem_concat_self, hpending⟩, hmod⟩

/-- A request that is not served is not done. -/
theorem Pending.not_served {x : Buf D} (h : Pending x k) : x.served = false := by
  cases k with
  | bread => simp [Buf.served, h.1]
  | bwrite => simp [Buf.served, show x.dirty = true from h]

theorem Goes.owned (hgo : Goes s t s') (h : Owned s) : Owned s' := by
  have hothers : ∀ u, u ≠ t → (s'.pc u).use = (s.pc u).use := fun u hu => (hgo.others hu).use
  have hall := hgo.use
  cases hgo with
  | hit b dev sector hpc hfind hbusy =>
      have hrests := (h.kept b).rests (h.free hbusy)
      exact h.give (by rw [hpc]; rfl) hbusy hrests.2.1
  | miss b dev sector hpc hnone hfind =>
      have hbusy := List.find?_some hfind
      rw [Bool.not_eq_true'] at hbusy
      exact h.give (by rw [hpc]; rfl) hbusy rfl
  | found b hpc hvalid =>
      have huse : (s.pc t).use = some (b, .fresh) := by rw [hpc]; rfl
      obtain ⟨hown, -, hdirty, hqueue, -⟩ := h.busy_with huse
      have hnone : ((s.goto t .out).pc t).use = none := by rw [goto_self]; rfl
      refine h.turns hown hothers (use_of_pc huse) (use_of_none hnone b)
        (fun c => ⟨rfl, rfl, Iff.rfl, rfl⟩) ?_
      rw [useOf_of_none hnone]
      exact ⟨by simp [Buf.served, hvalid, hdirty], hqueue⟩
  | read b hpc hvalid =>
      have huse : (s.pc t).use = some (b, .fresh) := by rw [hpc]; rfl
      have huse' : ((s.goto t (.iderw b .bread)).pc t).use = some (b, .asked .bread) := by
        rw [goto_self]
        rfl
      obtain ⟨hown, -, hdirty, hqueue, hmod⟩ := h.busy_with huse
      refine h.turns hown hothers (use_of_pc huse) (use_of_pc huse')
        (fun c => ⟨rfl, rfl, Iff.rfl, rfl⟩) ?_
      rw [useOf_eq_some.mpr huse']
      exact ⟨⟨hvalid, hdirty⟩, hqueue, hmod⟩
  | enqueue b k hpc => exact h.enqueue hpc
  | done b k hpc hserved =>
      have huse : (s.pc t).use = some (b, .queued k) := by rw [hpc]; rfl
      have hnone : ((s.goto t .out).pc t).use = none := by rw [goto_self]; rfl
      obtain ⟨hown, -, hqueued, -⟩ := h.busy_with huse
      refine h.turns hown hothers (use_of_pc huse) (use_of_none hnone b)
        (fun c => ⟨rfl, rfl, Iff.rfl, rfl⟩) ?_
      rw [useOf_of_none hnone]
      rcases hqueued with ⟨-, hpending⟩ | ⟨hqueue, -⟩
      · exact absurd hserved (by simp [hpending.not_served])
      · exact ⟨hserved, hqueue⟩
  | move b hpc => exact h.moveToFront hpc
  | full | refused => exact h.same (fun _ => rfl) fun c => ⟨rfl, rfl, Iff.rfl, rfl⟩
  | acquire dev sector hpc hlock =>
      refine h.same (hall ?_) fun c => ⟨rfl, rfl, Iff.rfl, rfl⟩
      rcases hpc with hpc | hpc <;> simp [hpc, Pc.use]
  | _ =>
      refine h.same (hall ?_) fun c => ⟨rfl, rfl, Iff.rfl, rfl⟩
      simp_all [Pc.use]

/-- The queue has no buffer twice. -/
def Single (s : Cache T D) : Prop := s.idequeue.Nodup

theorem Goes.single (hgo : Goes s t s') (h : Owned s) (hs : Single s) : Single s' := by
  cases hgo with
  | enqueue b k hpc =>
      have huse : (s.pc t).use = some (b, .asked k) := by rw [hpc]; rfl
      obtain ⟨-, -, -, hqueue, -⟩ := h.busy_with huse
      rw [Single, enqueue_idequeue, List.nodup_append]
      refine ⟨hs, List.nodup_singleton b, ?_⟩
      rintro c hc _ hb rfl
      exact hqueue (List.mem_singleton.mp hb ▸ hc)
  | _ => exact hs

omit [DecidableEq T] in
theorem Handles.single {ok : Bool} (hh : Handles s ok s') (hs : Single s) : Single s' := by
  cases hh with
  | serve b queue data hpc hqueue =>
      rw [Single, hqueue] at hs
      exact (List.nodup_cons.mp hs).2
  | _ => exact hs

omit [DecidableEq T] in
/-- A buffer in the queue has an owner that waits for it. -/
theorem Owned.waits (h : Owned s) (hqueue : b ∈ s.idequeue) :
    ∃ t k, s.owner b = some t ∧ (s.pc t).use = some (b, .queued k) := by
  cases hown : s.owner b with
  | none => exact absurd hqueue ((h.kept b).rests hown).2.2.1
  | some t =>
      obtain ⟨-, hfits⟩ := (h.kept b).fits t hown
      cases huse : (s.pc t).useOf b with
      | none =>
          rw [huse] at hfits
          exact absurd hqueue hfits.2
      | some x =>
          rw [huse] at hfits
          cases x with
          | queued k => exact ⟨t, k, rfl, useOf_eq_some.mp huse⟩
          | fresh | leaving => exact absurd hqueue hfits.2.1
          | asked k => exact absurd hqueue hfits.2.1

theorem Handles.owned {ok : Bool} (hh : Handles s ok s') (hs : Single s) (h : Owned s) :
    Owned s' := by
  have hall : ∀ u, (s'.pc u).use = (s.pc u).use := fun u => (hh.others u).use
  cases hh with
  | serve b queue data hpc hqueue =>
      rw [Single, hqueue] at hs
      obtain ⟨hnotin, -⟩ := List.nodup_cons.mp hs
      obtain ⟨t, k, hown, huse⟩ := h.waits (b := b) (hqueue ▸ List.mem_cons_self)
      obtain ⟨-, hbusy, -, hmod⟩ := h.busy_with huse
      refine h.step b t (fun u _ => hall u) (use_of_pc huse)
        (fun c y hy => ⟨use_of_pc huse c y hy, hown⟩) (.inl rfl) (fun c hc => ?_)
        ⟨fun hnone => (by cases hnone.symm.trans hown), fun u hu => ?_⟩
      · refine ⟨Function.update_of_ne hc .., rfl, ?_, rfl⟩
        simp [hqueue, hc]
      · obtain rfl := Option.some.inj (hown.symm.trans hu)
        have hbuf : (s.setBuf b { s.buf b with valid := true, dirty := false, data := data }).buf b =
            { s.buf b with valid := true, dirty := false, data := data } := Function.update_self ..
        show ((s.setBuf b _).buf b).busy = true ∧ Fits ((s.setBuf b _).buf b) _ _ ((s.pc t).useOf b)
        rw [hbuf, useOf_eq_some.mpr huse]
        exact ⟨hbusy, .inr ⟨hnotin, rfl⟩, hmod⟩
  | _ => exact h.same hall fun c => ⟨rfl, rfl, Iff.rfl, rfl⟩

/-! ## Calls -/

theorem step_bread (hs : step s (.bread t dev sector) = some s') : s.pc t = .out ∧
    s' = { s.goto t (.get dev sector) with asked := Function.update s.asked t (dev, sector) } := by
  obtain ⟨-, hs⟩ := Option.ite_none_right_eq_some.mp hs
  obtain ⟨hpc, hs⟩ := Option.ite_none_right_eq_some.mp hs
  exact ⟨hpc, (Option.some.inj hs).symm⟩

theorem step_modify {data : D} (hs : step s (.modify t b data) = some s') :
    s.pc t = .out ∧ s' = modify s b data := by
  obtain ⟨-, hs⟩ := Option.ite_none_right_eq_some.mp hs
  obtain ⟨hpc, hs⟩ := Option.ite_none_right_eq_some.mp hs
  exact ⟨hpc, (Option.some.inj hs).symm⟩

theorem step_bwrite (hs : step s (.bwrite t b) = some s') : s.pc t = .out ∧ s' = bwrite s t b := by
  obtain ⟨-, hs⟩ := Option.ite_none_right_eq_some.mp hs
  obtain ⟨hpc, hs⟩ := Option.ite_none_right_eq_some.mp hs
  exact ⟨hpc, (Option.some.inj hs).symm⟩

theorem step_brelse (hs : step s (.brelse t b) = some s') : s.pc t = .out ∧ s' = brelse s t b := by
  obtain ⟨-, hs⟩ := Option.ite_none_right_eq_some.mp hs
  obtain ⟨hpc, hs⟩ := Option.ite_none_right_eq_some.mp hs
  exact ⟨hpc, (Option.some.inj hs).symm⟩

omit [DecidableEq T] in
/-- What the owner of a buffer knows between its calls. -/
theorem Owned.holds (h : Owned s) (hown : s.owner b = some t) (hpc : s.pc t = .out) :
    (s.buf b).busy = true ∧ (s.buf b).served = true ∧ b ∉ s.idequeue := by
  obtain ⟨hbusy, hfits⟩ := (h.kept b).fits t hown
  rw [hpc] at hfits
  exact ⟨hbusy, hfits⟩

/-- `bwrite` of a buffer that the caller has. -/
theorem bwrite_eq (h : Owned s) (hown : s.owner b = some t) (hpc : s.pc t = .out) :
    bwrite s t b = { (s.setBuf b { s.buf b with dirty := true }).goto t (.iderw b .bwrite) with
      modified := Function.update s.modified b false } := by
  rw [bwrite, if_neg (by simp [(h.holds hown hpc).1])]

theorem brelse_eq (h : Owned s) (hown : s.owner b = some t) (hpc : s.pc t = .out) :
    brelse s t b = s.goto t (.brelse b) := by
  rw [brelse, if_neg (by simp [(h.holds hown hpc).1])]

theorem Owned.modify {data : D} (h : Owned s) (hown : s.owner b = some t) (hpc : s.pc t = .out) :
    Owned (modify s b data) := by
  obtain ⟨hbusy, hserved, hqueue⟩ := h.holds hown hpc
  have hnone : (s.pc t).use = none := by rw [hpc]; rfl
  refine h.step b t (fun _ _ => rfl) (use_of_none hnone b)
    (fun c y hy => (by cases hnone.symm.trans hy)) (.inl rfl) (fun c hc => ?_)
    ⟨fun hn => (by cases hn.symm.trans hown), fun u hu => ?_⟩
  · exact ⟨Function.update_of_ne hc .., rfl, Iff.rfl, Function.update_of_ne hc ..⟩
  · obtain rfl := Option.some.inj (hown.symm.trans hu)
    have hbuf : (Bcache.modify s b data).buf b = { s.buf b with data := data } :=
      Function.update_self ..
    rw [hbuf, show (Bcache.modify s b data).pc = s.pc from rfl, useOf_of_none hnone]
    exact ⟨hbusy, hserved, hqueue⟩

theorem Owned.bwrite (h : Owned s) (hown : s.owner b = some t) (hpc : s.pc t = .out) :
    Owned (bwrite s t b) := by
  obtain ⟨hbusy, -, hqueue⟩ := h.holds hown hpc
  have hnone : (s.pc t).use = none := by rw [hpc]; rfl
  rw [bwrite_eq h hown hpc]
  have huse : ((s.goto t (.iderw b .bwrite)).pc t).use = some (b, .asked .bwrite) := by
    rw [goto_self]
    rfl
  refine h.step b t (fun u hu => (moved_goto hu).use) (use_of_none hnone b)
    (fun c y hy => ⟨use_of_pc huse c y hy, hown⟩) (.inl rfl) (fun c hc => ?_)
    ⟨fun hn => (by cases hn.symm.trans hown), fun u hu => ?_⟩
  · exact ⟨Function.update_of_ne hc .., rfl, Iff.rfl, Function.update_of_ne hc ..⟩
  · obtain rfl := Option.some.inj (hown.symm.trans hu)
    have hbuf : (s.setBuf b { s.buf b with dirty := true }).buf b =
        { s.buf b with dirty := true } := Function.update_self ..
    show ((s.setBuf b _).buf b).busy = true ∧ Fits ((s.setBuf b _).buf b) _
      (Function.update s.modified b false b) (((s.goto t (.iderw b .bwrite)).pc t).useOf b)
    rw [hbuf, useOf_eq_some.mpr huse]
    exact ⟨hbusy, rfl, hqueue, Function.update_self ..⟩

theorem Owned.brelse (h : Owned s) (hown : s.owner b = some t) (hpc : s.pc t = .out)
    (hmod : s.modified b = false) : Owned (brelse s t b) := by
  obtain ⟨-, hserved, hqueue⟩ := h.holds hown hpc
  have hnone : (s.pc t).use = none := by rw [hpc]; rfl
  rw [brelse_eq h hown hpc]
  have huse : ((s.goto t (.brelse b)).pc t).use = some (b, .leaving) := by rw [goto_self]; rfl
  refine h.turns hown (fun u hu => (moved_goto hu).use) (use_of_none hnone b) (use_of_pc huse)
    (fun c => ⟨rfl, rfl, Iff.rfl, rfl⟩) ?_
  rw [useOf_eq_some.mpr huse]
  exact ⟨hserved, hqueue, hmod⟩

theorem Owned.bread (h : Owned s) (hpc : s.pc t = .out) :
    Owned { s.goto t (.get dev sector) with asked := Function.update s.asked t (dev, sector) } := by
  refine h.same (fun u => ?_) fun c => ⟨rfl, rfl, Iff.rfl, rfl⟩
  show ((s.goto t _).pc u).use = _
  by_cases hu : u = t
  · rw [hu, goto_self, hpc]
    rfl
  · exact (moved_goto hu).use

theorem step_go (hs : step s (.go t) = some s') : Goes s t s' :=
  goes_of_go (Option.ite_none_right_eq_some.mp hs).2

theorem step_handle {ok : Bool} (hs : step s (.handle ok) = some s') : Handles s ok s' :=
  handles_of_handle (Option.ite_none_right_eq_some.mp hs).2

theorem step_kill (hs : step s (.kill t) = some s') : s' = s.goto t (killPc (s.pc t)) :=
  (Option.some.inj (Option.ite_none_right_eq_some.mp hs).2).symm

theorem step_owned {a : Event T D} (h : Owned s ∧ Single s) (hok : Promised s a)
    (hs : step s a = some s') : Owned s' ∧ Single s' := by
  obtain ⟨hown, hsingle⟩ := h
  cases a with
  | bread t dev sector =>
      obtain ⟨hpc, rfl⟩ := step_bread hs
      exact ⟨hown.bread hpc, hsingle⟩
  | modify t b data =>
      obtain ⟨hpc, rfl⟩ := step_modify hs
      exact ⟨hown.modify hok hpc, hsingle⟩
  | bwrite t b =>
      obtain ⟨hpc, rfl⟩ := step_bwrite hs
      refine ⟨hown.bwrite hok hpc, ?_⟩
      rw [bwrite_eq hown hok hpc]
      exact hsingle
  | brelse t b =>
      obtain ⟨hpc, rfl⟩ := step_brelse hs
      refine ⟨hown.brelse hok.1 hpc hok.2, ?_⟩
      rw [brelse_eq hown hok.1 hpc]
      exact hsingle
  | go t => exact ⟨(step_go hs).owned hown, (step_go hs).single hown hsingle⟩
  | handle ok => exact ⟨(step_handle hs).owned hsingle hown, (step_handle hs).single hsingle⟩
  | kill t =>
      obtain rfl := step_kill hs
      exact ⟨hown.same (fun u => (moved_kill s t u).use) fun c => ⟨rfl, rfl, Iff.rfl, rfl⟩, hsingle⟩

end IntroToOS.Bcache

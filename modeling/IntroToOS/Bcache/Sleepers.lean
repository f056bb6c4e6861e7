import IntroToOS.Bcache.Drive

/-! # Who sleeps in the buffer cache

No `wakeup` is lost, with a disk that may report errors as well. A process that sleeps in `bget` sleeps
on the buffer that has its sector, and when nobody has `bcache.lock` that buffer is still in use. A
process that sleeps in `iderw` has its buffer in the queue, and when nobody has `idelock` the disk works
on the first one of the queue (`asleep_of_run`).
-/

namespace IntroToOS.Bcache
open Lib
set_option autoImplicit false

variable {T D : Type} [DecidableEq T] {s s' : Cache T D} {t u : T} {b c : BufId} {pc : Pc}
  {dev sector : BitVec 32} {k : Rw}

/-! ## The lock of the cache -/

/-- The process has `bcache.lock`. -/
def Pc.inBcache : Pc → Bool
  | .scan .. | .move _ | .wake _ | .unlock => true
  | _ => false

def Locked (s : Cache T D) : Prop := Exclusive s.bcacheLock fun t => (s.pc t).inBcache = true

theorem Moved.inBcache {pc pc' : Pc} (h : Moved pc pc') :
    pc'.inBcache = true ↔ pc.inBcache = true := by
  rw [h.same (f := Pc.inBcache) (fun _ _ _ => rfl) fun _ _ => rfl]

omit [DecidableEq T] in
theorem Locked.stays (h : Locked s) (hlock : s'.bcacheLock = s.bcacheLock)
    (hothers : ∀ u, u ≠ t → Moved (s.pc u) (s'.pc u))
    (hsame : (s'.pc t).inBcache = (s.pc t).inBcache) : Locked s' := by
  unfold Locked
  rw [hlock]
  refine h.keep fun u => ?_
  by_cases hu : u = t
  · rw [hu, hsame]
  · exact (hothers u hu).inBcache

theorem enqueue_bcacheLock : (enqueue s t b k).bcacheLock = s.bcacheLock := by
  unfold enqueue
  dsimp only
  split <;> rfl

theorem inBcache_goto : ((s.goto t pc).pc t).inBcache = pc.inBcache := by rw [goto_self]

theorem Goes.locked (hgo : Goes s t s') (h : Locked s) : Locked s' := by
  have hothers : ∀ u, u ≠ t → Moved (s.pc u) (s'.pc u) := fun u hu => hgo.others hu
  have hlock := h
  unfold Locked at hlock
  cases hgo with
  | acquire dev sector hpc hfree =>
      rw [hfree] at hlock
      exact hlock.acquire inBcache_goto fun u hu => (hothers u hu).inBcache
  | remove b hpc hfree =>
      rw [hfree] at hlock
      exact hlock.acquire inBcache_goto fun u hu => (hothers u hu).inBcache
  | busy b dev sector hpc | hit b dev sector hpc | miss b dev sector hpc | unlock hpc =>
      refine hlock.release (t := t) (by rw [hpc]; rfl) (fun hin => ?_)
        fun u hu => (hothers u hu).inBcache
      exact Bool.false_ne_true (inBcache_goto.symm.trans hin)
  | enqueue b k hpc =>
      refine h.stays enqueue_bcacheLock hothers ?_
      rw [enqueue_pc, inBcache_goto, hpc]
      rfl
  | found b hpc | read b hpc | checked b k hpc | lock b k hpc | relock b k hpc | done b k hpc
  | doze b k hpc | move b hpc | wake b hpc =>
      refine h.stays (t := t) rfl hothers (inBcache_goto.trans ?_)
      rw [hpc]
      rfl
  | full | refused => exact h

omit [DecidableEq T] in
theorem Handles.locked {ok : Bool} (hh : Handles s ok s') (h : Locked s) : Locked s' := by
  have hkeep := h.keep fun u => (hh.others u).inBcache
  cases hh <;> exact hkeep

theorem step_locked {a : Event T D} (h : Locked s) (hown : Owned s) (hok : Promised s a)
    (hs : step s a = some s') : Locked s' := by
  cases a with
  | bread t dev sector =>
      obtain ⟨hpc, rfl⟩ := step_bread hs
      exact h.stays (t := t) rfl (fun u hu => moved_goto hu) (inBcache_goto.trans (by rw [hpc]; rfl))
  | modify t b data =>
      obtain ⟨-, rfl⟩ := step_modify hs
      exact h
  | bwrite t b =>
      obtain ⟨hpc, rfl⟩ := step_bwrite hs
      rw [bwrite_eq hown hok hpc]
      exact h.stays (t := t) rfl (fun u hu => moved_goto hu) (inBcache_goto.trans (by rw [hpc]; rfl))
  | brelse t b =>
      obtain ⟨hpc, rfl⟩ := step_brelse hs
      rw [brelse_eq hown hok.1 hpc]
      exact h.stays (t := t) rfl (fun u hu => moved_goto hu) (inBcache_goto.trans (by rw [hpc]; rfl))
  | go t => exact (step_go hs).locked h
  | handle ok => exact (step_handle hs).locked h
  | kill t =>
      obtain rfl := step_kill hs
      refine h.stays (t := t) rfl (fun u hu => moved_goto hu) ?_
      rw [goto_self]
      exact (moved_killPc _).same (f := Pc.inBcache) (fun _ _ _ => rfl) fun _ _ => rfl

/-! ## Sleepers -/

/-- Each sleeper will be woken. -/
structure Asleep (s : Cache T D) : Prop where
  get : ∀ t b dev sector, s.pc t = .asleepGet b dev sector → s.addr b = (dev, sector) ∧
    ((s.buf b).busy = true ∨ ∃ u, s.pc u = .wake b)
  ide : ∀ t b k, s.pc t = .asleepIde b k → b ∈ s.idequeue ∨ s.handler = .wake b

/-- Nobody falls asleep with the others. -/
theorem Moved.asleepGet {pc' : Pc} (h : Moved pc pc') (hpc : pc' = .asleepGet b dev sector) :
    pc = .asleepGet b dev sector := by
  rcases h with heq | ⟨c, d, r, -, heq⟩ | ⟨c, k, -, heq⟩
  · rw [← heq, hpc]
  · cases heq.symm.trans hpc
  · cases heq.symm.trans hpc

theorem Moved.asleepIde {pc' : Pc} (h : Moved pc pc') (hpc : pc' = .asleepIde b k) :
    pc = .asleepIde b k := by
  rcases h with heq | ⟨c, d, r, -, heq⟩ | ⟨c, k, -, heq⟩
  · rw [← heq, hpc]
  · cases heq.symm.trans hpc
  · cases heq.symm.trans hpc

theorem Moved.wake {pc' : Pc} (h : Moved pc pc') (hpc : pc = .wake b) : pc' = .wake b := by
  rcases h with heq | ⟨c, d, r, heq, -⟩ | ⟨c, k, heq, -⟩
  · rw [heq, hpc]
  · cases heq.symm.trans hpc
  · cases heq.symm.trans hpc

/-- A step of a process that neither falls asleep nor is to wake others. -/
theorem Asleep.stays (h : Asleep s) (hothers : ∀ u, u ≠ t → Moved (s.pc u) (s'.pc u))
    (hget : ∀ b dev sector, s'.pc t = .asleepGet b dev sector → s.pc t = .asleepGet b dev sector)
    (hide : ∀ b k, s'.pc t = .asleepIde b k → s.pc t = .asleepIde b k)
    (hwake : ∀ b, s.pc t ≠ .wake b) (haddr : ∀ b, s'.addr b = s.addr b)
    (hbusy : ∀ b, (s.buf b).busy = true → (s'.buf b).busy = true)
    (hqueue : ∀ b, b ∈ s.idequeue → b ∈ s'.idequeue) (hhandler : s'.handler = s.handler) :
    Asleep s' := by
  refine ⟨fun u b dev sector hpc => ?_, fun u b k hpc => ?_⟩
  · have hpc' : s.pc u = .asleepGet b dev sector := by
      by_cases hu : u = t
      · subst hu
        exact hget b dev sector hpc
      · exact (hothers u hu).asleepGet hpc
    obtain ⟨hb, hreason⟩ := h.get u b dev sector hpc'
    refine ⟨(haddr b).trans hb, hreason.imp (hbusy b) ?_⟩
    rintro ⟨v, hv⟩
    have hne : v ≠ t := by
      rintro rfl
      exact hwake b hv
    exact ⟨v, (hothers v hne).wake hv⟩
  · have hpc' : s.pc u = .asleepIde b k := by
      by_cases hu : u = t
      · subst hu
        exact hide b k hpc
      · exact (hothers u hu).asleepIde hpc
    rw [hhandler]
    exact (h.ide u b k hpc').imp_left (hqueue b)

theorem wakePc_ne (b : BufId) (pc : Pc) :
    (∀ dev sector, wakePc b pc ≠ .asleepGet b dev sector) ∧ ∀ k, wakePc b pc ≠ .asleepIde b k := by
  unfold wakePc
  split
  · split
    · exact ⟨fun _ _ h => (by cases h), fun _ h => (by cases h)⟩
    · next hne => exact ⟨fun _ _ h => hne (by cases h; rfl), fun _ h => (by cases h)⟩
  · split
    · exact ⟨fun _ _ h => (by cases h), fun _ h => (by cases h)⟩
    · next hne => exact ⟨fun _ _ h => (by cases h), fun _ h => hne (by cases h; rfl)⟩
  · next hget hide =>
    exact ⟨fun dev sector h => hget b dev sector h, fun k h => hide b k h⟩

/-- `bget` returns a buffer that nobody sleeps on. -/
theorem Asleep.give {x : Buf D} (h : Asleep s) (hlock : Locked s) (hpc : s.pc t = .scan dev sector)
    (hfree : (s.buf b).busy = false) : Asleep (give s t b x) := by
  have hbuf : ∀ c, c ≠ b → (Bcache.give s t b x).buf c = s.buf c :=
    fun c hc => Function.update_of_ne hc ..
  have hmine : (Bcache.give s t b x).pc t = .got b := goto_self
  have hothers : ∀ u, u ≠ t → (Bcache.give s t b x).pc u = s.pc u := fun u hu => goto_of_ne hu
  have hin : (s.pc t).inBcache = true := by rw [hpc]; rfl
  refine ⟨fun u c d r hasleep => ?_, fun u c k hasleep => ?_⟩
  · have hu : u ≠ t := by
      rintro rfl
      cases hmine.symm.trans hasleep
    rw [hothers u hu] at hasleep
    obtain ⟨hc, hreason⟩ := h.get u c d r hasleep
    -- the one that is to wake the sleepers of a buffer would have the lock, which `bget` has
    have hbusy : (s.buf c).busy = true := by
      refine hreason.resolve_right ?_
      rintro ⟨v, hv⟩
      obtain rfl : v = t := hlock.unique (by rw [hv]; rfl) hin
      cases hv.symm.trans hpc
    have hne : c ≠ b := by
      rintro rfl
      exact Bool.false_ne_true (hfree.symm.trans hbusy)
    rw [Cache.addr, hbuf c hne]
    exact ⟨hc, .inl hbusy⟩
  · have hu : u ≠ t := by
      rintro rfl
      cases hmine.symm.trans hasleep
    rw [hothers u hu] at hasleep
    exact h.ide u c k hasleep

omit [DecidableEq T] in
/-- Another process that sleeps in `bget` has slept before, and for the same reason. -/
theorem Asleep.kept (h : Asleep s) (hothers : ∀ u, u ≠ t → Moved (s.pc u) (s'.pc u))
    {dev sector : BitVec 32} (hu : u ≠ t) (hasleep : s'.pc u = .asleepGet c dev sector)
    (ht : s.pc t ≠ .wake c) :
    s.addr c = (dev, sector) ∧ ((s.buf c).busy = true ∨ ∃ v, s'.pc v = .wake c) := by
  obtain ⟨hc, hreason⟩ := h.get u c dev sector ((hothers u hu).asleepGet hasleep)
  refine ⟨hc, hreason.imp_right ?_⟩
  rintro ⟨v, hv⟩
  have hvt : v ≠ t := by
    rintro rfl
    exact ht hv
  exact ⟨v, (hothers v hvt).wake hv⟩

theorem Goes.asleep (hgo : Goes s t s') (hinv : CacheInv s) (hlock : Locked s) (h : Asleep s) :
    Asleep s' := by
  have hothers : ∀ u, u ≠ t → Moved (s.pc u) (s'.pc u) := fun u hu => hgo.others hu
  cases hgo with
  | hit b dev sector hpc hfind hbusy => exact h.give hlock hpc hbusy
  | miss b dev sector hpc hnone hfind =>
      exact h.give hlock hpc (hinv.ordered.victim hfind).1
  | busy b dev sector hpc hfind hbusy =>
      have hb := List.find?_some hfind
      simp only [holds, decide_eq_true_eq] at hb
      refine ⟨fun u c d r hasleep => ?_, fun u c k hasleep => ?_⟩
      · by_cases hu : u = t
        · subst hu
          change (s.goto u (.asleepGet b dev sector)).pc u = _ at hasleep
          rw [goto_self] at hasleep
          obtain ⟨rfl, rfl, rfl⟩ := Pc.asleepGet.inj hasleep
          exact ⟨by rw [← hb.1, ← hb.2]; rfl, .inl hbusy⟩
        · exact h.kept hothers hu hasleep fun hw => by cases hw.symm.trans hpc
      · by_cases hu : u = t
        · subst hu
          change (s.goto u (.asleepGet b dev sector)).pc u = _ at hasleep
          rw [goto_self] at hasleep
          cases hasleep
        · exact h.ide u c k ((hothers u hu).asleepIde hasleep)
  | doze b k hpc hserved =>
      have huse : (s.pc t).use = some (b, .queued k) := by rw [hpc]; rfl
      obtain ⟨-, -, hqueued, -⟩ := hinv.owned.busy_with huse
      have hin : b ∈ s.idequeue := by
        rcases hqueued with ⟨hin, -⟩ | ⟨-, hdone⟩
        · exact hin
        · exact absurd (hserved.symm.trans hdone) Bool.false_ne_true
      refine ⟨fun u c d r hasleep => ?_, fun u c k' hasleep => ?_⟩
      · by_cases hu : u = t
        · subst hu
          change (s.goto u (.asleepIde b k)).pc u = _ at hasleep
          rw [goto_self] at hasleep
          cases hasleep
        · exact h.kept hothers hu hasleep fun hw => by cases hw.symm.trans hpc
      · by_cases hu : u = t
        · subst hu
          change (s.goto u (.asleepIde b k)).pc u = _ at hasleep
          rw [goto_self] at hasleep
          obtain ⟨rfl, rfl⟩ := Pc.asleepIde.inj hasleep
          exact .inl hin
        · exact h.ide u c k' ((hothers u hu).asleepIde hasleep)
  | move b hpc =>
      have hmine : (moveToFront s t b).pc t = .wake b := goto_self
      have hbuf : ∀ c, c ≠ b → (moveToFront s t b).buf c = s.buf c :=
        fun c hc => Function.update_of_ne hc ..
      have hself : (moveToFront s t b).buf b = { s.buf b with busy := false } :=
        Function.update_self ..
      refine ⟨fun u c d r hasleep => ?_, fun u c k hasleep => ?_⟩
      · have hu : u ≠ t := by
          rintro rfl
          cases hmine.symm.trans hasleep
        obtain ⟨hc, hreason⟩ := h.kept hothers hu hasleep fun hw => by cases hw.symm.trans hpc
        by_cases hcb : c = b
        · subst hcb
          rw [Cache.addr, hself]
          exact ⟨hc, .inr ⟨t, hmine⟩⟩
        · rw [Cache.addr, hbuf c hcb]
          exact ⟨hc, hreason⟩
      · have hu : u ≠ t := by
          rintro rfl
          cases hmine.symm.trans hasleep
        exact h.ide u c k ((hothers u hu).asleepIde hasleep)
  | wake b hpc =>
      have hpcs : ∀ u, u ≠ t → ((wakeup s b).goto t .unlock).pc u = wakePc b (s.pc u) :=
        fun u hu => goto_of_ne hu
      have hmine : ((wakeup s b).goto t .unlock).pc t = .unlock := goto_self
      refine ⟨fun u c d r hasleep => ?_, fun u c k hasleep => ?_⟩
      · have hu : u ≠ t := by
          rintro rfl
          cases hmine.symm.trans hasleep
        have hne : c ≠ b := by
          rintro rfl
          exact (wakePc_ne c (s.pc u)).1 d r ((hpcs u hu).symm.trans hasleep)
        exact h.kept hothers hu hasleep fun hw => hne (Pc.wake.inj (hw.symm.trans hpc))
      · have hu : u ≠ t := by
          rintro rfl
          cases hmine.symm.trans hasleep
        exact h.ide u c k ((hothers u hu).asleepIde hasleep)
  | enqueue b k hpc =>
      obtain ⟨hbuf, -, -⟩ := enqueue_cells (s := s) (t := t) (b := b) (k := k)
      obtain ⟨-, -, -, hnotin, -⟩ := hinv.owned.busy_with (t := t) (b := b) (x := .asked k)
        (by rw [hpc]; rfl)
      have hmine : (Bcache.enqueue s t b k).pc t = .wait b k := by rw [enqueue_pc, goto_self]
      refine h.stays hothers (fun _ _ _ hasleep => (by cases hmine.symm.trans hasleep))
        (fun _ _ hasleep => (by cases hmine.symm.trans hasleep))
        (fun c hc => (by cases hpc.symm.trans hc)) (fun c => by rw [Cache.addr, hbuf, Cache.addr])
        (fun c hc => by rw [hbuf]; exact hc) (fun c hc => ?_) ?_
      · rw [enqueue_idequeue]
        exact List.mem_append_left _ hc
      · rw [enqueue_eq hnotin]
        split <;> rfl
  | full | refused => exact ⟨h.get, h.ide⟩
  | acquire dev sector hpc =>
      refine h.stays (t := t) hothers (fun _ _ _ hasleep => ?_) (fun _ _ hasleep => ?_) (fun c hc => ?_)
        (fun _ => rfl) (fun _ hb => hb) (fun _ hb => hb) rfl
      · simp at hasleep
      · simp at hasleep
      · rcases hpc with hpc | hpc <;> cases hpc.symm.trans hc
  | _ =>
      refine h.stays (t := t) hothers (fun _ _ _ hasleep => ?_) (fun _ _ hasleep => ?_) (fun c hc => ?_)
        (fun _ => rfl) (fun _ hb => hb) (fun _ hb => hb) rfl
      · simp at hasleep
      · simp at hasleep
      · simp_all

omit [DecidableEq T] in
theorem Handles.asleep {ok : Bool} (hh : Handles s ok s') (h : Asleep s) : Asleep s' := by
  have hget : ∀ u c d r, s'.pc u = .asleepGet c d r → s.addr c = (d, r) ∧
      ((s.buf c).busy = true ∨ ∃ v, s'.pc v = .wake c) := by
    intro u c d r hasleep
    obtain ⟨hc, hreason⟩ := h.get u c d r ((hh.others u).asleepGet hasleep)
    refine ⟨hc, hreason.imp_right ?_⟩
    rintro ⟨v, hv⟩
    exact ⟨v, (hh.others v).wake hv⟩
  have hide : ∀ u c k, s'.pc u = .asleepIde c k → c ∈ s.idequeue ∨ s.handler = .wake c :=
    fun u c k hasleep => h.ide u c k ((hh.others u).asleepIde hasleep)
  cases hh with
  | serve b queue data hpc hqueue =>
      have hbuf : ∀ c, (s.setBuf b { s.buf b with valid := true, dirty := false, data := data }).addr c
          = s.addr c := addr_of_update rfl ⟨rfl, rfl⟩
      have hself : (s.setBuf b { s.buf b with valid := true, dirty := false, data := data }).buf b =
          { s.buf b with valid := true, dirty := false, data := data } := Function.update_self ..
      refine ⟨fun u c d r hasleep => ?_, fun u c k hasleep => ?_⟩
      · obtain ⟨hc, hreason⟩ := hget u c d r hasleep
        refine ⟨(hbuf c).trans hc, hreason.imp_left fun hbusy => ?_⟩
        by_cases hcb : c = b
        · subst hcb
          exact (congrArg Buf.busy hself).trans hbusy
        · exact (congrArg Buf.busy (Function.update_of_ne hcb ..)).trans hbusy
      · rcases hide u c k hasleep with hin | hwake
        · rw [hqueue] at hin
          rcases List.mem_cons.mp hin with rfl | hin
          · exact .inr rfl
          · exact .inl hin
        · cases hwake.symm.trans hpc
  | wake b hpc =>
      refine ⟨hget, fun u c k hasleep => ?_⟩
      rcases hide u c k hasleep with hin | hwake
      · exact .inl hin
      · obtain rfl : b = c := Handler.wake.inj (hpc.symm.trans hwake)
        exact absurd hasleep ((wakePc_ne b (s.pc u)).2 k)
  | interrupt hpc | acquire hpc | spurious hpc | last hpc | start b queue hpc =>
      refine ⟨hget, fun u c k hasleep => ?_⟩
      rcases hide u c k hasleep with hin | hwake
      · exact .inl hin
      · cases hwake.symm.trans hpc

omit [DecidableEq T] in
theorem busy_update {x : Buf D} (hx : x.busy = (s.buf b).busy) (hc : (s.buf c).busy = true) :
    (Function.update s.buf b x c).busy = true := by
  by_cases hcb : c = b
  · subst hcb
    rw [Function.update_self, hx, hc]
  · rw [Function.update_of_ne hcb, hc]

theorem step_asleep {a : Event T D} (hinv : CacheInv s) (hlock : Locked s) (h : Asleep s)
    (hok : Promised s a) (hs : step s a = some s') : Asleep s' := by
  cases a with
  | bread t dev sector =>
      obtain ⟨hpc, rfl⟩ := step_bread hs
      have hmine : (s.goto t (.get dev sector)).pc t = .get dev sector := goto_self
      exact h.stays (t := t) (fun u hu => moved_goto hu)
        (fun _ _ _ hasleep => (by cases hmine.symm.trans hasleep))
        (fun _ _ hasleep => (by cases hmine.symm.trans hasleep))
        (fun _ hc => (by cases hpc.symm.trans hc)) (fun _ => rfl) (fun _ hb => hb) (fun _ hb => hb) rfl
  | modify t b data =>
      obtain ⟨hpc, rfl⟩ := step_modify hs
      have hbuf : (modify s b data).buf = Function.update s.buf b { s.buf b with data := data } := rfl
      refine h.stays (t := t) (fun _ _ => .inl rfl) (fun _ _ _ ha => ha) (fun _ _ ha => ha)
        (fun _ hc => (by cases hpc.symm.trans hc)) (addr_of_update hbuf ⟨rfl, rfl⟩) (fun c hc => ?_)
        (fun _ hb => hb) rfl
      rw [hbuf]
      exact busy_update rfl hc
  | bwrite t b =>
      obtain ⟨hpc, rfl⟩ := step_bwrite hs
      have hbuf : (bwrite s t b).buf = Function.update s.buf b { s.buf b with dirty := true } := by
        rw [bwrite_eq hinv.owned hok hpc]
        rfl
      rw [bwrite_eq hinv.owned hok hpc] at hbuf ⊢
      have hmine : (s.goto t (.iderw b .bwrite)).pc t = .iderw b .bwrite := goto_self
      refine h.stays (t := t) (fun u hu => moved_goto hu)
        (fun _ _ _ hasleep => (by cases hmine.symm.trans hasleep))
        (fun _ _ hasleep => (by cases hmine.symm.trans hasleep))
        (fun _ hc => (by cases hpc.symm.trans hc)) (addr_of_update hbuf ⟨rfl, rfl⟩) (fun c hc => ?_)
        (fun _ hb => hb) rfl
      rw [hbuf]
      exact busy_update rfl hc
  | brelse t b =>
      obtain ⟨hpc, rfl⟩ := step_brelse hs
      rw [brelse_eq hinv.owned hok.1 hpc]
      have hmine : (s.goto t (.brelse b)).pc t = .brelse b := goto_self
      exact h.stays (t := t) (fun u hu => moved_goto hu)
        (fun _ _ _ hasleep => (by cases hmine.symm.trans hasleep))
        (fun _ _ hasleep => (by cases hmine.symm.trans hasleep))
        (fun _ hc => (by cases hpc.symm.trans hc)) (fun _ => rfl) (fun _ hb => hb) (fun _ hb => hb) rfl
  | go t => exact (step_go hs).asleep hinv hlock h
  | handle ok => exact (step_handle hs).asleep h
  | kill t =>
      obtain rfl := step_kill hs
      have hmoved := moved_kill s t
      refine ⟨fun u b dev sector hasleep => ?_, fun u b k hasleep => ?_⟩
      · obtain ⟨hb, hreason⟩ := h.get u b dev sector ((hmoved u).asleepGet hasleep)
        refine ⟨hb, hreason.imp_right ?_⟩
        rintro ⟨v, hv⟩
        exact ⟨v, (hmoved v).wake hv⟩
      · exact h.ide u b k ((hmoved u).asleepIde hasleep)

/-! ## Runs -/

variable {data : BufId → D} {disk : Bool × BitVec 28 → D} {havedisk1 : Bool}

structure SleepInv (s : Cache T D) : Prop where
  cache : CacheInv s
  driven : Driven s
  locked : Locked s
  asleep : Asleep s

theorem sleepInv_of_run (hrun : Run step Promised (binit data disk havedisk1) s) : SleepInv s := by
  refine hrun.invariant ⟨cacheInv_binit, driven_binit, fun t => ⟨fun h => (by cases h), fun h => ?_⟩,
    ⟨fun _ _ _ _ h => (by cases h), fun _ _ _ h => (by cases h)⟩⟩ ?_
  · exact absurd h Bool.false_ne_true
  · rintro u a v ⟨hcache, hdriven, hlocked, hasleep⟩ hok hs
    exact ⟨step_cacheInv hcache hok hs, step_driven hcache.owned hdriven hok hs,
      step_locked hlocked hcache.owned hok hs, step_asleep hcache hlocked hasleep hok hs⟩

/-- When nobody has `bcache.lock`, those who sleep in `bget` sleep on the buffer that has their sector,
and a process has it. When nobody has `idelock`, those who sleep in `iderw` have their buffer in the
queue, the disk works on the first buffer of the queue, and every buffer of the queue has an owner that
waits for it. -/
theorem asleep_of_run (hrun : Run step Promised (binit data disk havedisk1) s) :
    (s.bcacheLock = none → ∀ t b dev sector, s.pc t = .asleepGet b dev sector →
      s.addr b = (dev, sector) ∧ ∃ u, s.owner b = some u) ∧
    (s.idelock = none → s.started = s.idequeue.head? ∧
      ∀ t b k, s.pc t = .asleepIde b k → b ∈ s.idequeue) ∧
    s.idequeue.Nodup ∧
    ∀ b ∈ s.idequeue, ∃ t k, s.owner b = some t ∧ (s.pc t).use = some (b, .queued k) := by
  have h := sleepInv_of_run hrun
  refine ⟨fun hfree t b dev sector hpc => ?_, fun hfree => ?_, h.cache.single,
    fun b hb => h.cache.owned.waits hb⟩
  · obtain ⟨haddr, hreason⟩ := h.asleep.get t b dev sector hpc
    refine ⟨haddr, ?_⟩
    have hbusy : (s.buf b).busy = true := by
      refine hreason.resolve_right ?_
      rintro ⟨u, hu⟩
      cases hfree.symm.trans (h.locked.holds (t := u) (by rw [hu]; rfl))
    cases hown : s.owner b with
    | none =>
        exact absurd (((h.cache.owned.kept b).rests hown).1.symm.trans hbusy) Bool.false_ne_true
    | some u => exact ⟨u, rfl⟩
  · have hout : s.handler.inside = false := by
      rw [← Bool.not_eq_true]
      intro hin
      cases hfree.symm.trans (h.driven.lock.holds (show InIde s .handler from hin))
    have hbetween : s.handler.between = false := by
      cases hh : s.handler <;> simp_all [Handler.between, Handler.inside]
    refine ⟨by rw [h.driven.started, hbetween]; rfl, fun t b k hpc => ?_⟩
    refine (h.asleep.ide t b k hpc).resolve_right fun hwake => ?_
    rw [hwake] at hout
    cases hout

theorem sharedSector_asleep : ∃ s : Cache Bool ℕ,
    play step (sharedSector.take 24) (binit (fun _ => 0) (fun _ => 5) false) = some s ∧
    s.bcacheLock = none ∧ s.pc false = .asleepIde 0 .bwrite ∧ s.pc true = .asleepGet 0 0 7 ∧
    (s.bcacheLock = none → ∀ t b dev sector, s.pc t = .asleepGet b dev sector →
      s.addr b = (dev, sector) ∧ ∃ u, s.owner b = some u) := by
  have hplay : (play step (sharedSector.take 24) (binit (fun _ => 0) (fun _ => 5) false)).map
      (fun s => (s.bcacheLock, s.pc false, s.pc true)) =
        some (none, .asleepIde 0 .bwrite, .asleepGet 0 0 7) := by
    decide +kernel
  obtain ⟨s, hs, hfacts⟩ := Option.map_eq_some_iff.mp hplay
  obtain ⟨hlock, hpc⟩ := Prod.mk.inj hfacts
  obtain ⟨hpc0, hpc1⟩ := Prod.mk.inj hpc
  exact ⟨s, hs, hlock, hpc0, hpc1, (asleep_of_run (.of_playOk (by decide +kernel) hs)).1⟩

end IntroToOS.Bcache

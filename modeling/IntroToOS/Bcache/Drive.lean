import IntroToOS.Bcache.Sectors

/-! # The disk and the buffers

The disk works on the first buffer of `idequeue`, and what it is told of a device and a sector is
enough to tell the sectors apart. As long as it reports no error, a buffer that is valid and has not
been changed has what the disk has.
-/

namespace IntroToOS.Bcache
open Lib
set_option autoImplicit false

variable {T D : Type} [DecidableEq T] {s s' : Cache T D} {t u : T} {b c : BufId} {pc : Pc}
  {dev sector : BitVec 32} {k : Rw}

/-! ## Addresses -/

def drive (s : Cache T D) (b : BufId) : Bool × BitVec 28 :=
  ideAddr (s.buf b).dev (s.buf b).sector

theorem toNat_setWidth28 {x : BitVec 32} (h : x.toNat < 2 ^ 28) :
    (x.setWidth 28).toNat = x.toNat := by
  rw [BitVec.toNat_setWidth, Nat.mod_eq_of_lt h]

/-- The drive can tell the sectors apart. -/
theorem ideAddr_inj {havedisk1 : Bool} {dev' sector' : BitVec 32}
    (h : Addressable havedisk1 dev sector) (h' : Addressable havedisk1 dev' sector')
    (heq : ideAddr dev sector = ideAddr dev' sector') : dev = dev' ∧ sector = sector' := by
  obtain ⟨hdev, hsector⟩ := Prod.mk.inj heq
  obtain ⟨hle, hlt, -⟩ := h
  obtain ⟨hle', hlt', -⟩ := h'
  constructor
  · apply BitVec.eq_of_toNat_eq
    rw [BitVec.getLsbD, BitVec.getLsbD, Nat.testBit_zero, Nat.testBit_zero, decide_eq_decide] at hdev
    omega
  · apply BitVec.eq_of_toNat_eq
    have hval := congrArg BitVec.toNat hsector
    rwa [toNat_setWidth28 hlt, toNat_setWidth28 hlt'] at hval

omit [DecidableEq T] in
theorem Named.drive_inj (h : Named s) (hb : Live s b) (hc : Live s c)
    (heq : drive s b = drive s c) : b = c := by
  have hdev := h.live b hb
  obtain ⟨hd, hs⟩ := ideAddr_inj (h.addressable b hdev) (h.addressable c (h.live c hc)) heq
  exact h.unique b c (Prod.ext hd hs) hdev

omit [DecidableEq T] in
theorem live_of_owner (h : s.owner b = some t) : Live s b := .inl fun hnone => by
  cases hnone.symm.trans h

/-! ## The queue -/

/-- The process has `idelock`. -/
def Pc.inIde : Pc → Bool
  | .append .. | .wait .. => true
  | _ => false

def Handler.inside : Handler → Bool
  | .run | .wake _ | .start => true
  | _ => false

/-- The first buffer has been taken off the queue, and the disk has not been started again. -/
def Handler.between : Handler → Bool
  | .wake _ | .start => true
  | _ => false

def InIde (s : Cache T D) : Agent T → Prop
  | .proc t => (s.pc t).inIde = true
  | .handler => s.handler.inside = true

/-- `idequeue` points to the buffer that is being read or written. -/
structure Driven (s : Cache T D) : Prop where
  lock : Exclusive s.idelock (InIde s)
  started : s.started = if s.handler.between then none else s.idequeue.head?

theorem Moved.inIde {pc pc' : Pc} (h : Moved pc pc') : pc'.inIde = true ↔ pc.inIde = true := by
  rw [h.same (f := Pc.inIde) (fun _ _ _ => rfl) fun _ _ => rfl]

omit [DecidableEq T] in
/-- Only one process moves. -/
theorem inIde_iff (hhandler : s'.handler = s.handler)
    (hothers : ∀ u, u ≠ t → Moved (s.pc u) (s'.pc u)) :
    ∀ a, a ≠ Agent.proc t → (InIde s' a ↔ InIde s a) := by
  intro a ha
  cases a with
  | proc u => exact (hothers u fun hu => ha (congrArg _ hu)).inIde
  | handler =>
      show s'.handler.inside = true ↔ _
      rw [hhandler]
      rfl

/-- A step of a process that has not to do with the disk. -/
theorem Driven.stays (h : Driven s) (hlock : s'.idelock = s.idelock)
    (hhandler : s'.handler = s.handler) (hqueue : s'.idequeue = s.idequeue)
    (hstarted : s'.started = s.started) (hothers : ∀ u, u ≠ t → Moved (s.pc u) (s'.pc u))
    (hsame : (s'.pc t).inIde = (s.pc t).inIde) : Driven s' := by
  refine ⟨hlock ▸ h.lock.keep fun a => ?_, by rw [hstarted, hhandler, hqueue]; exact h.started⟩
  by_cases ha : a = .proc t
  · subst ha
    show (s'.pc t).inIde = true ↔ (s.pc t).inIde = true
    rw [hsame]
  · exact inIde_iff hhandler hothers a ha

/-- The disk is started when the queue was empty. -/
theorem enqueue_eq (hnotin : b ∉ s.idequeue) : enqueue s t b k =
    if s.idequeue = [] then idestart { s.goto t (.wait b k) with idequeue := [b] } b
    else { s.goto t (.wait b k) with idequeue := s.idequeue ++ [b] } := by
  unfold enqueue
  cases hqueue : s.idequeue with
  | nil => exact (if_pos rfl).trans (if_pos rfl).symm
  | cons c queue =>
      rw [hqueue, List.mem_cons, not_or] at hnotin
      dsimp only
      rw [if_neg (List.cons_ne_nil c queue), if_neg]
      exact fun heq => hnotin.1 (Option.some.inj heq).symm

theorem Driven.enqueue (h : Driven s) (hnotin : b ∉ s.idequeue) (hpc : s.pc t = .append b k)
    (hothers : ∀ u, u ≠ t → Moved (s.pc u) ((enqueue s t b k).pc u)) :
    Driven (enqueue s t b k) := by
  have hin : InIde s (.proc t) := by
    show (s.pc t).inIde = true
    rw [hpc]
    rfl
  have hnot : s.handler.between = false := by
    rw [← Bool.not_eq_true]
    intro hbetween
    have hinside : InIde s .handler := by
      show s.handler.inside = true
      cases hh : s.handler <;> simp_all [Handler.between, Handler.inside]
    cases h.lock.unique hin hinside
  have hstarted := h.started
  rw [hnot] at hstarted
  have hlock : Exclusive s.idelock (InIde (Bcache.enqueue s t b k)) := by
    refine h.lock.keep fun a => ?_
    by_cases ha : a = .proc t
    · subst ha
      show ((Bcache.enqueue s t b k).pc t).inIde = true ↔ _
      rw [enqueue_pc, goto_self]
      exact ⟨fun _ => hin, fun _ => rfl⟩
    · refine inIde_iff ?_ hothers a ha
      rw [enqueue_eq hnotin]
      split <;> rfl
  rw [enqueue_eq hnotin] at hlock ⊢
  cases hqueue : s.idequeue with
  | nil =>
      rw [hqueue, if_pos rfl] at hlock
      rw [if_pos rfl]
      refine ⟨hlock, ?_⟩
      show some b = if s.handler.between then none else some b
      rw [hnot]
      rfl
  | cons d queue =>
      rw [hqueue, if_neg (List.cons_ne_nil _ _)] at hlock
      rw [if_neg (List.cons_ne_nil _ _)]
      refine ⟨hlock, ?_⟩
      show s.started = if s.handler.between then none else some d
      rw [hstarted, hnot, hqueue]
      rfl

theorem Goes.driven (hgo : Goes s t s') (hown : Owned s) (h : Driven s) : Driven s' := by
  have hothers : ∀ u, u ≠ t → Moved (s.pc u) (s'.pc u) := fun u hu => hgo.others hu
  cases hgo with
  | lock b k hpc hlock | relock b k hpc hlock =>
      have hfree := h.lock
      rw [hlock] at hfree
      exact ⟨hfree.acquire (by simp [InIde, Pc.inIde]) (inIde_iff rfl hothers), h.started⟩
  | done b k hpc | doze b k hpc =>
      refine ⟨h.lock.release (t := .proc t) ?_ (by simp [InIde, Pc.inIde]) (inIde_iff rfl hothers),
        h.started⟩
      simp [InIde, hpc, Pc.inIde]
  | enqueue b k hpc =>
      obtain ⟨-, -, -, hnotin, -⟩ := hown.busy_with (t := t) (b := b) (x := .asked k)
        (by rw [hpc]; rfl)
      exact h.enqueue hnotin hpc hothers
  | acquire dev sector hpc =>
      refine h.stays (t := t) rfl rfl rfl rfl hothers ?_
      rcases hpc with hpc | hpc <;> simp [hpc, Pc.inIde]
  | _ =>
      refine h.stays (t := t) rfl rfl rfl rfl hothers ?_
      simp_all [Pc.inIde, give, moveToFront, Cache.panic]

omit [DecidableEq T] in
theorem Handles.driven {ok : Bool} (hh : Handles s ok s') (h : Driven s) : Driven s' := by
  have hothers : ∀ a, a ≠ Agent.handler → (InIde s' a ↔ InIde s a) := by
    intro a ha
    cases a with
    | proc u => exact (hh.others u).inIde
    | handler => exact absurd rfl ha
  have hkeep : (InIde s' .handler ↔ InIde s .handler) → ∀ a, InIde s' a ↔ InIde s a := by
    intro hsame a
    by_cases ha : a = .handler
    · rw [ha, hsame]
    · exact hothers a ha
  have hstarted := h.started
  cases hh with
  | interrupt hpc =>
      refine ⟨h.lock.keep (hkeep (by simp [InIde, hpc, Handler.inside])), ?_⟩
      simpa [hpc, Handler.between] using hstarted
  | acquire hpc hlock =>
      have hfree := h.lock
      rw [hlock] at hfree
      refine ⟨hfree.acquire (by simp [InIde, Handler.inside]) hothers, ?_⟩
      simpa [hpc, Handler.between] using hstarted
  | spurious hpc | last hpc =>
      refine ⟨h.lock.release (t := .handler) (by simp [InIde, hpc, Handler.inside])
        (by simp [InIde, Handler.inside]) hothers, ?_⟩
      simp_all [Handler.between]
  | serve b queue data hpc =>
      exact ⟨h.lock.keep (hkeep (by simp [InIde, hpc, Handler.inside])), rfl⟩
  | wake b hpc =>
      refine ⟨h.lock.keep (hkeep (by simp [InIde, hpc, Handler.inside])), ?_⟩
      show s.started = none
      simpa [hpc, Handler.between] using hstarted
  | start b queue hpc hqueue =>
      refine ⟨h.lock.release (t := .handler) (by simp [InIde, hpc, Handler.inside])
        (by simp [InIde, Handler.inside]) hothers, ?_⟩
      show some b = s.idequeue.head?
      rw [hqueue]
      rfl

theorem step_driven {a : Event T D} (hown : Owned s) (h : Driven s) (hok : Promised s a)
    (hs : step s a = some s') : Driven s' := by
  cases a with
  | bread t dev sector =>
      obtain ⟨hpc, rfl⟩ := step_bread hs
      exact h.stays (t := t) rfl rfl rfl rfl (fun u hu => moved_goto hu) (by simp [hpc, Pc.inIde])
  | modify t b data =>
      obtain ⟨-, rfl⟩ := step_modify hs
      exact ⟨h.lock, h.started⟩
  | bwrite t b =>
      obtain ⟨hpc, rfl⟩ := step_bwrite hs
      rw [bwrite_eq hown hok hpc]
      exact h.stays (t := t) rfl rfl rfl rfl (fun u hu => moved_goto hu) (by simp [hpc, Pc.inIde])
  | brelse t b =>
      obtain ⟨hpc, rfl⟩ := step_brelse hs
      rw [brelse_eq hown hok.1 hpc]
      exact h.stays (t := t) rfl rfl rfl rfl (fun u hu => moved_goto hu) (by simp [hpc, Pc.inIde])
  | go t => exact (step_go hs).driven hown h
  | handle ok => exact (step_handle hs).driven h
  | kill t =>
      obtain rfl := step_kill hs
      refine h.stays (t := t) rfl rfl rfl rfl (fun u hu => moved_goto hu) ?_
      rw [goto_self]
      exact (moved_killPc _).same (f := Pc.inIde) (fun _ _ _ => rfl) fun _ _ => rfl

omit [DecidableEq T] in
/-- The disk works on a buffer of the queue. -/
theorem Driven.mem_queue (h : Driven s) (hb : s.started = some b) : b ∈ s.idequeue := by
  have hstarted := h.started
  rw [hb] at hstarted
  split at hstarted
  · cases hstarted
  · exact List.mem_of_mem_head? hstarted.symm

omit [DecidableEq T] in
theorem driven_binit {data : BufId → D} {disk : Bool × BitVec 28 → D} {havedisk1 : Bool} :
    Driven (binit data disk havedisk1 : Cache T D) where
  lock a := by
    refine ⟨fun h => (by cases h), fun h => ?_⟩
    cases a with
    | proc t => exact absurd h Bool.false_ne_true
    | handler => exact absurd h Bool.false_ne_true
  started := rfl

/-! ## The data -/

/-- A buffer that is valid and has not been changed has what the disk has, and so has a buffer that
the disk has been told to write. -/
structure Coherent (s : Cache T D) : Prop where
  clean : ∀ b, (s.buf b).valid = true → (s.buf b).dirty = false → s.modified b = false →
    (s.buf b).data = s.disk (drive s b)
  sent : ∀ b, s.started = some b → (s.buf b).dirty = true → (s.buf b).data = s.disk (drive s b)

/-- A buffer but for `B_BUSY`. -/
def Buf.contents (x : Buf D) : Buf D := { x with busy := false }

omit [DecidableEq T] in
/-- A step that changes one buffer at most, which the disk does not work on. -/
theorem Coherent.step (h : Coherent s) (b : BufId) (hdisk : s'.disk = s.disk)
    (hstarted : s'.started = s.started ∨ s'.started = none)
    (hbuf : ∀ c, c ≠ b → (s'.buf c).contents = (s.buf c).contents)
    (hmod : ∀ c, c ≠ b → s'.modified c = s.modified c)
    (hb : (s'.buf b).valid = true → (s'.buf b).dirty = false → s'.modified b = false →
      (s'.buf b).data = s.disk (drive s' b)) (hsent : s'.started ≠ some b) : Coherent s' := by
  have hdrive : ∀ c, c ≠ b → drive s' c = drive s c := by
    intro c hc
    rw [drive, drive]
    have hdev := congrArg Buf.dev (hbuf c hc)
    have hsector := congrArg Buf.sector (hbuf c hc)
    exact congrArg₂ ideAddr hdev hsector
  refine ⟨fun c hvalid hdirty hclean => ?_, fun c hc hdirty => ?_⟩
  · rw [hdisk]
    by_cases hcb : c = b
    · subst hcb
      exact hb hvalid hdirty hclean
    · rw [hdrive c hcb]
      refine (congrArg Buf.data (hbuf c hcb)).trans (h.clean c ?_ ?_ ?_)
      · exact (congrArg Buf.valid (hbuf c hcb)).symm.trans hvalid
      · exact (congrArg Buf.dirty (hbuf c hcb)).symm.trans hdirty
      · exact (hmod c hcb).symm.trans hclean
  · have hcb : c ≠ b := by
      rintro rfl
      exact hsent hc
    rcases hstarted with hsame | hnone
    · rw [hdisk, hdrive c hcb]
      refine (congrArg Buf.data (hbuf c hcb)).trans (h.sent c (hsame.symm.trans hc) ?_)
      exact (congrArg Buf.dirty (hbuf c hcb)).symm.trans hdirty
    · cases hnone.symm.trans hc

omit [DecidableEq T] in
theorem Coherent.same (h : Coherent s) (hdisk : s'.disk = s.disk) (hstarted : s'.started = s.started)
    (hbuf : s'.buf = s.buf) (hmod : s'.modified = s.modified) : Coherent s' := by
  refine ⟨fun b => ?_, fun b => ?_⟩
  · rw [hbuf, hmod, hdisk, drive, hbuf]
    exact h.clean b
  · rw [hbuf, hstarted, hdisk, drive, hbuf]
    exact h.sent b

omit [DecidableEq T] in
/-- The disk is told to read or to write a buffer. -/
theorem Coherent.idestart (h : Coherent s) (hnamed : Named s) (hb : Live s b) (hbuf : s'.buf = s.buf)
    (hmod : s'.modified = s.modified) (hstarted : s'.started = some b)
    (hdisk : s'.disk = (idestart s b).disk) : Coherent s' := by
  have hdrive : ∀ c, drive s' c = drive s c := fun c => by rw [drive, hbuf, drive]
  refine ⟨fun c hvalid hdirty hclean => ?_, fun c hc hdirty => ?_⟩
  · rw [hbuf] at hvalid hdirty ⊢
    rw [hmod] at hclean
    rw [hdrive, h.clean c hvalid hdirty hclean, hdisk]
    show _ = (if (s.buf b).dirty = true then _ else s.disk) (drive s c)
    split
    · next hd =>
      have hne : drive s c ≠ drive s b := by
        intro heq
        obtain rfl := hnamed.drive_inj (.inr hvalid) hb heq
        exact Bool.false_ne_true (hdirty.symm.trans hd)
      exact (Function.update_of_ne hne ..).symm
    · rfl
  · obtain rfl := Option.some.inj (hstarted.symm.trans hc)
    rw [hbuf] at hdirty ⊢
    rw [hdrive, hdisk]
    show _ = (if (s.buf b).dirty = true then
      Function.update s.disk (drive s b) (s.buf b).data else s.disk) (drive s b)
    rw [if_pos hdirty, Function.update_self]

theorem Goes.coherent (hgo : Goes s t s') (hinv : CacheInv s) (hdriven : Driven s)
    (h : Coherent s) : Coherent s' := by
  have hidle : ∀ b, (s.buf b).busy = false → s.started ≠ some b := by
    intro b hfree hb
    have hrests := (hinv.owned.kept b).rests (hinv.owned.free hfree)
    exact hrests.2.2.1 (hdriven.mem_queue hb)
  cases hgo with
  | hit b dev sector hpc hfind hbusy =>
      have hrests := (hinv.owned.kept b).rests (hinv.owned.free hbusy)
      have hself : (give s t b (s.buf b)).buf b = { s.buf b with busy := true } :=
        Function.update_self ..
      refine h.step b rfl (.inl rfl) (fun c hc => ?_) (fun c hc => Function.update_of_ne hc ..)
        (fun hvalid hdirty _ => ?_) (hidle b hbusy)
      · exact congrArg Buf.contents (Function.update_of_ne hc ..)
      · rw [drive, hself]
        rw [hself] at hvalid hdirty
        exact h.clean b hvalid hdirty hrests.2.2.2
  | miss b dev sector hpc hnone hfind =>
      have hbusy := (hinv.ordered.victim hfind).1
      refine h.step b rfl (.inl rfl) (fun c hc => ?_) (fun c hc => Function.update_of_ne hc ..)
        (fun hvalid _ _ => ?_) (hidle b hbusy)
      · exact congrArg Buf.contents (Function.update_of_ne hc ..)
      · rw [show ∀ x, (give s t b x).buf b = { x with busy := true } from
          fun x => Function.update_self ..] at hvalid
        cases hvalid
  | enqueue b k hpc =>
      obtain ⟨hown, -, -, hnotin, -⟩ := hinv.owned.busy_with (t := t) (b := b) (x := .asked k)
        (by rw [hpc]; rfl)
      rw [enqueue_eq hnotin]
      split
      · exact h.idestart hinv.named (live_of_owner hown) rfl rfl rfl rfl
      · exact h.same rfl rfl rfl rfl
  | move b hpc =>
      obtain ⟨-, -, -, hnotin, -⟩ := hinv.owned.busy_with (t := t) (b := b) (x := .leaving)
        (by rw [hpc]; rfl)
      have hself : (moveToFront s t b).buf b = { s.buf b with busy := false } :=
        Function.update_self ..
      refine h.step b rfl (.inl rfl) (fun c hc => ?_) (fun c _ => rfl)
        (fun hvalid hdirty hclean => ?_) fun hb => hnotin (hdriven.mem_queue hb)
      · exact congrArg Buf.contents (Function.update_of_ne hc ..)
      · rw [drive, hself]
        rw [hself] at hvalid hdirty
        exact h.clean b hvalid hdirty hclean
  | _ => exact h.same rfl rfl rfl rfl

omit [DecidableEq T] in
/-- The interrupt handler, when the disk reports no error. -/
theorem Handles.coherent (hh : Handles s true s') (hinv : CacheInv s) (hdriven : Driven s)
    (h : Coherent s) : Coherent s' := by
  cases hh with
  | serve b queue data hpc hqueue hdirty hread =>
      have hself : (s.setBuf b { s.buf b with valid := true, dirty := false, data := data }).buf b =
          { s.buf b with valid := true, dirty := false, data := data } := Function.update_self ..
      have hstarted : s.started = some b := by
        rw [hdriven.started, hpc, hqueue]
        rfl
      refine h.step b rfl (.inr rfl) (fun c hc => ?_) (fun _ _ => rfl) (fun _ _ _ => ?_)
        fun hnone => (by cases hnone)
      · exact congrArg Buf.contents (Function.update_of_ne hc ..)
      · show ((s.setBuf b _).buf b).data = s.disk
          (ideAddr ((s.setBuf b _).buf b).dev ((s.setBuf b _).buf b).sector)
        rw [hself]
        cases hd : (s.buf b).dirty with
        | true => exact (hdirty hd).trans (h.sent b hstarted hd)
        | false => exact hread hd rfl
  | start b queue hpc hqueue =>
      obtain ⟨t, k, hown, -⟩ := hinv.owned.waits (b := b) (hqueue ▸ List.mem_cons_self)
      exact h.idestart hinv.named (live_of_owner hown) rfl rfl rfl rfl
  | _ => exact h.same rfl rfl rfl rfl

/-- The disk reports no error. -/
def NoError : Event T D → Prop
  | .handle ok => ok = true
  | _ => True

instance : ∀ a : Event T D, Decidable (NoError a)
  | .handle ok => inferInstanceAs (Decidable (ok = true))
  | .bread .. | .modify .. | .bwrite .. | .brelse .. | .go _ | .kill _ => isTrue trivial

theorem step_coherent {a : Event T D} (hinv : CacheInv s) (hdriven : Driven s) (h : Coherent s)
    (hok : Promised s a) (herror : NoError a) (hs : step s a = some s') : Coherent s' := by
  cases a with
  | bread t dev sector =>
      obtain ⟨-, rfl⟩ := step_bread hs
      exact h.same rfl rfl rfl rfl
  | modify t b data =>
      obtain ⟨hpc, rfl⟩ := step_modify hs
      obtain ⟨-, -, hnotin⟩ := hinv.owned.holds hok hpc
      refine h.step b rfl (.inl rfl) (fun c hc => ?_) (fun c hc => Function.update_of_ne hc ..)
        (fun _ _ hclean => ?_) fun hb => hnotin (hdriven.mem_queue hb)
      · exact congrArg Buf.contents (Function.update_of_ne hc ..)
      · rw [show (modify s b data).modified b = true from Function.update_self ..] at hclean
        cases hclean
  | bwrite t b =>
      obtain ⟨hpc, rfl⟩ := step_bwrite hs
      obtain ⟨-, -, hnotin⟩ := hinv.owned.holds hok hpc
      rw [bwrite_eq hinv.owned hok hpc]
      refine h.step b rfl (.inl rfl) (fun c hc => ?_) (fun c hc => Function.update_of_ne hc ..)
        (fun _ hdirty _ => ?_) fun hb => hnotin (hdriven.mem_queue hb)
      · exact congrArg Buf.contents (Function.update_of_ne hc ..)
      · change ((s.setBuf b { s.buf b with dirty := true }).buf b).dirty = false at hdirty
        rw [show ∀ x, (s.setBuf b x).buf b = x from fun x => Function.update_self ..] at hdirty
        cases hdirty
  | brelse t b =>
      obtain ⟨hpc, rfl⟩ := step_brelse hs
      rw [brelse_eq hinv.owned hok.1 hpc]
      exact h.same rfl rfl rfl rfl
  | go t => exact (step_go hs).coherent hinv hdriven h
  | handle ok =>
      obtain rfl : ok = true := herror
      exact (step_handle hs).coherent hinv hdriven h
  | kill t =>
      obtain rfl := step_kill hs
      exact h.same rfl rfl rfl rfl

end IntroToOS.Bcache

import IntroToOS.Lib.Logs
import IntroToOS.Lib.Mutex
import IntroToOS.Pipes.Machine

/-! # A pipe is a stream of bytes

What the reads have returned, in the order in which they return, followed by what the pipe holds, is
what has been stored, in that order: nothing is lost, repeated or reordered, whichever processes read
and write and however they interleave (`stream_of_run`). A read is never divided by another one; a
write may be, where it has to wait.
-/

namespace IntroToOS.Pipes
open Lib
set_option autoImplicit false

variable {T : Type} [DecidableEq T] {s s' : State T} {t u : T} {pc : Pc}

/-! ## Steps -/

/-- What a step of `t` can do. -/
inductive Goes (s : State T) (t : T) : State T → Prop
  | acquire (c : Call) (hpc : s.pc t = .enter c ∨ s.pc t = .woken c) (hlock : s.lock = none) :
    Goes s t { s.goto t (.run c) with lock := some t }
  | filled (addr : ℕ → Byte) (n : ℤ) (i : ℕ) (hpc : s.pc t = .run (.write addr n i))
    (hn : n ≤ i) : Goes s t (s.goto t (.finish (.write addr n i true)))
  | refused (addr : ℕ → Byte) (n : ℤ) (i : ℕ) (hpc : s.pc t = .run (.write addr n i))
    (hfull : s.pipe.nwrite = s.pipe.nread + .ofNat 32 PIPESIZE)
    (hend : s.pipe.readopen = false ∨ s.killed t = true) :
    Goes s t (s.goto t (.leave (.write addr n i false)))
  | full (addr : ℕ → Byte) (n : ℤ) (i : ℕ) (hpc : s.pc t = .run (.write addr n i))
    (hfull : s.pipe.nwrite = s.pipe.nread + .ofNat 32 PIPESIZE) (hopen : s.pipe.readopen = true) :
    Goes s t (s.goto t (.wake (.write addr n i)))
  | store (addr : ℕ → Byte) (n : ℤ) (i : ℕ) (hpc : s.pc t = .run (.write addr n i))
    (hn : (i : ℤ) < n) (hroom : s.pipe.nwrite ≠ s.pipe.nread + .ofNat 32 PIPESIZE) :
    Goes s t { s.goto t (.run (.write addr n (i + 1))) with
      pipe := s.pipe.put (addr i)
      stored := s.stored ++ [(t, addr i)] }
  | interrupted (n : ℤ) (hpc : s.pc t = .run (.read n)) (hkilled : s.killed t = true) :
    Goes s t (s.goto t (.leave (.read n none)))
  | empty (n : ℤ) (hpc : s.pc t = .run (.read n)) (hempty : s.pipe.nread = s.pipe.nwrite)
    (hopen : s.pipe.writeopen = true) : Goes s t (s.goto t (.doze (.read n)))
  | ready (n : ℤ) (hpc : s.pc t = .run (.read n))
    (hready : s.pipe.nread = s.pipe.nwrite → s.pipe.writeopen = false) :
    Goes s t (s.goto t (.copy n []))
  | take (n : ℤ) (bytes : List Byte) (hpc : s.pc t = .copy n bytes)
    (hn : (bytes.length : ℤ) < n) (hsome : s.pipe.nread ≠ s.pipe.nwrite) :
    Goes s t { s.goto t (.copy n (bytes ++ [s.pipe.take.1])) with pipe := s.pipe.take.2 }
  | taken (n : ℤ) (bytes : List Byte) (hpc : s.pc t = .copy n bytes)
    (hend : (bytes.length : ℤ) < n → s.pipe.nread = s.pipe.nwrite) :
    Goes s t (s.goto t (.finish (.read n (some bytes))))
  | close (writable : Bool) (hpc : s.pc t = .run (.close writable)) :
    Goes s t (pipeclose s t writable)
  | wake (c : Call) (hpc : s.pc t = .wake c) : Goes s t ((s.wakeup .nread).goto t (.doze c))
  | doze (c : Call) (hpc : s.pc t = .doze c) : Goes s t { s.goto t (.asleep c) with lock := none }
  | finish (r : Reply) (hpc : s.pc t = .finish r) :
    Goes s t ((s.wakeup r.chan).goto t (.leave r))
  | leave (r : Reply) (hpc : s.pc t = .leave r) : Goes s t (leave s t r)
  | free (hpc : s.pc t = .free) : Goes s t { s.goto t .out with frees := s.frees + 1 }

theorem goes_pipewrite {addr : ℕ → Byte} {n : ℤ} {i : ℕ} (hpc : s.pc t = .run (.write addr n i)) :
    Goes s t (pipewrite s t addr n i) := by
  unfold pipewrite
  split
  · next hn =>
    split
    · next hfull =>
      split
      · next hend => exact .refused addr n i hpc hfull hend
      · next hend =>
        rw [not_or, Bool.not_eq_false] at hend
        exact .full addr n i hpc hfull hend.1
    · next hroom => exact .store addr n i hpc hn hroom
  · next hn => exact .filled addr n i hpc (by omega)

theorem goes_piperead {n : ℤ} (hpc : s.pc t = .run (.read n)) : Goes s t (piperead s t n) := by
  unfold piperead
  split
  · next hempty =>
    split
    · next hkilled => exact .interrupted n hpc hkilled
    · exact .empty n hpc hempty.1 hempty.2
  · next hready =>
    refine .ready n hpc fun heq => ?_
    rw [← Bool.not_eq_true]
    exact fun hopen => hready ⟨heq, hopen⟩

theorem goes_pipecopy {n : ℤ} {bytes : List Byte} (hpc : s.pc t = .copy n bytes) :
    Goes s t (pipecopy s t n bytes) := by
  unfold pipecopy
  split
  · next hn => exact .take n bytes hpc hn.1 hn.2
  · next hn =>
    refine .taken n bytes hpc fun hlt => ?_
    by_contra hne
    exact hn ⟨hlt, hne⟩

theorem goes_of_go (hs : go s t = some s') : Goes s t s' := by
  unfold go at hs
  split at hs
  case h_1 | h_2 => cases hs
  case h_3 c hpc =>
    obtain ⟨hlock, rfl⟩ := Option.ite_none_right_eq_some.mp hs |>.imp_right Option.some.inj
    exact .acquire c (.inl hpc) hlock
  case h_4 c hpc =>
    obtain ⟨hlock, rfl⟩ := Option.ite_none_right_eq_some.mp hs |>.imp_right Option.some.inj
    exact .acquire c (.inr hpc) hlock
  all_goals obtain rfl := Option.some.inj hs
  case h_5 hpc => exact goes_pipewrite hpc
  case h_6 hpc => exact goes_piperead hpc
  case h_7 hpc => exact .close _ hpc
  case h_8 hpc => exact .wake _ hpc
  case h_9 hpc => exact .doze _ hpc
  case h_10 hpc => exact goes_pipecopy hpc
  case h_11 hpc => exact .finish _ hpc
  case h_12 hpc => exact .leave _ hpc
  case h_13 hpc => exact .free hpc

/-- A process that does not make the step is woken at most. -/
def Moved (pc pc' : Pc) : Prop := pc' = pc ∨ ∃ c, pc = .asleep c ∧ pc' = .woken c

theorem moved_wakePc (chan : Chan) (pc : Pc) : Moved pc (wakePc chan pc) := by
  unfold wakePc
  split
  · next c =>
    split
    · exact .inr ⟨c, rfl, rfl⟩
    · exact .inl rfl
  · exact .inl rfl

/-- A function of the program counter that a wake-up leaves alone. -/
theorem Moved.same {α : Type*} {f : Pc → α} (hf : ∀ c, f (.woken c) = f (.asleep c)) {pc pc' : Pc}
    (h : Moved pc pc') : f pc' = f pc := by
  rcases h with rfl | ⟨c, rfl, rfl⟩
  · rfl
  · exact hf c

@[simp] theorem goto_self : (s.goto t pc).pc t = pc := Function.update_self ..

theorem goto_of_ne (h : u ≠ t) : (s.goto t pc).pc u = s.pc u := Function.update_of_ne h ..

theorem moved_goto (h : u ≠ t) : Moved (s.pc u) ((s.goto t pc).pc u) := .inl (goto_of_ne h)

theorem moved_wakeup_goto {chan : Chan} (h : u ≠ t) :
    Moved (s.pc u) (((s.wakeup chan).goto t pc).pc u) := by
  rw [goto_of_ne h]
  exact moved_wakePc chan _

theorem Goes.others (h : Goes s t s') (hu : u ≠ t) : Moved (s.pc u) (s'.pc u) := by
  cases h with
  | wake | finish => exact moved_wakeup_goto hu
  | _ => exact moved_goto hu

theorem moved_killPc (pc : Pc) : Moved pc (killPc pc) := by
  unfold killPc
  split
  · next c => exact .inr ⟨c, rfl, rfl⟩
  · exact .inl rfl

theorem moved_kill (s : State T) (t u : T) : Moved (s.pc u) ((kill s t).pc u) := by
  by_cases hu : u = t
  · subst hu
    show Moved _ ((s.goto u _).pc u)
    rw [goto_self]
    exact moved_killPc _
  · exact moved_goto hu

theorem step_call {c : Call} (hs : step s (.call t c) = some s') :
    s.pc t = .out ∧ c.fresh = true ∧ s' = s.goto t (.enter c) := by
  simp only [step] at hs
  split at hs
  · next hpc =>
    obtain ⟨hfresh, hs⟩ := Option.ite_none_right_eq_some.mp hs
    exact ⟨hpc, hfresh, (Option.some.inj hs).symm⟩
  · cases hs

/-! ## The lock -/

/-- The process has `p->lock`. -/
def Pc.inside : Pc → Bool
  | .run _ | .wake _ | .doze _ | .copy .. | .finish _ | .leave _ => true
  | _ => false

def Locked (s : State T) : Prop := Exclusive s.lock fun t => (s.pc t).inside = true

theorem Moved.inside {pc pc' : Pc} (h : Moved pc pc') : pc'.inside = true ↔ pc.inside = true := by
  rw [h.same (f := Pc.inside) fun _ => rfl]

/-- A step inside of the critical section. -/
theorem Locked.stays (h : Locked s) (hlock : s'.lock = s.lock)
    (hsame : (s'.pc t).inside = (s.pc t).inside) (hothers : ∀ u, u ≠ t → Moved (s.pc u) (s'.pc u)) :
    Locked s' := by
  unfold Locked
  rw [hlock]
  refine h.keep fun u => ?_
  by_cases hu : u = t
  · rw [hu, hsame]
  · exact (hothers u hu).inside

theorem Goes.locked (hgo : Goes s t s') (h : Locked s) : Locked s' := by
  have hothers : ∀ u, u ≠ t → Moved (s.pc u) (s'.pc u) := fun u hu => hgo.others hu
  cases hgo with
  | acquire c hpc hlock =>
      unfold Locked at h
      rw [hlock] at h
      exact h.acquire (by simp [Pc.inside]) fun u hu => (hothers u hu).inside
  | doze c hpc =>
      exact h.release (t := t) (by simp [hpc, Pc.inside]) (by simp [Pc.inside])
        fun u hu => (hothers u hu).inside
  | leave r hpc =>
      refine h.release (t := t) (by simp [hpc, Pc.inside]) ?_ fun u hu => (hothers u hu).inside
      simp only [Pipes.leave, goto_self]
      split <;> exact Bool.false_ne_true
  | _ =>
      refine h.stays (t := t) rfl ?_ hothers
      simp_all [Pc.inside, pipeclose]

theorem step_locked {a : Event T} (h : Locked s) (hs : step s a = some s') : Locked s' := by
  cases a with
  | call t c =>
      obtain ⟨hpc, -, rfl⟩ := step_call hs
      exact h.stays (t := t) rfl (by simp [hpc, Pc.inside]) fun u hu => moved_goto hu
  | go t => exact (goes_of_go hs).locked h
  | kill t =>
      obtain rfl := Option.some.inj hs
      exact h.stays (t := t) rfl ((moved_kill s t t).same fun _ => rfl) fun u _ => moved_kill s t u

/-! ## The bytes of the calls -/

/-- The bytes that a call has got. -/
def Reply.bytes : Reply → List Byte
  | .read _ bytes => bytes.getD []
  | _ => []

def Pc.bytes : Pc → List Byte
  | .copy _ bytes => bytes
  | .finish r | .leave r => r.bytes
  | _ => []

/-- The bytes that a call has stored. -/
def Call.put : Call → List Byte
  | .write addr _ i => (List.range i).map addr
  | _ => []

def Reply.put : Reply → List Byte
  | .write addr _ i _ => (List.range i).map addr
  | _ => []

def Pc.put : Pc → List Byte
  | .enter c | .run c | .wake c | .doze c | .asleep c | .woken c => c.put
  | .finish r | .leave r => r.put
  | _ => []

/-- What the process with the lock has taken out of the pipe. -/
def State.inHand (s : State T) : List Byte := s.lock.elim [] fun t => (s.pc t).bytes

/-- How many bytes the pipe holds. -/
def Pipe.count (p : Pipe) : ℕ := (p.nwrite - p.nread).toNat

/-- What the pipe holds. -/
def Pipe.queued (p : Pipe) : List Byte := Ring.contents PIPESIZE p.data p.nread p.count

/-- The bytes that the calls of a process that have returned have stored. -/
def putBy (t : T) (l : List (T × Reply)) : List Byte := (ofProc t l).flatMap Reply.put

structure StreamInv (s : State T) : Prop where
  lock : Locked s
  room : s.pipe.count ≤ PIPESIZE
  order : s.stored.map Prod.snd =
    s.replies.flatMap (fun x => x.2.bytes) ++ s.inHand ++ s.pipe.queued
  writer : ∀ t, ofProc t s.stored = putBy t s.replies ++ (s.pc t).put

/-- A step that neither touches the pipe nor returns. -/
structure Quiet (s s' : State T) : Prop where
  pipe : s'.pipe.data = s.pipe.data ∧ s'.pipe.nread = s.pipe.nread ∧ s'.pipe.nwrite = s.pipe.nwrite
  stored : s'.stored = s.stored
  replies : s'.replies = s.replies
  put : ∀ u, (s'.pc u).put = (s.pc u).put
  inHand : s'.inHand = s.inHand

omit [DecidableEq T] in
theorem Quiet.queued (h : Quiet s s') : s'.pipe.queued = s.pipe.queued := by
  obtain ⟨hdata, hread, hwrite⟩ := h.pipe
  rw [Pipe.queued, Pipe.count, hdata, hread, hwrite]
  rfl

theorem StreamInv.quiet (h : StreamInv s) (hlock : Locked s') (hq : Quiet s s') : StreamInv s' where
  lock := hlock
  room := by
    obtain ⟨-, hread, hwrite⟩ := hq.pipe
    rw [Pipe.count, hread, hwrite]
    exact h.room
  order := by rw [hq.stored, hq.replies, hq.inHand, hq.queued, h.order]
  writer t := by rw [hq.stored, hq.replies, hq.put, h.writer]

omit [DecidableEq T] in
theorem inHand_of_lock (h : s.lock = some t) : s.inHand = (s.pc t).bytes := by
  rw [State.inHand, h]
  rfl

omit [DecidableEq T] in
theorem Locked.inHand (h : Locked s) (hin : (s.pc t).inside = true) : s.inHand = (s.pc t).bytes :=
  inHand_of_lock (h.holds hin)

/-- What does not change for the process that makes a step changes for nobody. -/
theorem same_of_others {α : Type*} {f : Pc → α} (hf : ∀ c, f (.woken c) = f (.asleep c))
    (hsame : f (s'.pc t) = f (s.pc t)) (hothers : ∀ u, u ≠ t → Moved (s.pc u) (s'.pc u)) (u : T) :
    f (s'.pc u) = f (s.pc u) := by
  by_cases hu : u = t
  · rw [hu, hsame]
  · exact (hothers u hu).same hf

/-- A step that changes neither the holder of the lock nor the bytes of anybody. -/
theorem StreamInv.moves (h : StreamInv s) (hlock : Locked s') (hholder : s'.lock = s.lock)
    (hpipe : s'.pipe.data = s.pipe.data ∧ s'.pipe.nread = s.pipe.nread ∧
      s'.pipe.nwrite = s.pipe.nwrite) (hlogs : s'.stored = s.stored ∧ s'.replies = s.replies)
    (hown : (s'.pc t).put = (s.pc t).put ∧ (s'.pc t).bytes = (s.pc t).bytes)
    (hothers : ∀ u, u ≠ t → Moved (s.pc u) (s'.pc u)) : StreamInv s' := by
  have hbytes := same_of_others (fun _ => rfl) hown.2 hothers
  refine h.quiet hlock ⟨hpipe, hlogs.1, hlogs.2, same_of_others (fun _ => rfl) hown.1 hothers, ?_⟩
  simp only [State.inHand, hholder, hbytes]

/-! ## Putting and taking -/

theorem dvd_pow : PIPESIZE ∣ 2 ^ 32 := ⟨2 ^ 23, by decide⟩

namespace Pipe
variable {p : Pipe} {n : ℕ}

/-- The upper counter in terms of the lower one. -/
theorem nwrite_eq (p : Pipe) : p.nwrite = p.nread + .ofNat 32 p.count := by
  rw [count, BitVec.ofNat_toNat, BitVec.setWidth_eq, BitVec.add_comm, BitVec.sub_add_cancel]

theorem count_eq (h : p.nwrite = p.nread + .ofNat 32 n) (hn : n < 2 ^ 32) : p.count = n := by
  rw [count, h, BitVec.add_comm, BitVec.add_sub_cancel, BitVec.toNat_ofNat, Nat.mod_eq_of_lt hn]

theorem full_iff (p : Pipe) : p.nwrite = p.nread + .ofNat 32 PIPESIZE ↔ p.count = PIPESIZE := by
  refine ⟨fun h => count_eq h (by decide), fun h => ?_⟩
  rw [← h]
  exact p.nwrite_eq

theorem empty_iff (p : Pipe) : p.nread = p.nwrite ↔ p.count = 0 := by
  constructor
  · intro h
    rw [count, h, BitVec.sub_self]
    rfl
  · intro h
    rw [p.nwrite_eq, h]
    exact (BitVec.add_zero _).symm

theorem count_put {b : Byte} (h : p.count < PIPESIZE) : (p.put b).count = p.count + 1 := by
  have hsize : PIPESIZE = 512 := rfl
  refine count_eq ?_ (by omega)
  show p.nwrite + 1 = p.nread + _
  rw [← Ring.add_succ, ← p.nwrite_eq]

/-- A byte is stored behind what the pipe holds. -/
theorem queued_put {b : Byte} (h : p.count < PIPESIZE) : (p.put b).queued = p.queued ++ [b] := by
  have hpush := Ring.contents_push p.data p.nread b dvd_pow h
  rw [← p.nwrite_eq] at hpush
  rw [queued, count_put h]
  exact hpush

theorem count_take (h : p.nread ≠ p.nwrite) : p.take.2.count + 1 = p.count := by
  obtain ⟨n, hn⟩ := Nat.exists_eq_succ_of_ne_zero fun h0 => h (p.empty_iff.mpr h0)
  have hlt : p.count < 2 ^ 32 := (p.nwrite - p.nread).isLt
  rw [hn, count_eq (n := n) ?_ (by omega)]
  show p.nwrite = p.nread + 1 + _
  rw [Ring.succ_add, p.nwrite_eq, hn]

/-- The first byte of what the pipe holds is taken. -/
theorem queued_take (h : p.nread ≠ p.nwrite) : p.queued = p.take.1 :: p.take.2.queued := by
  rw [queued, ← count_take h, Ring.contents_cons]
  rfl

end Pipe

theorem putBy_concat_self {l : List (T × Reply)} {r : Reply} :
    putBy t (l ++ [(t, r)]) = putBy t l ++ r.put := by
  rw [putBy, ofProc_concat_self, List.flatMap_append, List.flatMap_singleton, ← putBy]

theorem putBy_concat_of_ne {l : List (T × Reply)} {r : Reply} (h : u ≠ t) :
    putBy u (l ++ [(t, r)]) = putBy u l := by
  rw [putBy, ofProc_concat_of_ne h, ← putBy]

/-! ## The invariant -/

theorem StreamInv.put {addr : ℕ → Byte} {n : ℤ} {i : ℕ} (h : StreamInv s)
    (hpc : s.pc t = .run (.write addr n i))
    (hroom : s.pipe.nwrite ≠ s.pipe.nread + .ofNat 32 PIPESIZE)
    (hs : s' = { s.goto t (.run (.write addr n (i + 1))) with
      pipe := s.pipe.put (addr i), stored := s.stored ++ [(t, addr i)] }) (hlock : Locked s') :
    StreamInv s' := by
  have hlt : s.pipe.count < PIPESIZE :=
    Nat.lt_of_le_of_ne h.room fun heq => hroom (s.pipe.full_iff.mpr heq)
  have hhand : s.inHand = [] := by
    rw [h.lock.inHand (t := t) (by simp [hpc, Pc.inside]), hpc]
    rfl
  have hhand' : s'.inHand = [] := by
    have hpc' : s'.pc t = .run (.write addr n (i + 1)) := by rw [hs]; exact goto_self
    rw [hlock.inHand (t := t) (by simp [hpc', Pc.inside]), hpc']
    rfl
  have horder := h.order
  rw [hhand, List.append_nil] at horder
  refine ⟨hlock, ?_, ?_, fun u => ?_⟩
  · rw [hs]
    exact Nat.le_trans (Nat.le_of_eq (Pipe.count_put hlt)) hlt
  · rw [hhand', List.append_nil, hs]
    show (s.stored ++ [(t, addr i)]).map Prod.snd =
      s.replies.flatMap (fun x => x.2.bytes) ++ (s.pipe.put (addr i)).queued
    rw [Pipe.queued_put hlt, List.map_append, horder, List.append_assoc]
    rfl
  · rw [hs]
    show ofProc u (s.stored ++ [(t, addr i)]) = putBy u s.replies ++ ((s.goto t _).pc u).put
    by_cases hu : u = t
    · subst hu
      rw [goto_self, ofProc_concat_self, h.writer, hpc, List.append_assoc]
      show putBy u s.replies ++ ((List.range i).map addr ++ [addr i]) =
        putBy u s.replies ++ (List.range (i + 1)).map addr
      rw [List.range_succ, List.map_append, List.map_singleton]
    · rw [goto_of_ne hu, ofProc_concat_of_ne hu, h.writer u]

theorem StreamInv.take {n : ℤ} {bytes : List Byte} (h : StreamInv s) (hpc : s.pc t = .copy n bytes)
    (hsome : s.pipe.nread ≠ s.pipe.nwrite)
    (hs : s' = { s.goto t (.copy n (bytes ++ [s.pipe.take.1])) with pipe := s.pipe.take.2 })
    (hlock : Locked s') : StreamInv s' := by
  have hpc' : s'.pc t = .copy n (bytes ++ [s.pipe.take.1]) := by rw [hs]; exact goto_self
  have hhand : s.inHand = bytes := by
    rw [h.lock.inHand (t := t) (by simp [hpc, Pc.inside]), hpc]
    rfl
  have hhand' : s'.inHand = bytes ++ [s.pipe.take.1] := by
    rw [hlock.inHand (t := t) (by simp [hpc', Pc.inside]), hpc']
    rfl
  refine ⟨hlock, ?_, ?_, fun u => ?_⟩
  · rw [hs]
    exact Nat.le_trans (Nat.le_of_succ_le (Nat.le_of_eq (Pipe.count_take hsome))) h.room
  · have horder := h.order
    rw [hhand, Pipe.queued_take hsome, List.append_assoc] at horder
    rw [hhand', hs, List.append_assoc, List.append_assoc]
    exact horder
  · have hput : (s'.pc u).put = (s.pc u).put := by
      refine same_of_others (t := t) (fun _ => rfl) (by rw [hpc, hpc']; rfl) (fun v hv => ?_) u
      rw [hs]
      exact moved_goto hv
    rw [hput, hs]
    exact h.writer u

theorem StreamInv.leave {r : Reply} (h : StreamInv s) (hpc : s.pc t = .leave r)
    (hlock : Locked (leave s t r)) : StreamInv (leave s t r) := by
  have hhand : s.inHand = r.bytes := by
    rw [h.lock.inHand (t := t) (by simp [hpc, Pc.inside]), hpc]
    rfl
  refine ⟨hlock, h.room, ?_, fun u => ?_⟩
  · have horder := h.order
    rw [hhand] at horder
    show s.stored.map Prod.snd =
      (s.replies ++ [(t, r)]).flatMap (fun x => x.2.bytes) ++ [] ++ s.pipe.queued
    rw [horder, List.flatMap_append, List.flatMap_singleton, List.append_nil]
  · show ofProc u s.stored = putBy u (s.replies ++ [(t, r)]) ++ ((s.goto t _).pc u).put
    by_cases hu : u = t
    · subst hu
      rw [goto_self, putBy_concat_self, h.writer, hpc]
      split <;> exact (List.append_nil _).symm
    · rw [goto_of_ne hu, putBy_concat_of_ne hu, h.writer u]

theorem Goes.stream (hgo : Goes s t s') (h : StreamInv s) : StreamInv s' := by
  have hothers : ∀ u, u ≠ t → Moved (s.pc u) (s'.pc u) := fun u hu => hgo.others hu
  have hlock := hgo.locked h.lock
  cases hgo with
  | store addr n i hpc hn hroom => exact h.put hpc hroom rfl hlock
  | take n bytes hpc hn hsome => exact h.take hpc hsome rfl hlock
  | leave r hpc => exact h.leave hpc hlock
  | acquire c hpc hnone =>
      have hput : (s.pc t).put = c.put := by rcases hpc with hpc | hpc <;> rw [hpc] <;> rfl
      refine h.quiet hlock ⟨⟨rfl, rfl, rfl⟩, rfl, rfl, same_of_others (fun _ => rfl) ?_ hothers, ?_⟩
      · rw [hput]
        simp [Pc.put]
      · show ((s.goto t _).pc t).bytes = _
        rw [goto_self, State.inHand, hnone]
        rfl
  | doze c hpc =>
      refine h.quiet hlock ⟨⟨rfl, rfl, rfl⟩, rfl, rfl, same_of_others (fun _ => rfl) ?_ hothers, ?_⟩
      · simp [hpc, Pc.put]
      · rw [h.lock.inHand (t := t) (by simp [hpc, Pc.inside]), hpc]
        rfl
  | close writable hpc =>
      refine h.moves (t := t) hlock rfl ?_ ⟨rfl, rfl⟩ ?_ hothers
      · cases writable <;> exact ⟨rfl, rfl, rfl⟩
      · simp only [pipeclose, goto_self, hpc]
        exact ⟨rfl, rfl⟩
  | _ =>
      refine h.moves (t := t) hlock rfl ⟨rfl, rfl, rfl⟩ ⟨rfl, rfl⟩ ?_ hothers
      simp_all only [goto_self, Pc.put, Pc.bytes, Call.put, Reply.put, Reply.bytes,
        Option.getD_none, Option.getD_some, and_self]

theorem step_stream {a : Event T} (h : StreamInv s) (hs : step s a = some s') : StreamInv s' := by
  have hlock := step_locked h.lock hs
  cases a with
  | call t c =>
      obtain ⟨hpc, hfresh, rfl⟩ := step_call hs
      refine h.moves (t := t) hlock rfl ⟨rfl, rfl, rfl⟩ ⟨rfl, rfl⟩ ?_ fun u hu => moved_goto hu
      rw [goto_self, hpc]
      refine ⟨?_, rfl⟩
      cases c with
      | write addr n i =>
          obtain rfl : i = 0 := of_decide_eq_true hfresh
          rfl
      | _ => rfl
  | go t => exact (goes_of_go hs).stream h
  | kill t =>
      obtain rfl := Option.some.inj hs
      have hmoved := moved_kill s t
      exact h.moves (t := t) hlock rfl ⟨rfl, rfl, rfl⟩ ⟨rfl, rfl⟩
        ⟨(hmoved t).same fun _ => rfl, (hmoved t).same fun _ => rfl⟩ fun u _ => hmoved u

/-! ## How much is stored and read -/

/-- A write that is complete has stored `n` bytes, and no call goes beyond `n`. -/
def Reply.Fits : Reply → Prop
  | .write _ n i ok => i ≤ n.toNat ∧ (ok = true → i = n.toNat)
  | .read n bytes => ∀ b ∈ bytes, b.length ≤ n.toNat
  | .close _ => True

def Call.Fits : Call → Prop
  | .write _ n i => i ≤ n.toNat
  | _ => True

def Pc.Fits : Pc → Prop
  | .enter c | .run c | .wake c | .doze c | .asleep c | .woken c => c.Fits
  | .copy n bytes => bytes.length ≤ n.toNat
  | .finish r | .leave r => r.Fits
  | .out | .free => True

structure FitsInv (s : State T) : Prop where
  pc : ∀ t, (s.pc t).Fits
  replies : ∀ x ∈ s.replies, x.2.Fits

theorem FitsInv.moves (h : FitsInv s) (hreplies : s'.replies = s.replies) (hown : (s'.pc t).Fits)
    (hothers : ∀ u, u ≠ t → Moved (s.pc u) (s'.pc u)) : FitsInv s' where
  pc u := by
    by_cases hu : u = t
    · exact hu ▸ hown
    · exact ((hothers u hu).same (f := Pc.Fits) fun _ => rfl) ▸ h.pc u
  replies := hreplies ▸ h.replies

theorem fits_goto (h : pc.Fits) : ((s.goto t pc).pc t).Fits := by
  rw [goto_self]
  exact h

theorem Goes.fits (hgo : Goes s t s') (h : FitsInv s) : FitsInv s' := by
  have hothers : ∀ u, u ≠ t → Moved (s.pc u) (s'.pc u) := fun u hu => hgo.others hu
  have hpc' := h.pc t
  cases hgo with
  | leave r hpc =>
      rw [hpc] at hpc'
      refine ⟨fun u => ?_, ?_⟩
      · show ((s.goto t _).pc u).Fits
        by_cases hu : u = t
        · subst hu
          rw [goto_self]
          split <;> trivial
        · rw [goto_of_ne hu]
          exact h.pc u
      · intro x hx
        rcases List.mem_append.mp hx with hx | hx
        · exact h.replies x hx
        · rw [List.mem_singleton.mp hx]
          exact hpc'
  | acquire c hpc hnone =>
      refine h.moves (t := t) rfl ?_ hothers
      apply fits_goto
      rcases hpc with hpc | hpc <;> rw [hpc] at hpc' <;> exact hpc'
  | filled addr n i hpc hn =>
      rw [hpc] at hpc'
      refine h.moves (t := t) rfl (fits_goto ⟨hpc', fun _ => ?_⟩) hothers
      exact Nat.le_antisymm hpc' (by omega)
  | refused addr n i hpc hfull hend =>
      rw [hpc] at hpc'
      exact h.moves (t := t) rfl (fits_goto ⟨hpc', fun h => by cases h⟩) hothers
  | store addr n i hpc hn hroom =>
      refine h.moves (t := t) rfl ?_ hothers
      apply fits_goto
      show i + 1 ≤ n.toNat
      omega
  | take n bytes hpc hn hsome =>
      refine h.moves (t := t) rfl ?_ hothers
      apply fits_goto
      show (bytes ++ [_]).length ≤ n.toNat
      rw [List.length_append, List.length_singleton]
      omega
  | taken n bytes hpc hend =>
      rw [hpc] at hpc'
      refine h.moves (t := t) rfl (fits_goto ?_) hothers
      rintro b ⟨⟩
      exact hpc'
  | ready n hpc hready => exact h.moves (t := t) rfl (fits_goto (Nat.zero_le _)) hothers
  | interrupted n hpc hkilled => exact h.moves (t := t) rfl (fits_goto (by rintro b ⟨⟩)) hothers
  | close writable hpc =>
      refine h.moves (t := t) rfl ?_ hothers
      apply fits_goto
      trivial
  | doze c hpc =>
      rw [hpc] at hpc'
      refine h.moves (t := t) rfl ?_ hothers
      apply fits_goto
      exact hpc'
  | free hpc =>
      refine h.moves (t := t) rfl ?_ hothers
      apply fits_goto
      trivial
  | full addr n i hpc hfull hopen =>
      rw [hpc] at hpc'
      exact h.moves (t := t) rfl (fits_goto hpc') hothers
  | empty n hpc hempty hopen => exact h.moves (t := t) rfl (fits_goto trivial) hothers
  | wake c hpc | finish r hpc =>
      rw [hpc] at hpc'
      exact h.moves (t := t) rfl (fits_goto hpc') hothers

theorem step_fits {a : Event T} (h : FitsInv s) (hs : step s a = some s') : FitsInv s' := by
  cases a with
  | call t c =>
      obtain ⟨hpc, hfresh, rfl⟩ := step_call hs
      refine h.moves (t := t) rfl (fits_goto ?_) fun u hu => moved_goto hu
      cases c with
      | write addr n i =>
          obtain rfl : i = 0 := of_decide_eq_true hfresh
          exact Nat.zero_le _
      | _ => trivial
  | go t => exact (goes_of_go hs).fits h
  | kill t =>
      obtain rfl := Option.some.inj hs
      have hmoved := moved_kill s t
      exact h.moves (t := t) rfl (((hmoved t).same (f := Pc.Fits) fun _ => rfl) ▸ h.pc t)
        fun u _ => hmoved u

/-! ## The stream -/

structure Stream (s : State T) : Prop where
  /-- The reads that have returned, the one that is going on, and what is left. -/
  order : s.stored.map Prod.snd =
    s.replies.flatMap (fun x => x.2.bytes) ++ s.inHand ++ s.pipe.queued
  room : s.pipe.queued.length ≤ PIPESIZE
  /-- What a process has stored: its writes that have returned, and the one that is going on. -/
  writer : ∀ t, ofProc t s.stored = putBy t s.replies ++ (s.pc t).put
  fits : ∀ x ∈ s.replies, x.2.Fits

omit [DecidableEq T] in
theorem count_pipealloc (page : ℕ → Byte) : (pipealloc page : State T).pipe.count = 0 := by
  show ((0 : BitVec 32) - 0).toNat = 0
  decide

theorem streamInv_pipealloc (page : ℕ → Byte) : StreamInv (pipealloc page : State T) where
  lock t := iff_of_false (fun h => by cases h) Bool.false_ne_true
  room := by
    rw [count_pipealloc]
    exact Nat.zero_le _
  order := by
    rw [Pipe.queued, count_pipealloc]
    rfl
  writer _ := rfl

theorem streamInv_of_run {ok : State T → Event T → Prop} {page : ℕ → Byte}
    (hrun : Run step ok (pipealloc page) s) : StreamInv s :=
  hrun.invariant (streamInv_pipealloc page) fun _ _ _ ht _ hs => step_stream ht hs

theorem stream_of_run {page : ℕ → Byte} (hrun : Run step (fun _ _ => True) (pipealloc page) s) :
    Stream s := by
  have hstream := streamInv_of_run hrun
  have hfits : FitsInv s := by
    refine hrun.invariant ⟨fun _ => trivial, fun x hx => ?_⟩ fun _ _ _ ht _ hs => step_fits ht hs
    cases hx
  refine ⟨hstream.order, ?_, hstream.writer, hfits.replies⟩
  rw [Pipe.queued, Ring.length_contents]
  exact hstream.room

/-- A reader goes to sleep, a writer stores three bytes and wakes it. -/
def sleepingReader : List (Event Bool) :=
  .call false (.read 2) :: List.replicate 3 (.go false) ++
    .call true (.write (fun i => .ofNat 8 i) 3 0) ::
    List.replicate 7 (.go true) ++ List.replicate 7 (.go false)

theorem sleepingReader_stream : ∃ s, play step sleepingReader (pipealloc fun _ => 0) = some s ∧
    s.replies.map (fun x => x.2.bytes) = [[], [0, 1]] ∧ s.pipe.queued = [2] ∧ Stream s := by
  have hplay : (play step sleepingReader (pipealloc fun _ => 0)).map
      (fun s => (s.replies.map (fun x => x.2.bytes), s.pipe.queued)) = some ([[], [0, 1]], [2]) := by
    decide +kernel
  obtain ⟨s, hs, hfacts⟩ := Option.map_eq_some_iff.mp hplay
  obtain ⟨hbytes, hqueued⟩ := Prod.mk.inj hfacts
  exact ⟨s, hs, hbytes, hqueued, stream_of_run (.of_play hs)⟩

end IntroToOS.Pipes

import IntroToOS.Lib.Mutex
import IntroToOS.Lib.Run
import IntroToOS.Lib.Tally
import IntroToOS.WebServer.Server

/-! # The hand-off of connections

`main` of the source sets `conn_fd` and `filled` of every slot, but not `issued`. The hand-off works
in every run exactly when `malloc` has left 0 there.
-/

namespace IntroToOS.WebServer
open Lib
set_option autoImplicit false

variable {n_buffers n_threads : ℕ}

def MainPc.inside : MainPc n_buffers → Bool
  | .check _ | .store .. | .signal | .unlock => true
  | .accept | .lock _ | .waiting _ | .relock _ => false

/-- The slot that `main` has claimed but not written. -/
def MainPc.storing : MainPc n_buffers → Option (Fin n_buffers)
  | .store _ i => some i
  | _ => none

def WorkerPc.inside : WorkerPc n_buffers → Bool
  | .check | .free .. | .signal _ | .unlock _ => true
  | .lock | .waiting | .relock | .handle _ => false

/-- The slot that a worker has read but not freed. -/
def WorkerPc.freeing : WorkerPc n_buffers → Option (Fin n_buffers)
  | .free i _ => some i
  | _ => none

/-- Between its `pthread_mutex_lock` and its unlock or wait. -/
def Server.inside (s : Server n_buffers n_threads) : Thread n_threads → Bool
  | .main => s.main.inside
  | .worker w => (s.worker w).inside

def isFilled (x : ConnInfo) : ℕ := if x.filled = 1 then 1 else 0

/-- A slot whose descriptor `d` can be taken. -/
def offers (d : ℤ) (x : ConnInfo) : ℕ :=
  if x.filled = 1 ∧ x.issued = 0 ∧ x.conn_fd = d then 1 else 0

def hasFd (d : ℤ) (x : ConnInfo) : ℕ := if x.conn_fd = d then 1 else 0

/-- The descriptor of the slot that is claimed but not written counts for nothing. -/
def stale (s : Server n_buffers n_threads) (d : ℤ) : ℕ :=
  s.main.storing.elim 0 fun i => hasFd d (s.buffer i)

structure Inv (s : Server n_buffers n_threads) : Prop where
  lock : Exclusive s.main_lock fun t => s.inside t = true
  flag : ∀ i, (s.buffer i).filled = 0 ∨ (s.buffer i).filled = 1
  issued : ∀ i, (s.buffer i).issued ≠ 0 → ∃ w, (s.worker w).freeing = some i
  free : ∀ w i, (s.worker w).freeing = some i →
    (s.buffer i).filled = 1 ∧ (s.buffer i).issued = 1
  store : ∀ i, s.main.storing = some i → (s.buffer i).filled = 1 ∧ (s.buffer i).issued = 0
  count : s.fill_count = tally isFilled s.buffer
  kept : ∀ d, s.stored.count d + stale s d =
    (s.returned.map Prod.snd).count d + tally (offers d) s.buffer
  running : s.exited = false

section
variable {s t : Server n_buffers n_threads} {w : Fin n_threads} {i : Fin n_buffers}
  {pc : WorkerPc n_buffers}

theorem storing_inside (h : s.main.storing = some i) : s.inside .main = true := by
  rw [Server.inside]
  cases hm : s.main with
  | store fd j => rfl
  | _ =>
      rw [hm] at h
      cases h

theorem freeing_inside (h : (s.worker w).freeing = some i) : s.inside (.worker w) = true := by
  rw [Server.inside]
  cases hw : s.worker w with
  | free j fd => rfl
  | _ =>
      rw [hw] at h
      cases h

theorem Inv.kept_idle (h : Inv s) (hmain : s.main.storing = none) (d : ℤ) :
    s.stored.count d = (s.returned.map Prod.snd).count d + tally (offers d) s.buffer := by
  have hkept := h.kept d
  rwa [stale, hmain] at hkept

theorem Inv.kept_storing (h : Inv s) (hmain : s.main.storing = some i) (d : ℤ) :
    s.stored.count d + hasFd d (s.buffer i) =
      (s.returned.map Prod.snd).count d + tally (offers d) s.buffer := by
  have hkept := h.kept d
  rwa [stale, hmain] at hkept

/-- Whoever has the lock has no slot of a worker to mind. -/
theorem Inv.not_issued (h : Inv s) (hin : s.inside .main = true ∨
    ∃ w, s.inside (.worker w) = true ∧ (s.worker w).freeing = none) :
    ∀ i, (s.buffer i).issued = 0 := by
  intro i
  by_contra hi
  obtain ⟨v, hv⟩ := h.issued i hi
  have hvin := freeing_inside hv
  rcases hin with hin | ⟨w, hin, hw⟩
  · cases h.lock.unique hin hvin
  · have hwv : Thread.worker w = .worker v := h.lock.unique hin hvin
    obtain rfl := Thread.worker.inj hwv
    rw [hw] at hv
    cases hv

/-- A step that only moves the threads. -/
theorem Inv.frame (h : Inv s) (hbuffer : t.buffer = s.buffer) (hcount : t.fill_count = s.fill_count)
    (hstored : t.stored = s.stored) (hreturned : t.returned = s.returned)
    (hexited : t.exited = s.exited) (hmain : t.main.storing = s.main.storing)
    (hworker : ∀ w, (t.worker w).freeing = (s.worker w).freeing)
    (hlock : Exclusive t.main_lock fun u => t.inside u = true) : Inv t where
  lock := hlock
  flag := hbuffer ▸ h.flag
  issued i hi := by
    rw [hbuffer] at hi
    obtain ⟨w, hw⟩ := h.issued i hi
    exact ⟨w, (hworker w).trans hw⟩
  free w i hw := by
    rw [hbuffer]
    exact h.free w i ((hworker w).symm.trans hw)
  store i hi := by
    rw [hbuffer]
    exact h.store i (hmain.symm.trans hi)
  count := by
    rw [hcount, hbuffer]
    exact h.count
  kept d := by
    have hstale : stale t d = stale s d := by rw [stale, hmain, hbuffer, stale]
    rw [hstored, hreturned, hbuffer, hstale]
    exact h.kept d
  running := hexited.trans h.running

theorem inside_worker (s : Server n_buffers n_threads) (w : Fin n_threads)
    (pc : WorkerPc n_buffers) : (s.setWorker w pc).inside (.worker w) = pc.inside := by
  rw [Server.inside, Server.setWorker_self]

theorem inside_of_ne {u : Thread n_threads} (hu : u ≠ .worker w) :
    (s.setWorker w pc).inside u = s.inside u := by
  cases u with
  | main => rfl
  | worker v =>
      have hv : v ≠ w := fun h => hu (h ▸ rfl)
      rw [Server.inside, Server.setWorker_of_ne hv, Server.inside]

theorem inside_setWorker (hpc : pc.inside = (s.worker w).inside) (u : Thread n_threads) :
    (s.setWorker w pc).inside u = s.inside u := by
  by_cases hu : u = .worker w
  · subst hu
    rw [inside_worker, hpc, Server.inside]
  · exact inside_of_ne hu

theorem freeing_setWorker (hpc : pc.freeing = (s.worker w).freeing) :
    ∀ v, ((s.setWorker w pc).worker v).freeing = (s.worker v).freeing :=
  apply_update_same (g := WorkerPc.freeing) hpc

/-- A worker that is not inside does something of its own. -/
theorem Inv.move (h : Inv s) (hw : (s.worker w).freeing = none) (hpc : pc.freeing = none)
    (hin : pc.inside = (s.worker w).inside) : Inv (s.setWorker w pc) :=
  h.frame rfl rfl rfl rfl rfl rfl (freeing_setWorker (hpc.trans hw.symm))
    (h.lock.keep fun u => by rw [inside_setWorker hin])

/-- A worker gets the lock. -/
theorem Inv.lockWorker (h : Inv s) (hlock : s.main_lock = none)
    (hw : (s.worker w).freeing = none) :
    Inv { s.setWorker w .check with main_lock := some (.worker w) } := by
  have hfree : Exclusive none fun u => s.inside u = true := hlock ▸ h.lock
  refine h.frame rfl rfl rfl rfl rfl rfl (freeing_setWorker hw.symm) (hfree.acquire ?_ ?_)
  · show (s.setWorker w .check).inside (.worker w) = true
    rw [inside_worker]
    rfl
  · intro u hu
    show (s.setWorker w .check).inside u = true ↔ _
    rw [inside_of_ne hu]

/-- A worker gives the lock up, to wait or to handle its connection. -/
theorem Inv.unlockWorker (h : Inv s) (hw : (s.worker w).freeing = none)
    (hin : (s.worker w).inside = true) (hpc : pc.freeing = none) (hout : pc.inside = false) :
    Inv { s.setWorker w pc with main_lock := none } := by
  refine h.frame rfl rfl rfl rfl rfl rfl (freeing_setWorker (hpc.trans hw.symm))
    (h.lock.release (t := .worker w) hin ?_ ?_)
  · show ¬ (s.setWorker w pc).inside (.worker w) = true
    rw [inside_worker, hout]
    decide
  · intro u hu
    show (s.setWorker w pc).inside u = true ↔ _
    rw [inside_of_ne hu]

/-- The moves of `main` that touch no slot. -/
theorem Inv.moveMain {pc : MainPc n_buffers} {lock : Option (Thread n_threads)} (h : Inv s)
    (hs : s.main.storing = none) (hpc : pc.storing = none)
    (hlock : Exclusive lock fun u => ({ s with main := pc } : Server n_buffers n_threads).inside u =
      true) : Inv { s with main := pc, main_lock := lock } :=
  h.frame rfl rfl rfl rfl rfl (hpc.trans hs.symm) (fun _ => rfl) <| hlock.keep fun u => by
    cases u <;> exact Iff.rfl

theorem inside_main_of_ne {pc : MainPc n_buffers} {u : Thread n_threads} (hu : u ≠ .main) :
    ({ s with main := pc } : Server n_buffers n_threads).inside u = s.inside u := by
  cases u with
  | main => exact absurd rfl hu
  | worker v => rfl

theorem Inv.keepMain {pc : MainPc n_buffers} (h : Inv s) (hs : s.main.storing = none)
    (hpc : pc.storing = none) (hin : pc.inside = s.main.inside) : Inv { s with main := pc } := by
  refine h.moveMain hs hpc (h.lock.keep fun u => ?_)
  by_cases hu : u = .main
  · subst hu
    show pc.inside = true ↔ _
    rw [hin, Server.inside]
  · rw [inside_main_of_ne hu]

theorem Inv.lockMain {pc : MainPc n_buffers} (h : Inv s) (hlock : s.main_lock = none)
    (hs : s.main.storing = none) (hpc : pc.storing = none) (hin : pc.inside = true) :
    Inv { s with main := pc, main_lock := some .main } := by
  have hfree : Exclusive none fun u => s.inside u = true := hlock ▸ h.lock
  exact h.moveMain hs hpc (hfree.acquire hin fun u hu => by rw [inside_main_of_ne hu])

theorem Inv.unlockMain {pc : MainPc n_buffers} (h : Inv s) (hin : s.main.inside = true)
    (hs : s.main.storing = none) (hpc : pc.storing = none) (hout : pc.inside = false) :
    Inv { s with main := pc, main_lock := none } := by
  refine h.moveMain hs hpc (h.lock.release (t := .main) hin ?_ fun u hu => by
    rw [inside_main_of_ne hu])
  show ¬ pc.inside = true
  rw [hout]
  decide

/-! ## Slots -/

theorem put_buffer_eq_some (h : put_buffer s = (t, some i)) : (s.buffer i).filled = 0 ∧
    t = { s.setSlot i ((s.buffer i).setFilled 1) with fill_count := s.fill_count + 1 } := by
  unfold put_buffer at h
  split at h
  · cases h
  · next j hj =>
    obtain ⟨rfl, hi⟩ := Prod.mk.inj h
    obtain rfl := Option.some.inj hi
    exact ⟨by simpa using List.find?_some hj, rfl⟩

theorem put_buffer_eq_none (h : put_buffer s = (t, none)) (i : Fin n_buffers) :
    (s.buffer i).filled ≠ 0 := by
  unfold put_buffer at h
  split at h
  · next hnone => simpa using List.find?_eq_none.mp hnone i (List.mem_finRange i)
  · cases h

theorem get_buffer_eq_some (h : get_buffer s = (t, some i)) :
    (s.buffer i).filled = 1 ∧ (s.buffer i).issued = 0 ∧
      t = s.setSlot i ((s.buffer i).setIssued 1) := by
  unfold get_buffer at h
  split at h
  · cases h
  · next j hj =>
    obtain ⟨rfl, hi⟩ := Prod.mk.inj h
    obtain rfl := Option.some.inj hi
    have hfound := List.find?_some hj
    simp only [decide_eq_true_eq] at hfound
    exact ⟨hfound.1, hfound.2, rfl⟩

theorem get_buffer_eq_none (h : get_buffer s = (t, none)) (i : Fin n_buffers) :
    (s.buffer i).filled = 1 → (s.buffer i).issued ≠ 0 := by
  unfold get_buffer at h
  split at h
  · next hnone => simpa using List.find?_eq_none.mp hnone i (List.mem_finRange i)
  · cases h

/-- While a slot is free `put_buffer` finds one, and no slot is lost when it is full. -/
theorem Inv.put_finds (h : Inv s) (hroom : s.fill_count ≠ n_buffers) : put_buffer s ≠ (t, none) := by
  intro hput
  refine hroom ?_
  have hall : ∀ i, isFilled (s.buffer i) = 1 := fun i =>
    if_pos ((h.flag i).resolve_left (put_buffer_eq_none hput i))
  rw [h.count, tally_eq_card hall, Fintype.card_fin]

theorem Inv.get_finds (h : Inv s) (hin : s.inside (.worker w) = true)
    (hw : (s.worker w).freeing = none) (hfill : s.fill_count ≠ 0) :
    get_buffer s ≠ (t, none) := by
  intro hget
  have hpos : 0 < tally isFilled s.buffer := by
    have := h.count
    omega
  obtain ⟨i, hi⟩ := exists_of_tally_pos hpos
  have hfilled : (s.buffer i).filled = 1 := by
    by_contra hno
    rw [isFilled, if_neg hno] at hi
    exact Nat.lt_irrefl 0 hi
  exact get_buffer_eq_none hget i hfilled (h.not_issued (.inr ⟨w, hin, hw⟩) i)

/-- What holds of the other slots and of the new content of slot `i` holds of every slot. -/
theorem forall_slot {P : Fin n_buffers → ConnInfo → Prop} {x : ConnInfo}
    (h : ∀ j, j ≠ i → P j (s.buffer j)) (hx : P i x) (j : Fin n_buffers) :
    P j (Function.update s.buffer i x j) := by
  by_cases hj : j = i
  · subst hj
    rw [Function.update_self]
    exact hx
  · rw [Function.update_of_ne hj]
    exact h j hj

/-- `main` claims a slot. -/
theorem Inv.claim {connfd : ℤ} (h : Inv s) (hmain : s.main = .check connfd)
    (hi : (s.buffer i).filled = 0)
    (hbuffer : t.buffer = Function.update s.buffer i ((s.buffer i).setFilled 1))
    (hcount : t.fill_count = s.fill_count + 1) (hpc : t.main = .store connfd i)
    (hlock : t.main_lock = s.main_lock) (hworker : t.worker = s.worker)
    (hstored : t.stored = s.stored) (hreturned : t.returned = s.returned)
    (hexited : t.exited = s.exited) : Inv t where
  lock := by
    rw [hlock]
    refine h.lock.keep fun u => ?_
    cases u with
    | main => rw [Server.inside, hpc, Server.inside, hmain, MainPc.inside, MainPc.inside]
    | worker v => rw [Server.inside, hworker, Server.inside]
  flag := by
    rw [hbuffer]
    exact forall_slot (P := fun _ x => x.filled = 0 ∨ x.filled = 1) (fun j _ => h.flag j) (.inr rfl)
  issued := by
    rw [hbuffer, hworker]
    exact forall_slot (P := fun j x => x.issued ≠ 0 → ∃ w, (s.worker w).freeing = some j)
      (fun j _ => h.issued j) (h.issued i)
  free v j hv := by
    rw [hworker] at hv
    have hj := h.free v j hv
    have hji : j ≠ i := by
      rintro rfl
      rw [hi] at hj
      cases hj.1
    rw [hbuffer, Function.update_of_ne hji]
    exact hj
  store j hj := by
    rw [hpc] at hj
    obtain rfl : i = j := Option.some.inj hj
    rw [hbuffer, Function.update_self]
    exact ⟨rfl, h.not_issued (.inl (by rw [Server.inside, hmain]; rfl)) i⟩
  count := by
    have hset := tally_update isFilled s.buffer i ((s.buffer i).setFilled 1)
    have hnew : isFilled ((s.buffer i).setFilled 1) = 1 := rfl
    have hold : isFilled (s.buffer i) = 0 := by simp [isFilled, hi]
    have := h.count
    rw [hcount, hbuffer]
    omega
  kept d := by
    have hissued := h.not_issued (.inl (by rw [Server.inside, hmain]; rfl)) i
    have hset := tally_update (offers d) s.buffer i ((s.buffer i).setFilled 1)
    have hnew : offers d ((s.buffer i).setFilled 1) = hasFd d (s.buffer i) := by
      simp [offers, hasFd, ConnInfo.setFilled, hissued]
    have hold : offers d (s.buffer i) = 0 := by simp [offers, hi]
    have hkept := h.kept_idle (by rw [hmain]; rfl) d
    have hstale : stale t d = hasFd d (s.buffer i) := by
      rw [stale, hpc, hbuffer]
      show hasFd d (Function.update s.buffer i _ i) = _
      rw [Function.update_self]
      rfl
    rw [hstale, hstored, hreturned, hbuffer]
    omega
  running := hexited.trans h.running

/-- `main` writes the descriptor of the slot that it has claimed. -/
theorem Inv.write {connfd : ℤ} (h : Inv s) (hmain : s.main = .store connfd i)
    (hbuffer : t.buffer = Function.update s.buffer i ((s.buffer i).setFd connfd))
    (hcount : t.fill_count = s.fill_count) (hpc : t.main = .signal)
    (hlock : t.main_lock = s.main_lock) (hworker : t.worker = s.worker)
    (hstored : t.stored = s.stored ++ [connfd]) (hreturned : t.returned = s.returned)
    (hexited : t.exited = s.exited) : Inv t where
  lock := by
    rw [hlock]
    refine h.lock.keep fun u => ?_
    cases u with
    | main => rw [Server.inside, hpc, Server.inside, hmain, MainPc.inside, MainPc.inside]
    | worker v => rw [Server.inside, hworker, Server.inside]
  flag := by
    rw [hbuffer]
    exact forall_slot (P := fun _ x => x.filled = 0 ∨ x.filled = 1) (fun j _ => h.flag j) (h.flag i)
  issued := by
    rw [hbuffer, hworker]
    exact forall_slot (P := fun j x => x.issued ≠ 0 → ∃ w, (s.worker w).freeing = some j)
      (fun j _ => h.issued j) (h.issued i)
  free v := by
    rw [hbuffer, hworker]
    exact forall_slot (P := fun j x => (s.worker v).freeing = some j → x.filled = 1 ∧ x.issued = 1)
      (fun j _ => h.free v j) (h.free v i)
  store j hj := by
    rw [hpc] at hj
    cases hj
  count := by
    have hsame : tally isFilled (Function.update s.buffer i ((s.buffer i).setFd connfd)) =
        tally isFilled s.buffer := tally_update_of_eq rfl
    rw [hcount, hbuffer, hsame]
    exact h.count
  kept d := by
    obtain ⟨hfilled, hissued⟩ := h.store i (by rw [hmain]; rfl)
    have hset := tally_update (offers d) s.buffer i ((s.buffer i).setFd connfd)
    have hnew : offers d ((s.buffer i).setFd connfd) = [connfd].count d := by
      simp [offers, ConnInfo.setFd, hfilled, hissued, List.count_singleton]
    have hold : offers d (s.buffer i) = hasFd d (s.buffer i) := by
      simp [offers, hasFd, hfilled, hissued]
    have hkept := h.kept_storing (by rw [hmain]; rfl) d
    have hstale : stale t d = 0 := by
      rw [stale, hpc]
      rfl
    rw [hstale, hstored, hreturned, hbuffer, List.count_append]
    omega
  running := hexited.trans h.running

theorem Inv.idle_of_check (h : Inv s) (hw : s.worker w = .check) : s.main.storing = none ∧
    ∀ v, (s.worker v).freeing = none := by
  have hin : s.inside (.worker w) = true := by
    rw [Server.inside, hw]
    rfl
  constructor
  · by_contra hno
    obtain ⟨k, hk⟩ := Option.ne_none_iff_exists'.mp hno
    cases h.lock.unique (storing_inside hk) hin
  · intro v
    by_contra hno
    obtain ⟨k, hk⟩ := Option.ne_none_iff_exists'.mp hno
    obtain rfl := Thread.worker.inj (h.lock.unique (freeing_inside hk) hin)
    rw [hw] at hk
    cases hk

/-- A worker takes the descriptor of a slot. -/
theorem Inv.issue {connfd : ℤ} (h : Inv s) (hw : s.worker w = .check)
    (hfilled : (s.buffer i).filled = 1) (hfd : (s.buffer i).conn_fd = connfd)
    (hbuffer : t.buffer = Function.update s.buffer i ((s.buffer i).setIssued 1))
    (hcount : t.fill_count = s.fill_count) (hpc : t.main = s.main)
    (hlock : t.main_lock = s.main_lock)
    (hworker : t.worker = Function.update s.worker w (.free i connfd))
    (hstored : t.stored = s.stored) (hreturned : t.returned = s.returned ++ [(w, connfd)])
    (hexited : t.exited = s.exited) : Inv t := by
  obtain ⟨hidle, hfree⟩ := h.idle_of_check hw
  have hin : s.inside (.worker w) = true := by
    rw [Server.inside, hw]
    rfl
  have hissued := h.not_issued (.inr ⟨w, hin, hfree w⟩)
  have hself : t.worker w = .free i connfd := by rw [hworker, Function.update_self]
  refine ⟨?_, ?_, fun j hj => ?_, fun v j hv => ?_, fun j hj => ?_, ?_, fun d => ?_,
    hexited.trans h.running⟩
  · rw [hlock]
    refine h.lock.keep fun u => ?_
    cases u with
    | main => rw [Server.inside, hpc, Server.inside]
    | worker v =>
        by_cases hv : v = w
        · subst hv
          rw [Server.inside, hself, hin, WorkerPc.inside]
        · rw [Server.inside, hworker, Function.update_of_ne hv, Server.inside]
  · rw [hbuffer]
    exact forall_slot (P := fun _ x => x.filled = 0 ∨ x.filled = 1) (fun j _ => h.flag j) (h.flag i)
  · by_cases hji : j = i
    · exact ⟨w, by rw [hself, hji]; rfl⟩
    · rw [hbuffer, Function.update_of_ne hji] at hj
      exact absurd (hissued j) hj
  · by_cases hvw : v = w
    · rw [hvw, hself] at hv
      obtain rfl : i = j := Option.some.inj hv
      rw [hbuffer, Function.update_self]
      exact ⟨hfilled, rfl⟩
    · rw [hworker, Function.update_of_ne hvw, hfree v] at hv
      cases hv
  · rw [hpc, hidle] at hj
    cases hj
  · have hsame : tally isFilled (Function.update s.buffer i ((s.buffer i).setIssued 1)) =
        tally isFilled s.buffer := tally_update_of_eq rfl
    rw [hcount, hbuffer, hsame]
    exact h.count
  · have hset := tally_update (offers d) s.buffer i ((s.buffer i).setIssued 1)
    have hnew : offers d ((s.buffer i).setIssued 1) = 0 := by simp [offers, ConnInfo.setIssued]
    have hold : offers d (s.buffer i) = [connfd].count d := by
      simp [offers, hfilled, hissued i, hfd, List.count_singleton]
    have hkept := h.kept_idle hidle d
    have hstale : stale t d = 0 := by
      rw [stale, hpc, hidle]
      rfl
    rw [hstale, hstored, hreturned, hbuffer, List.map_append, List.count_append]
    show _ = _ + [connfd].count d + _
    omega

/-- The worker frees the slot that it has taken. -/
theorem Inv.release {connfd : ℤ} (h : Inv s) (hw : s.worker w = .free i connfd)
    (hbuffer : t.buffer = Function.update s.buffer i (((s.buffer i).setIssued 0).setFilled 0))
    (hcount : t.fill_count = s.fill_count - 1) (hpc : t.main = s.main)
    (hlock : t.main_lock = s.main_lock)
    (hworker : t.worker = Function.update s.worker w (.signal connfd))
    (hstored : t.stored = s.stored) (hreturned : t.returned = s.returned)
    (hexited : t.exited = s.exited) : Inv t := by
  have hfreeing : (s.worker w).freeing = some i := by rw [hw]; rfl
  have hin := freeing_inside hfreeing
  obtain ⟨hfilled, hissued⟩ := h.free w i hfreeing
  have hself : t.worker w = .signal connfd := by rw [hworker, Function.update_self]
  have hidle : s.main.storing = none := by
    by_contra hno
    obtain ⟨k, hk⟩ := Option.ne_none_iff_exists'.mp hno
    cases h.lock.unique (storing_inside hk) hin
  have honly : ∀ v k, (s.worker v).freeing = some k → v = w := fun v k hv =>
    Thread.worker.inj (h.lock.unique (freeing_inside hv) hin)
  refine ⟨?_, ?_, fun j hj => ?_, fun v j hv => ?_, fun j hj => ?_, ?_, fun d => ?_,
    hexited.trans h.running⟩
  · rw [hlock]
    refine h.lock.keep fun u => ?_
    cases u with
    | main => rw [Server.inside, hpc, Server.inside]
    | worker v =>
        by_cases hv : v = w
        · subst hv
          rw [Server.inside, hself, hin, WorkerPc.inside]
        · rw [Server.inside, hworker, Function.update_of_ne hv, Server.inside]
  · rw [hbuffer]
    exact forall_slot (P := fun _ x => x.filled = 0 ∨ x.filled = 1) (fun j _ => h.flag j) (.inl rfl)
  · by_cases hji : j = i
    · rw [hbuffer, hji, Function.update_self] at hj
      exact absurd rfl hj
    · rw [hbuffer, Function.update_of_ne hji] at hj
      obtain ⟨v, hv⟩ := h.issued j hj
      rw [honly v j hv, hfreeing] at hv
      exact absurd (Option.some.inj hv).symm hji
  · by_cases hvw : v = w
    · rw [hvw, hself] at hv
      cases hv
    · rw [hworker, Function.update_of_ne hvw] at hv
      exact absurd (honly v j hv) hvw
  · rw [hpc, hidle] at hj
    cases hj
  · have hset := tally_update isFilled s.buffer i (((s.buffer i).setIssued 0).setFilled 0)
    have hnew : isFilled (((s.buffer i).setIssued 0).setFilled 0) = 0 := rfl
    have hold : isFilled (s.buffer i) = 1 := if_pos hfilled
    have := h.count
    rw [hcount, hbuffer]
    omega
  · have hset := tally_update (offers d) s.buffer i (((s.buffer i).setIssued 0).setFilled 0)
    have hnew : offers d (((s.buffer i).setIssued 0).setFilled 0) = 0 := by
      simp [offers, ConnInfo.setFilled]
    have hold : offers d (s.buffer i) = 0 := by simp [offers, hissued]
    have hkept := h.kept_idle hidle d
    have hstale : stale t d = 0 := by
      rw [stale, hpc, hidle]
      rfl
    rw [hstale, hstored, hreturned, hbuffer]
    omega

/-! ## Steps -/

theorem mainTest_inv {connfd : ℤ} (h : Inv s) (hmain : s.main = .check connfd) :
    Inv (mainTest s connfd) := by
  have hin : s.main.inside = true := by rw [hmain]; rfl
  unfold mainTest
  split
  · exact h.unlockMain hin (by rw [hmain]; rfl) rfl rfl
  · next hroom =>
    split
    · next t hput => exact absurd hput (h.put_finds hroom)
    · next t i hput =>
      obtain ⟨hfree, rfl⟩ := put_buffer_eq_some hput
      exact h.claim hmain hfree rfl rfl rfl rfl rfl rfl rfl rfl

theorem workerTest_inv (h : Inv s) (hw : s.worker w = .check) : Inv (workerTest s w) := by
  have hin : (s.worker w).inside = true := by rw [hw]; rfl
  have hno : (s.worker w).freeing = none := by rw [hw]; rfl
  unfold workerTest
  split
  · exact h.unlockWorker hno hin rfl rfl
  · next hfill =>
    split
    · next t hget => exact absurd hget (h.get_finds hin hno hfill)
    · next t i hget =>
      obtain ⟨hfilled, -, rfl⟩ := get_buffer_eq_some hget
      refine h.issue hw hfilled ?_ rfl rfl rfl rfl rfl rfl rfl rfl
      rw [Server.setSlot_self]
      rfl

theorem mainSignal_inv {woken : Fin n_threads → Bool} (h : Inv s) (hmain : s.main = .signal)
    (hs : mainSignal s woken = some t) : Inv t := by
  unfold mainSignal at hs
  split at hs
  · obtain rfl := Option.some.inj hs
    have hpc : ∀ w, (if s.worker w = .waiting ∧ woken w = true then .relock
        else s.worker w : WorkerPc n_buffers).freeing = (s.worker w).freeing ∧
      (if s.worker w = .waiting ∧ woken w = true then .relock
        else s.worker w : WorkerPc n_buffers).inside = (s.worker w).inside := by
      intro w
      split
      · next hwait =>
        rw [hwait.1]
        exact ⟨rfl, rfl⟩
      · exact ⟨rfl, rfl⟩
    refine h.frame rfl rfl rfl rfl rfl (by rw [hmain]; rfl) (fun w => (hpc w).1)
      (h.lock.keep fun u => ?_)
    cases u with
    | main => rw [Server.inside, Server.inside, hmain, MainPc.inside, MainPc.inside]
    | worker w => rw [Server.inside, Server.inside, (hpc w).2]
  · cases hs

theorem wakeMain_spec (pc : MainPc n_buffers) : (wakeMain pc).storing = pc.storing ∧
    (wakeMain pc).inside = pc.inside := by cases pc <;> exact ⟨rfl, rfl⟩

theorem run_inv {a : Event n_threads} (h : Inv s) (hs : run s a = some t) : Inv t := by
  cases a with
  | accept connfd =>
      simp only [run] at hs
      split at hs
      · next hmain =>
        obtain rfl := Option.some.inj hs
        exact h.keepMain (by rw [hmain]; rfl) rfl (by rw [hmain]; rfl)
      · cases hs
  | mainLock =>
      simp only [run] at hs
      split at hs
      · next hmain hlock =>
        obtain rfl := Option.some.inj hs
        exact h.lockMain hlock (by rw [hmain]; rfl) rfl rfl
      · next hmain hlock =>
        obtain rfl := Option.some.inj hs
        exact h.lockMain hlock (by rw [hmain]; rfl) rfl rfl
      · cases hs
  | mainTest =>
      simp only [run] at hs
      split at hs
      · next hmain =>
        obtain rfl := Option.some.inj hs
        exact mainTest_inv h hmain
      · cases hs
  | mainStore =>
      simp only [run] at hs
      split at hs
      · next hmain =>
        obtain rfl := Option.some.inj hs
        exact h.write hmain rfl rfl rfl rfl rfl rfl rfl rfl
      · cases hs
  | mainSignal woken =>
      simp only [run] at hs
      split at hs
      · next hmain => exact mainSignal_inv h hmain hs
      · cases hs
  | mainUnlock =>
      simp only [run] at hs
      split at hs
      · next hmain =>
        obtain rfl := Option.some.inj hs
        exact h.unlockMain (by rw [hmain]; rfl) (by rw [hmain]; rfl) rfl rfl
      · cases hs
  | mainSpurious =>
      simp only [run] at hs
      split at hs
      · next hmain =>
        obtain rfl := Option.some.inj hs
        exact h.keepMain (by rw [hmain]; rfl) rfl (by rw [hmain]; rfl)
      · cases hs
  | lock w =>
      simp only [run] at hs
      split at hs
      · next hw hlock =>
        obtain rfl := Option.some.inj hs
        exact h.lockWorker hlock (by rw [hw]; rfl)
      · next hw hlock =>
        obtain rfl := Option.some.inj hs
        exact h.lockWorker hlock (by rw [hw]; rfl)
      · cases hs
  | test w =>
      simp only [run] at hs
      split at hs
      · next hw =>
        obtain rfl := Option.some.inj hs
        exact workerTest_inv h hw
      · cases hs
  | free w =>
      simp only [run] at hs
      split at hs
      · next hw =>
        obtain rfl := Option.some.inj hs
        exact h.release hw rfl rfl rfl rfl rfl rfl rfl rfl
      · cases hs
  | signal w =>
      simp only [run] at hs
      split at hs
      · next fd hw =>
        obtain rfl := Option.some.inj hs
        have hmove : Inv (s.setWorker w (.unlock fd)) :=
          h.move (by rw [hw]; rfl) rfl (by rw [hw]; rfl)
        obtain ⟨hstore, hin⟩ := wakeMain_spec s.main
        refine hmove.frame rfl rfl rfl rfl rfl hstore (fun _ => rfl) (hmove.lock.keep fun u => ?_)
        cases u with
        | main =>
            show (wakeMain s.main).inside = true ↔ s.main.inside = true
            rw [hin]
        | worker v => exact Iff.rfl
      · cases hs
  | unlock w =>
      simp only [run] at hs
      split at hs
      · next hw =>
        obtain rfl := Option.some.inj hs
        exact h.unlockWorker (by rw [hw]; rfl) (by rw [hw]; rfl) rfl rfl
      · cases hs
  | handle w =>
      simp only [run] at hs
      split at hs
      · next hw =>
        obtain rfl := Option.some.inj hs
        exact h.move (by rw [hw]; rfl) rfl (by rw [hw]; rfl)
      · cases hs
  | spurious w =>
      simp only [run] at hs
      split at hs
      · next hw =>
        obtain rfl := Option.some.inj hs
        exact h.move (by rw [hw]; rfl) rfl (by rw [hw]; rfl)
      · cases hs

/-! ## Every run -/

/-- What the acceptor stores is returned once or is on offer, `fill_count` counts the filled slots,
and no thread has found the buffer in a state it exits over. -/
structure HandOff (s : Server n_buffers n_threads) : Prop where
  kept : ∀ d, s.stored.count d + stale s d =
    (s.returned.map Prod.snd).count d + tally (offers d) s.buffer
  count : s.main_lock = none → s.fill_count = tally isFilled s.buffer
  running : s.exited = false

theorem init_inv {malloc : Fin n_buffers → ConnInfo} (h : ∀ i, (malloc i).issued = 0) :
    Inv (init malloc : Server n_buffers n_threads) where
  lock u := by
    refine ⟨fun hu => (by cases hu), fun hu => ?_⟩
    cases u <;> cases hu
  flag _ := .inl rfl
  issued i hi := absurd (h i) hi
  free w i hw := by cases hw
  store i hi := by cases hi
  count := by
    have hzero : tally isFilled (init malloc : Server n_buffers n_threads).buffer = 0 :=
      tally_eq_zero fun _ => rfl
    rw [hzero]
    rfl
  kept d := by
    have hzero : tally (offers d) (init malloc : Server n_buffers n_threads).buffer = 0 :=
      tally_eq_zero fun _ => rfl
    rw [hzero]
    rfl
  running := rfl

theorem inv_of_run {malloc : Fin n_buffers → ConnInfo} (h : ∀ i, (malloc i).issued = 0)
    (hrun : Run step (fun _ _ => True) (init malloc) s) : Inv s := by
  refine hrun.invariant (init_inv h) fun t a u ht _ hs => ?_
  rw [step, ht.running] at hs
  exact run_inv ht hs

/-! ## What a slot that is already issued leads to -/

section
variable {buffer : Fin n_buffers → ConnInfo} {fill_count : ℤ} {stored : List ℤ}
  {returned : List (Fin n_threads × ℤ)}

/-- Nobody is inside, and the acceptor is ready for a connection. -/
def idle (buffer : Fin n_buffers → ConnInfo) (fill_count : ℤ) (stored : List ℤ)
    (returned : List (Fin n_threads × ℤ)) : Server n_buffers n_threads :=
  { buffer, fill_count, stored, returned }

/-- The acceptor fills the first free slot. -/
theorem idle_put (hroom : fill_count ≠ n_buffers)
    (hfind : (List.finRange n_buffers).find? (fun i => (buffer i).filled = 0) = some i) :
    Run step (fun _ _ => True) (idle buffer fill_count stored returned)
      (idle (Function.update buffer i (((buffer i).setFilled 1).setFd 0)) (fill_count + 1)
        (stored ++ [0]) returned) := by
  have hplay : play step [.accept 0, .mainLock, .mainTest, .mainStore,
      .mainSignal fun _ => false, .mainUnlock] (idle buffer fill_count stored returned) =
      some (idle (Function.update buffer i (((buffer i).setFilled 1).setFd 0)) (fill_count + 1)
        (stored ++ [0]) returned) := by
    simp [play, step, run, mainTest, hroom, put_buffer, hfind, mainStore, mainSignal, idle,
      Server.setSlot]
  exact .of_play hplay

/-- A worker takes and frees the first slot on offer. -/
theorem idle_get (w : Fin n_threads) (hfill : fill_count ≠ 0)
    (hfind : (List.finRange n_buffers).find?
      (fun i => (buffer i).filled = 1 ∧ (buffer i).issued = 0) = some i) :
    Run step (fun _ _ => True) (idle buffer fill_count stored returned)
      (idle (Function.update buffer i ((((buffer i).setIssued 1).setIssued 0).setFilled 0))
        (fill_count - 1) stored (returned ++ [(w, (buffer i).conn_fd)])) := by
  have hplay : play step [.lock w, .test w, .free w, .signal w, .unlock w, .handle w]
      (idle buffer fill_count stored returned) =
      some (idle (Function.update buffer i ((((buffer i).setIssued 1).setIssued 0).setFilled 0))
        (fill_count - 1) stored (returned ++ [(w, (buffer i).conn_fd)])) := by
    simp [-Bool.decide_and, play, step, run, workerTest, hfill, get_buffer, hfind, free_buffer,
      wakeMain, idle, Server.setSlot, Server.setWorker, ConnInfo.setIssued]
  exact .of_play hplay

/-- With nothing on offer a worker exits over a buffer that is not empty. -/
theorem idle_exit (w : Fin n_threads) (hfill : fill_count ≠ 0)
    (hfind : (List.finRange n_buffers).find?
      (fun i => (buffer i).filled = 1 ∧ (buffer i).issued = 0) = none) :
    ∃ t, Run step (fun _ _ => True) (idle buffer fill_count stored returned) t ∧
      t.exited = true := by
  have hplay : play step [.lock w, .test w] (idle buffer fill_count stored returned) =
      some { (idle buffer fill_count stored returned).setWorker w .check with
        main_lock := some (.worker w), exited := true } := by
    simp [-Bool.decide_and, play, step, run, workerTest, hfill, get_buffer, hfind, idle,
      Server.setWorker]
  exact ⟨_, .of_play hplay, rfl⟩

/-- A slot that no worker takes. -/
def Stuck (x : ConnInfo) : Prop := x.filled = 1 ∧ x.issued ≠ 0

def onOffer (x : ConnInfo) : ℕ := if x.filled = 1 ∧ x.issued = 0 then 1 else 0

theorem isFilled_le (x : ConnInfo) : isFilled x ≤ 1 := by
  unfold isFilled
  split <;> decide

/-- The acceptor fills the whole buffer, and leaves `issued` as it is. -/
theorem idle_fill (m : ℕ) (buffer : Fin n_buffers → ConnInfo) (fill_count : ℤ) (stored : List ℤ)
    (returned : List (Fin n_threads × ℤ)) (hflag : ∀ i, (buffer i).filled = 0 ∨ (buffer i).filled = 1)
    (hcount : fill_count = tally isFilled buffer) (hm : tally isFilled buffer + m = n_buffers) :
    ∃ (buffer' : Fin n_buffers → ConnInfo) (stored' : List ℤ),
      Run step (fun _ _ => True) (idle buffer fill_count stored returned)
        (idle buffer' (tally isFilled buffer' : ℕ) stored' returned) ∧
      ∀ i, (buffer' i).filled = 1 ∧ (buffer' i).issued = (buffer i).issued := by
  induction m generalizing buffer fill_count stored with
  | zero =>
      refine ⟨buffer, stored, hcount ▸ .refl, fun i => ⟨(hflag i).resolve_left fun hi => ?_, rfl⟩⟩
      have hset := tally_update isFilled buffer i ((buffer i).setFilled 1)
      have hold : isFilled (buffer i) = 0 := by simp [isFilled, hi]
      have hnew : isFilled ((buffer i).setFilled 1) = 1 := rfl
      have hle := tally_le_card (T := Function.update buffer i ((buffer i).setFilled 1))
        fun j => isFilled_le _
      rw [Fintype.card_fin] at hle
      omega
  | succ m ih =>
      cases hfind : (List.finRange n_buffers).find? (fun i => (buffer i).filled = 0) with
      | none =>
          have hall : ∀ i, isFilled (buffer i) = 1 := by
            intro i
            have hi := List.find?_eq_none.mp hfind i (List.mem_finRange i)
            exact if_pos ((hflag i).resolve_left (by simpa using hi))
          have hcard := tally_eq_card hall
          rw [Fintype.card_fin] at hcard
          omega
      | some i =>
          have hi : (buffer i).filled = 0 := by simpa using List.find?_some hfind
          have hset := tally_update isFilled buffer i (((buffer i).setFilled 1).setFd 0)
          have hold : isFilled (buffer i) = 0 := by simp [isFilled, hi]
          have hnew : isFilled (((buffer i).setFilled 1).setFd 0) = 1 := rfl
          have hsame : ∀ j, (Function.update buffer i (((buffer i).setFilled 1).setFd 0) j).issued =
              (buffer j).issued := apply_update_same (g := ConnInfo.issued) rfl
          have hflag' : ∀ j, (Function.update buffer i (((buffer i).setFilled 1).setFd 0) j).filled =
              0 ∨ (Function.update buffer i (((buffer i).setFilled 1).setFd 0) j).filled = 1 := by
            intro j
            by_cases hj : j = i
            · rw [hj, Function.update_self]
              exact .inr rfl
            · rw [Function.update_of_ne hj]
              exact hflag j
          obtain ⟨buffer', stored', hrun, hall⟩ := ih (Function.update buffer i
            (((buffer i).setFilled 1).setFd 0)) (fill_count + 1) (stored ++ [0]) hflag' (by omega)
            (by omega)
          exact ⟨buffer', stored', (idle_put (by omega) hfind).trans hrun,
            fun j => ⟨(hall j).1, (hall j).2.trans (hsame j)⟩⟩

/-- The worker takes what is on offer, and then exits over the slot that is left. -/
theorem idle_drain (w : Fin n_threads) (m : ℕ) (buffer : Fin n_buffers → ConnInfo)
    (fill_count : ℤ) (stored : List ℤ) (returned : List (Fin n_threads × ℤ)) (hstuck : ∃ i, Stuck (buffer i))
    (hcount : fill_count = tally isFilled buffer) (hm : tally onOffer buffer = m) :
    ∃ t, Run step (fun _ _ => True) (idle buffer fill_count stored returned) t ∧
      t.exited = true := by
  obtain ⟨i₀, hfilled, hissued⟩ := hstuck
  have hfill : fill_count ≠ 0 := by
    have hpos : 0 < tally isFilled buffer := tally_pos_of (x := i₀) (by simp [isFilled, hfilled])
    omega
  induction m generalizing buffer fill_count returned with
  | zero =>
      refine idle_exit w hfill (List.find?_eq_none.mpr fun i _ hi => ?_)
      have hpos : 0 < tally onOffer buffer := tally_pos_of (x := i) (by
        rw [onOffer, if_pos (by simpa using hi)]
        decide)
      omega
  | succ m ih =>
      cases hfind : (List.finRange n_buffers).find?
          (fun i => (buffer i).filled = 1 ∧ (buffer i).issued = 0) with
      | none => exact idle_exit w hfill hfind
      | some i =>
          have hi := List.find?_some hfind
          simp only [decide_eq_true_eq] at hi
          have hne : i₀ ≠ i := by
            rintro rfl
            exact hissued hi.2
          have hset := tally_update isFilled buffer i
            ((((buffer i).setIssued 1).setIssued 0).setFilled 0)
          have hold : isFilled (buffer i) = 1 := if_pos hi.1
          have hnew : isFilled ((((buffer i).setIssued 1).setIssued 0).setFilled 0) = 0 := rfl
          have hset' := tally_update onOffer buffer i
            ((((buffer i).setIssued 1).setIssued 0).setFilled 0)
          have hold' : onOffer (buffer i) = 1 := if_pos hi
          have hnew' : onOffer ((((buffer i).setIssued 1).setIssued 0).setFilled 0) = 0 := rfl
          have hkeep : Function.update buffer i
              ((((buffer i).setIssued 1).setIssued 0).setFilled 0) i₀ = buffer i₀ :=
            Function.update_of_ne hne ..
          have hpos : 0 < tally isFilled (Function.update buffer i
              ((((buffer i).setIssued 1).setIssued 0).setFilled 0)) :=
            tally_pos_of (x := i₀) (by rw [hkeep]; simp [isFilled, hfilled])
          obtain ⟨t, hrun, hexit⟩ := ih (Function.update buffer i
            ((((buffer i).setIssued 1).setIssued 0).setFilled 0)) (fill_count - 1)
            (returned ++ [(w, (buffer i).conn_fd)]) (by omega) (by omega)
            (by rwa [hkeep]) (by rwa [hkeep]) (by omega)
          exact ⟨t, (idle_get w hfill hfind).trans hrun, hexit⟩

end

/-- The hand-off works in every run exactly when `malloc` has left no slot issued. -/
theorem handOff_iff (hworkers : 0 < n_threads) (malloc : Fin n_buffers → ConnInfo) :
    (∀ s : Server n_buffers n_threads, Run step (fun _ _ => True) (init malloc) s → HandOff s) ↔
      ∀ i, (malloc i).issued = 0 := by
  constructor
  · intro hall i
    by_contra hi
    have hzero : tally isFilled (fun i => initSlot (malloc i)) = 0 := tally_eq_zero fun _ => rfl
    obtain ⟨buffer, stored, hfill, hissued⟩ := idle_fill n_buffers (fun i => initSlot (malloc i)) 0
      [] ([] : List (Fin n_threads × ℤ)) (fun _ => .inl rfl) (by rw [hzero]; rfl) (by omega)
    obtain ⟨t, hdrain, hexit⟩ := idle_drain ⟨0, hworkers⟩ _ buffer _ stored []
      ⟨i, (hissued i).1, by rw [(hissued i).2]; exact hi⟩ rfl rfl
    have hrunning := (hall t (hfill.trans hdrain)).running
    rw [hexit] at hrunning
    cases hrunning
  · intro h s hrun
    have hinv := inv_of_run h hrun
    exact ⟨hinv.kept, fun _ => hinv.count, hinv.running⟩

/-- One connection goes through a buffer of two slots and a crew of two workers. -/
def oneConnection : List (Event 2) :=
  [.accept 5, .lock 0, .test 0, .mainLock, .mainTest, .mainStore, .mainSignal fun w => w = 0,
    .mainUnlock, .lock 1, .test 1, .free 1, .signal 1, .unlock 1, .lock 0, .test 0]

theorem handOff_zeroed : ∃ t, play step oneConnection (init fun _ : Fin 2 => ⟨7, 3, 0⟩) = some t ∧
    HandOff t := by
  have hsome : (play step oneConnection (init fun _ : Fin 2 => ⟨7, 3, 0⟩)).isSome = true := by
    decide +kernel
  obtain ⟨t, ht⟩ := Option.isSome_iff_exists.mp hsome
  exact ⟨t, ht, (handOff_iff (by decide) _).mpr (fun _ => rfl) t (.of_play ht)⟩

/-- `malloc` leaves 1 in `issued`, and the first worker to look exits. -/
theorem handOff_fails : ¬ ∀ s : Server 1 1,
    Run step (fun _ _ => True) (init fun _ => ⟨0, 0, 1⟩) s → HandOff s := by
  have hexit : (play step [.accept 5, .mainLock, .mainTest, .mainStore, .mainSignal fun _ => false,
      .mainUnlock, .lock 0, .test 0] (init fun _ : Fin 1 => ⟨0, 0, 1⟩ : Server 1 1)).map
        Server.exited = some true := by decide +kernel
  obtain ⟨t, ht, htrue⟩ := Option.map_eq_some_iff.mp hexit
  intro hall
  have hrunning := (hall t (.of_play ht)).running
  rw [htrue] at hrunning
  cases hrunning

end

end IntroToOS.WebServer

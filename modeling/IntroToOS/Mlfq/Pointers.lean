import IntroToOS.Mlfq.Queues

/-! # One iteration of `scheduler`, pointer by pointer

`scheduler` finds out whether a row had nothing to run by comparing its loop pointer `q` with the
end of the row, which is also the start of the next row. Here the pointers are kept as they are in
the source, and whatever the machine does between a `swtch` and the return from it is an arbitrary
function. An iteration is then seen to be what `dispatch` and `afterSwtch` say.
-/

namespace IntroToOS.Mlfq
set_option autoImplicit false

/-- A pointer into `ptable.queues`, as its distance from `&queues[0][0]`. -/
abbrev Ptr := ℕ

/-- `&queues[row][i]`; the rows lie one behind the other. -/
def addr (row i : ℕ) : Ptr := row * NPROC + i

/-- The slot that `*q` is. -/
def slot (q : Ptr) : Slot := (q / NPROC, q % NPROC)

/-- A `swtch` to a process: the locals `q` and `p`, and the tables at that time. -/
structure Ran where
  q : Ptr
  p : ProcId
  kernel : Kernel

/-- The tables, the local `lastRR`, and (not in the source) the processes that have been run. -/
structure Scheduler where
  kernel : Kernel
  lastRR : Option Ptr := none
  ran : List Ran := []

/-- `p->state = RUNNING; p->lastTick = sys_uptime();` -/
def setRunning (k : Kernel) (p : ProcId) : Kernel :=
  k.setProc p { k.proc p with state := .RUNNING, lastTick := k.ticks }

/-- Rows 0 to 2, after `swtch`: at the end of its time slice the process is put into the next row. -/
def demote (row slice : ℕ) (s : Scheduler) (q : Ptr) (p : ProcId) : Scheduler × Ptr :=
  let x := s.kernel.proc p
  if x.ticks row = slice then
    let k := s.kernel.setProc p
      { x with ticks := Function.update x.ticks row 0, priority := x.priority + 1 }
    let queues := enqueue (Function.update k.queues (slot q) none) (row + 1) p
    ({ s with kernel := { k with queues } }, q)
  else (s, q)

/-- Row 3, after `swtch`. -/
def roundRobin (s : Scheduler) (q : Ptr) (p : ProcId) : Scheduler × Ptr :=
  let x := s.kernel.proc p
  if x.ticks 3 = 20 then
    let kernel := s.kernel.setProc p { x with ticks := Function.update x.ticks 3 0 }
    if q = addr 3 (NPROC - 1) then ({ s with kernel, lastRR := some (addr 3 0) }, q)
    else ({ s with kernel, lastRR := some (q + 1) }, q + 1)
  else (s, q)

section
variable (swtch : Kernel → Kernel)

/-- A loop `for (; q < stop; q++)`, where `stop` is `n` slots on; `after` is the code after
`swtch`, up to the `break`. -/
def forRow (after : Scheduler → Ptr → ProcId → Scheduler × Ptr) :
    ℕ → Scheduler → Ptr → Scheduler × Ptr
  | 0, s, q => (s, q)
  | n + 1, s, q =>
    let k := s.kernel
    match k.queues (slot q) with
    | none => forRow after n s (q + 1)
    | some p =>
      if (k.proc p).state = .UNUSED then
        let queues := Function.update k.queues (slot q) none
        forRow after n { s with kernel := { k with queues } } (q + 1)
      else if (k.proc p).state ≠ .RUNNABLE then forRow after n s (q + 1)
      else
        let k := setRunning k p
        after { s with kernel := swtch k, ran := s.ran ++ [⟨q, p, k⟩] } q p

/-- The two loops over row 3; nothing is less than a `lastRR` that is `NULL`. -/
def lastRow (s : Scheduler) : Scheduler :=
  let first := s.lastRR.getD (addr 3 0)
  let (s, q) := forRow swtch roundRobin (addr 3 NPROC - first) s first
  if q = addr 3 NPROC then
    (forRow swtch roundRobin (s.lastRR.getD 0 - addr 3 0) s (addr 3 0)).1
  else s

/-- What one turn of `for (;;)` does with `ptable.lock` held. -/
def iteration (s : Scheduler) : Scheduler :=
  let (s, q) := forRow swtch (demote 0 5) NPROC s (addr 0 0)
  let (s, q) :=
    if q = addr 0 NPROC then forRow swtch (demote 1 5) NPROC s (addr 1 0) else (s, q)
  let (s, q) :=
    if q = addr 1 NPROC then forRow swtch (demote 2 10) NPROC s (addr 2 0) else (s, q)
  if q = addr 2 NPROC then lastRow swtch s else s

end

/-- The values `lastRR` can have at the start of an iteration. Between two iterations, and while a
process runs, the tables may become anything. -/
inductive Produced : Option Ptr → Prop
  | null : Produced none
  | iteration (swtch : Kernel → Kernel) (k : Kernel) {l : Option Ptr} (h : Produced l) :
      Produced (iteration swtch { kernel := k, lastRR := l }).lastRR

/-! ## What a scan finds -/

/-- A RUNNABLE process in slot `x`. -/
def pick (k : Kernel) (x : Slot) : Option Dispatch :=
  match k.queues x with
  | none => none
  | some p => if (k.proc p).state = .RUNNABLE then some ⟨x, p⟩ else none

theorem pick_eq_some {k : Kernel} {x : Slot} {d : Dispatch} : pick k x = some d ↔
    d.q = x ∧ k.queues x = some d.p ∧ (k.proc d.p).state = .RUNNABLE := by
  obtain ⟨q, p⟩ := d
  unfold pick
  cases hx : k.queues x with
  | none => simp
  | some r =>
      by_cases hr : (k.proc r).state = .RUNNABLE
      · simp only [if_pos hr, Option.some.injEq, Dispatch.mk.injEq]
        constructor
        · rintro ⟨rfl, rfl⟩
          exact ⟨rfl, rfl, hr⟩
        · rintro ⟨rfl, rfl, -⟩
          exact ⟨rfl, rfl⟩
      · simp only [if_neg hr, Option.some.injEq]
        refine iff_of_false nofun ?_
        rintro ⟨-, rfl, hp⟩
        exact hr hp

theorem pick_clear {k : Kernel} {q : Slot} {p : ProcId} (hq : k.queues q = some p)
    (hu : (k.proc p).state = .UNUSED) :
    pick { k with queues := Function.update k.queues q none } = pick k := by
  funext x
  by_cases hx : x = q
  · subst hx
    simp [pick, hq, hu]
  · simp [pick, hx]

/-- The slots of `l` are looked at in turn, up to the first one with a RUNNABLE process. -/
theorem scan_snd (k : Kernel) (l : List Slot) :
    (scan k.proc l k.queues).2 = l.findSome? (pick k) := by
  induction l generalizing k with
  | nil => rfl
  | cons q l ih =>
      unfold scan
      rw [List.findSome?_cons]
      cases hq : k.queues q with
      | none =>
          have hpick : pick k q = none := by simp [pick, hq]
          rw [hpick]
          exact ih k
      | some p =>
          simp only
          split
          · next hu =>
            have hpick : pick k q = none := by simp [pick, hq, hu]
            rw [hpick, ← pick_clear hq hu]
            exact ih { k with queues := Function.update k.queues q none }
          · split
            · next hr =>
              have hpick : pick k q = none := by simp [pick, hq, hr]
              rw [hpick]
              exact ih k
            · next hr =>
              have hpick : pick k q = some ⟨q, p⟩ := by simpa [pick, hq] using hr
              rw [hpick]

theorem scan_append (proc : ProcId → Proc) (l l' : List Slot) (qs : Queues) :
    scan proc (l ++ l') qs = match scan proc l qs with
      | (qs, none) => scan proc l' qs
      | (qs, some d) => (qs, some d) := by
  induction l generalizing qs with
  | nil => rfl
  | cons q l ih =>
      simp only [List.cons_append, scan]
      cases qs q with
      | none => exact ih qs
      | some p =>
          simp only
          split
          · exact ih _
          · split
            · exact ih qs
            · rfl

/-! ## Loops -/

theorem slot_addr {row i : ℕ} (hi : i < NPROC) : slot (addr row i) = (row, i) := by
  unfold slot addr
  rw [Nat.mul_comm row, Nat.mul_add_div (by decide), Nat.mul_add_mod, Nat.div_eq_of_lt hi,
    Nat.mod_eq_of_lt hi, Nat.add_zero]

theorem addr_slot (q : Ptr) : addr (slot q).1 (slot q).2 = q := Nat.div_add_mod' q NPROC

theorem map_slot {row i n : ℕ} (h : i + n ≤ NPROC) :
    (List.range' (addr row i) n).map slot = (List.range' i n).map (row, ·) := by
  rw [List.range'_eq_map_range, List.range'_eq_map_range, List.map_map, List.map_map]
  refine List.map_congr_left fun j hj => ?_
  have hj : j < n := List.mem_range.mp hj
  have hadd : addr row i + j = addr row (i + j) := Nat.add_assoc ..
  rw [Function.comp_apply, Function.comp_apply, hadd, slot_addr (by omega)]

def Scheduler.setQueues (s : Scheduler) (queues : Queues) : Scheduler :=
  { s with kernel := { s.kernel with queues } }

section
variable (s : Scheduler) (qs qs' : Queues)

theorem Scheduler.setQueues_proc : (s.setQueues qs).kernel.proc = s.kernel.proc := rfl

theorem Scheduler.setQueues_queues : (s.setQueues qs).kernel.queues = qs := rfl

theorem Scheduler.setQueues_setQueues : (s.setQueues qs).setQueues qs' = s.setQueues qs' := rfl

end

section
variable (swtch : Kernel → Kernel)

/-- The process that has been picked runs. -/
def Scheduler.runs (s : Scheduler) (d : Dispatch) : Scheduler :=
  let k := setRunning s.kernel d.p
  { s with kernel := swtch k, ran := s.ran ++ [⟨addr d.q.1 d.q.2, d.p, k⟩] }

theorem forRow_eq (after : Scheduler → Ptr → ProcId → Scheduler × Ptr) (n : ℕ) (s : Scheduler)
    (q : Ptr) : forRow swtch after n s q =
      match scan s.kernel.proc ((List.range' q n).map slot) s.kernel.queues with
      | (qs, none) => (s.setQueues qs, q + n)
      | (qs, some d) => after ((s.setQueues qs).runs swtch d) (addr d.q.1 d.q.2) d.p := by
  induction n generalizing s q with
  | zero => rfl
  | succ n ih =>
      have hadd : q + (n + 1) = q + 1 + n := Nat.add_right_comm q n 1
      rw [List.range'_succ, List.map_cons, hadd]
      simp only [forRow, scan]
      cases hq : s.kernel.queues (slot q) with
      | none => exact ih s (q + 1)
      | some p =>
          simp only
          split
          · exact ih (s.setQueues (Function.update s.kernel.queues (slot q) none)) (q + 1)
          · split
            · exact ih s (q + 1)
            · simp only [Scheduler.setQueues, Scheduler.runs, addr_slot]

theorem demote_snd (row slice : ℕ) (s : Scheduler) (q : Ptr) (p : ProcId) :
    (demote row slice s q p).2 = q := by
  simp only [demote]
  split <;> rfl

/-- A row as `forRow` scans it. -/
theorem forRow_row (after : Scheduler → Ptr → ProcId → Scheduler × Ptr) (row : ℕ) (s : Scheduler) :
    forRow swtch after NPROC s (addr row 0) =
      match scan s.kernel.proc ((List.range NPROC).map (row, ·)) s.kernel.queues with
      | (qs, none) => (s.setQueues qs, addr row NPROC)
      | (qs, some d) => after ((s.setQueues qs).runs swtch d) (addr d.q.1 d.q.2) d.p := by
  rw [forRow_eq, map_slot (Nat.le_of_eq (Nat.zero_add _)), List.range_eq_range']
  rfl

theorem scan_row {proc : ProcId → Proc} {row : ℕ} {l : List ℕ} {qs qs' : Queues} {d : Dispatch}
    (h : scan proc (l.map (row, ·)) qs = (qs', some d)) : d.q.1 = row ∧ d.q.2 ∈ l := by
  obtain ⟨-, -, hd⟩ := scan_spec proc (l.map (row, ·)) qs
  rw [h] at hd
  obtain ⟨i, hi, hq⟩ := List.mem_map.mp (hd d rfl).1
  rw [← hq]
  exact ⟨rfl, hi⟩

theorem roundRobin_ne (s : Scheduler) (p : ProcId) {i : ℕ} (hi : i < NPROC) :
    (roundRobin s (addr 3 i) p).2 ≠ addr 3 NPROC := by
  have hlt : addr 3 i < addr 3 NPROC := Nat.add_lt_add_left hi _
  simp only [roundRobin]
  split
  · split
    · exact Nat.ne_of_lt hlt
    · next hne =>
      -- the slot after the last one is not reached
      have hne' : i ≠ NPROC - 1 := fun h => hne (congrArg (addr 3) h)
      have hlt' : addr 3 (i + 1) < addr 3 NPROC := Nat.add_lt_add_left (by omega) _
      exact Nat.ne_of_lt hlt'
  · exact Nat.ne_of_lt hlt

theorem lastRow_eq (s : Scheduler) {col : Option ℕ} (hcol : ∀ i ∈ col, i < NPROC)
    (hs : s.lastRR = col.map (addr 3)) : lastRow swtch s =
      match scan s.kernel.proc ((List.range' (col.getD 0) (NPROC - col.getD 0)).map (3, ·) ++
          (List.range (col.getD 0)).map (3, ·)) s.kernel.queues with
      | (qs, none) => s.setQueues qs
      | (qs, some d) =>
        (roundRobin ((s.setQueues qs).runs swtch d) (addr d.q.1 d.q.2) d.p).1 := by
  generalize hi : col.getD 0 = i
  have hlt : i < NPROC := by
    cases col with
    | none =>
        subst hi
        decide
    | some j => exact hi ▸ hcol j rfl
  have hfirst : s.lastRR.getD (addr 3 0) = addr 3 i := by
    rw [hs, ← hi]
    cases col <;> rfl
  have hlen : addr 3 NPROC - addr 3 i = NPROC - i := Nat.add_sub_add_left ..
  have hstop : s.lastRR.getD 0 - addr 3 0 = i := by
    rw [hs, ← hi]
    cases col with
    | none => rfl
    | some j => exact Nat.add_sub_cancel_left ..
  unfold lastRow
  simp only [hfirst, hlen]
  rw [forRow_eq, map_slot (by omega), scan_append]
  cases hscan : scan s.kernel.proc ((List.range' i (NPROC - i)).map (3, ·)) s.kernel.queues with
  | mk qs r =>
    cases r with
    | none =>
        have hend : addr 3 i + (NPROC - i) = addr 3 NPROC := by
          rw [addr, Nat.add_assoc, Nat.add_sub_cancel' hlt.le]
          rfl
        simp only [hend, if_true]
        have hstop' : (s.setQueues qs).lastRR.getD 0 - addr 3 0 = i := hstop
        rw [hstop', forRow_eq, map_slot (by omega), ← List.range_eq_range']
        show (match scan s.kernel.proc ((List.range i).map (3, ·)) qs with
          | (qs', none) => ((s.setQueues qs).setQueues qs', addr 3 0 + i)
          | (qs', some d) => _).1 = _
        cases scan s.kernel.proc ((List.range i).map (3, ·)) qs with
        | mk qs' r => cases r <;> rfl
    | some d =>
        obtain ⟨hrow, hmem⟩ := scan_row hscan
        have hd : d.q.2 < NPROC := by
          have := (List.mem_range'_1.mp hmem).2
          omega
        simp only [hrow]
        rw [if_neg (roundRobin_ne _ _ hd)]

/-- The code after `swtch` that goes with each row. -/
def afterRow : ℕ → Scheduler → Ptr → ProcId → Scheduler × Ptr
  | 0 => demote 0 5
  | 1 => demote 1 5
  | 2 => demote 2 10
  | _ => roundRobin

/-- An iteration looks at the slots in the order `scanOrder`, and runs what it finds first. -/
theorem iteration_eq (s : Scheduler) {col : Option ℕ} (hcol : ∀ i ∈ col, i < NPROC)
    (hs : s.lastRR = col.map (addr 3)) : iteration swtch s =
      match scan s.kernel.proc (scanOrder col) s.kernel.queues with
      | (qs, none) => s.setQueues qs
      | (qs, some d) =>
        (afterRow d.q.1 ((s.setQueues qs).runs swtch d) (addr d.q.1 d.q.2) d.p).1 := by
  have hne : ∀ {r r' i : ℕ}, i < NPROC → r ≤ r' → ¬ addr r i = addr r' NPROC := fun hi hr =>
    Nat.ne_of_lt (Nat.add_lt_add_of_le_of_lt (Nat.mul_le_mul_right NPROC hr) hi)
  have horder : scanOrder col = (List.range NPROC).map (0, ·) ++ ((List.range NPROC).map (1, ·) ++
      ((List.range NPROC).map (2, ·) ++
        ((List.range' (col.getD 0) (NPROC - col.getD 0)).map (3, ·) ++
          (List.range (col.getD 0)).map (3, ·)))) := by
    simp only [scanOrder, List.append_assoc]
  rw [horder, scan_append]
  unfold iteration
  rw [forRow_row]
  obtain ⟨⟨qs0, r⟩, h0⟩ : ∃ r, scan s.kernel.proc ((List.range NPROC).map (0, ·))
    s.kernel.queues = r := ⟨_, rfl⟩
  cases r with
  | some d =>
      obtain ⟨hrow, hmem⟩ := scan_row h0
      have hd := List.mem_range.mp hmem
      simp only [h0, hrow, demote_snd, hne hd (Nat.le_refl 0), hne hd (Nat.zero_le 1),
        hne hd (Nat.zero_le 2), if_false, afterRow]
  | none =>
  simp only [h0, if_true]
  rw [forRow_row, scan_append, Scheduler.setQueues_proc, Scheduler.setQueues_queues]
  obtain ⟨⟨qs1, r⟩, h1⟩ : ∃ r, scan s.kernel.proc ((List.range NPROC).map (1, ·)) qs0 = r :=
    ⟨_, rfl⟩
  cases r with
  | some d =>
      obtain ⟨hrow, hmem⟩ := scan_row h1
      have hd := List.mem_range.mp hmem
      simp only [h1, hrow, demote_snd, hne hd (Nat.le_refl 1), hne hd (Nat.le_succ 1), if_false,
        afterRow, Scheduler.setQueues_setQueues]
  | none =>
  simp only [h1, if_true]
  rw [forRow_row, scan_append, Scheduler.setQueues_setQueues, Scheduler.setQueues_proc,
    Scheduler.setQueues_queues]
  obtain ⟨⟨qs2, r⟩, h2⟩ : ∃ r, scan s.kernel.proc ((List.range NPROC).map (2, ·)) qs1 = r :=
    ⟨_, rfl⟩
  cases r with
  | some d =>
      obtain ⟨hrow, hmem⟩ := scan_row h2
      have hd := List.mem_range.mp hmem
      simp only [h2, hrow, demote_snd, hne hd (Nat.le_refl 2), if_false, afterRow,
        Scheduler.setQueues_setQueues]
  | none =>
  simp only [h2, if_true, Scheduler.setQueues_setQueues]
  rw [lastRow_eq swtch (s.setQueues qs2) hcol hs, Scheduler.setQueues_proc,
    Scheduler.setQueues_queues, ← List.map_append]
  obtain ⟨⟨qs3, r⟩, h3⟩ : ∃ r, scan s.kernel.proc ((List.range' (col.getD 0)
    (NPROC - col.getD 0) ++ List.range (col.getD 0)).map (3, ·)) qs2 = r := ⟨_, rfl⟩
  cases r with
  | some d =>
      obtain ⟨hrow, -⟩ := scan_row h3
      simp only [h3, hrow, afterRow, Scheduler.setQueues_setQueues]
  | none => simp only [h3, Scheduler.setQueues_setQueues]

/-! ## Where `lastRR` points -/

theorem demote_fst (row slice : ℕ) (s : Scheduler) (q : Ptr) (p : ProcId) :
    (demote row slice s q p).1.lastRR = s.lastRR ∧ (demote row slice s q p).1.ran = s.ran := by
  simp only [demote]
  split <;> exact ⟨rfl, rfl⟩

theorem roundRobin_ran (s : Scheduler) (q : Ptr) (p : ProcId) :
    (roundRobin s q p).1.ran = s.ran := by
  simp only [roundRobin]
  split
  · split <;> rfl
  · rfl

theorem afterRow_ran (row : ℕ) (s : Scheduler) (q : Ptr) (p : ProcId) :
    (afterRow row s q p).1.ran = s.ran := by
  match row with
  | 0 | 1 | 2 => exact (demote_fst ..).2
  | row + 3 => exact roundRobin_ran s q p

theorem addr_succ (row i : ℕ) : addr row (i + 1) = addr row i + 1 := (Nat.add_assoc ..).symm

theorem roundRobin_lastRR (s : Scheduler) (p : ProcId) {i : ℕ} (hi : i < NPROC) :
    (roundRobin s (addr 3 i) p).1.lastRR = s.lastRR ∨
      ∃ j < NPROC, (roundRobin s (addr 3 i) p).1.lastRR = some (addr 3 j) := by
  simp only [roundRobin]
  split
  · right
    split
    · exact ⟨0, by decide, rfl⟩
    · next hne =>
      have hne' : i ≠ NPROC - 1 := fun h => hne (congrArg (addr 3) h)
      refine ⟨i + 1, by omega, ?_⟩
      rw [addr_succ]
  · exact .inl rfl

theorem afterRow_lastRR (s : Scheduler) (p : ProcId) {x : Slot} (hx : IsSlot x) :
    (afterRow x.1 s (addr x.1 x.2) p).1.lastRR = s.lastRR ∨
      ∃ j < NPROC, (afterRow x.1 s (addr x.1 x.2) p).1.lastRR = some (addr 3 j) := by
  obtain ⟨row, i⟩ := x
  obtain ⟨hrow, hi⟩ := hx
  match row with
  | 0 | 1 | 2 => exact .inl (demote_fst ..).1
  | 3 => exact roundRobin_lastRR s p hi

theorem iteration_lastRR (s : Scheduler) {col : Option ℕ} (hcol : ∀ i ∈ col, i < NPROC)
    (hs : s.lastRR = col.map (addr 3)) : (iteration swtch s).lastRR = s.lastRR ∨
      ∃ j < NPROC, (iteration swtch s).lastRR = some (addr 3 j) := by
  rw [iteration_eq swtch s hcol hs]
  obtain ⟨-, -, hd⟩ := scan_spec s.kernel.proc (scanOrder col) s.kernel.queues
  generalize scan s.kernel.proc (scanOrder col) s.kernel.queues = r at hd
  obtain ⟨qs, r⟩ := r
  cases r with
  | none => exact .inl rfl
  | some d =>
      have hslot := isSlot_of_mem_scanOrder hcol (hd d rfl).1
      exact afterRow_lastRR (Scheduler.runs swtch (s.setQueues qs) d) d.p hslot

/-- `lastRR` is `NULL` or points into row 3. -/
theorem Produced.column {l : Option Ptr} (h : Produced l) :
    ∃ col : Option ℕ, (∀ i ∈ col, i < NPROC) ∧ l = col.map (addr 3) := by
  induction h with
  | null => exact ⟨none, nofun, rfl⟩
  | @iteration swtch k l _ ih =>
      obtain ⟨col, hcol, hl⟩ := ih
      rcases iteration_lastRR swtch { kernel := k, lastRR := l } hcol hl with h | ⟨j, hj, h⟩
      · exact ⟨col, hcol, h.trans hl⟩
      · exact ⟨some j, fun i hi => Option.some.inj hi ▸ hj, h⟩

/-! ## Highest level first -/

theorem mem_scanOrder {col : Option ℕ} (hcol : ∀ i ∈ col, i < NPROC) {x : Slot} :
    x ∈ scanOrder col ↔ IsSlot x := by
  refine ⟨isSlot_of_mem_scanOrder hcol, ?_⟩
  rintro ⟨hrow, hlt⟩
  obtain ⟨row, i⟩ := x
  have hi : i ∈ List.range NPROC := List.mem_range.mpr hlt
  have hmem : ∀ r : ℕ, (r, i) ∈ (List.range NPROC).map (r, ·) := fun r =>
    List.mem_map.mpr ⟨i, hi, rfl⟩
  simp only [scanOrder, List.mem_append]
  obtain rfl | rfl | rfl | rfl : row = 0 ∨ row = 1 ∨ row = 2 ∨ row = 3 := by
    simp only at hrow
    omega
  · exact .inl (.inl (.inl (.inl (hmem 0))))
  · exact .inl (.inl (.inl (.inr (hmem 1))))
  · exact .inl (.inl (.inr (hmem 2)))
  · by_cases h : col.getD 0 ≤ i
    · refine .inl (.inr (List.mem_map.mpr ⟨i, List.mem_range'_1.mpr ⟨h, ?_⟩, rfl⟩))
      simp only at hlt
      omega
    · exact .inr (List.mem_map.mpr ⟨i, List.mem_range.mpr (Nat.lt_of_not_le h), rfl⟩)

/-- Another row behind rows of higher levels. -/
theorem rows_append {l : List Slot} {row : ℕ} (h : l.Pairwise fun x y => x.1 ≤ y.1)
    (hl : ∀ x ∈ l, x.1 ≤ row) (cols : List ℕ) :
    ((l ++ cols.map (row, ·)).Pairwise fun x y => x.1 ≤ y.1) ∧
      ∀ x ∈ l ++ cols.map (row, ·), x.1 ≤ row := by
  have hrow : ∀ x ∈ cols.map (row, ·), x.1 = row := by
    intro x hx
    obtain ⟨i, -, rfl⟩ := List.mem_map.mp hx
    rfl
  refine ⟨List.pairwise_append.mpr ⟨h, ?_, fun x hx y hy => ?_⟩, fun x hx => ?_⟩
  · exact List.pairwise_map.mpr (List.pairwise_of_forall fun _ _ => Nat.le_refl row)
  · rw [hrow y hy]
    exact hl x hx
  · exact (List.mem_append.mp hx).elim (hl x) fun hx => (hrow x hx).le

/-- The rows are scanned from the highest level to the lowest. -/
theorem scanOrder_rows (col : Option ℕ) : (scanOrder col).Pairwise fun x y => x.1 ≤ y.1 := by
  obtain ⟨h0, hl0⟩ := @rows_append [] 0 List.Pairwise.nil nofun (List.range NPROC)
  obtain ⟨h1, hl1⟩ := rows_append h0 (fun x hx => (hl0 x hx).trans (Nat.zero_le 1))
    (List.range NPROC)
  obtain ⟨h2, hl2⟩ := rows_append h1 (fun x hx => (hl1 x hx).trans (Nat.le_succ 1))
    (List.range NPROC)
  obtain ⟨h3, hl3⟩ := rows_append h2 (fun x hx => (hl2 x hx).trans (Nat.le_succ 2))
    (List.range' (col.getD 0) (NPROC - col.getD 0))
  exact (rows_append h3 hl3 (List.range (col.getD 0))).1

/-- Slot `x` of the table holds a RUNNABLE process. -/
def RunnableAt (k : Kernel) (x : Slot) : Prop :=
  IsSlot x ∧ ∃ p, k.queues x = some p ∧ (k.proc p).state = .RUNNABLE

/-- The only slots that differ are those of UNUSED processes, which are set to `NULL`. -/
def OnlyCleared (k k' : Kernel) : Prop :=
  ∀ x, k'.queues x = k.queues x ∨
    k'.queues x = none ∧ ∃ p, k.queues x = some p ∧ (k.proc p).state = .UNUSED

theorem scan_cleared (k : Kernel) (l : List Slot) :
    OnlyCleared k { k with queues := (scan k.proc l k.queues).1 } := by
  obtain ⟨h1, h2, -⟩ := scan_spec k.proc l k.queues
  intro x
  cases hx : (scan k.proc l k.queues).1 x with
  | some p => exact .inl (hx.trans (h1 x p hx).symm)
  | none =>
      cases hq : k.queues x with
      | none => exact .inl hx
      | some p =>
          refine .inr ⟨hx, p, rfl, ?_⟩
          by_contra hu
          have hkept := h2 x p hq hu
          rw [hx] at hkept
          cases hkept

/-- What the scan finds is RUNNABLE, and nothing is RUNNABLE at a higher level. -/
theorem scan_highest {k : Kernel} {col : Option ℕ} (hcol : ∀ i ∈ col, i < NPROC) {d : Dispatch}
    (h : (scan k.proc (scanOrder col) k.queues).2 = some d) :
    IsSlot d.q ∧ k.queues d.q = some d.p ∧ (k.proc d.p).state = .RUNNABLE ∧
      ∀ x, RunnableAt k x → d.q.1 ≤ x.1 := by
  rw [scan_snd, List.findSome?_eq_some_iff] at h
  obtain ⟨l₁, y, l₂, hl, hy, hfirst⟩ := h
  obtain ⟨rfl, hq, hrun⟩ := pick_eq_some.mp hy
  have hmem : d.q ∈ scanOrder col := hl ▸ List.mem_append_right l₁ List.mem_cons_self
  refine ⟨(mem_scanOrder hcol).mp hmem, hq, hrun, fun x ⟨hslot, p, hx, hp⟩ => ?_⟩
  have hpick : pick k x = some ⟨x, p⟩ := pick_eq_some.mpr ⟨rfl, hx, hp⟩
  have hx := (mem_scanOrder hcol).mpr hslot
  have hrows := scanOrder_rows col
  rw [hl] at hx hrows
  rcases List.mem_append.mp hx with hbefore | hbehind
  · rw [hfirst x hbefore] at hpick
    cases hpick
  · rcases List.mem_cons.mp hbehind with rfl | hbehind
    · exact Nat.le_refl _
    · exact (List.pairwise_cons.mp (List.pairwise_append.mp hrows).2.1).1 x hbehind

theorem scan_idle {k : Kernel} {col : Option ℕ} (hcol : ∀ i ∈ col, i < NPROC) :
    (scan k.proc (scanOrder col) k.queues).2 = none ↔ ∀ x, ¬ RunnableAt k x := by
  rw [scan_snd, List.findSome?_eq_none_iff]
  constructor
  · rintro h x ⟨hslot, p, hx, hp⟩
    have hpick : pick k x = some ⟨x, p⟩ := pick_eq_some.mpr ⟨rfl, hx, hp⟩
    rw [h x ((mem_scanOrder hcol).mpr hslot)] at hpick
    cases hpick
  · intro h x hx
    by_contra hpick
    obtain ⟨d, hd⟩ := Option.ne_none_iff_exists'.mp hpick
    obtain ⟨-, hq, hp⟩ := pick_eq_some.mp hd
    exact h x ⟨(mem_scanOrder hcol).mp hx, d.p, hq, hp⟩

theorem highest_level_first (k : Kernel) {l : Option Ptr} (hl : Produced l) :
    ((∃ x, RunnableAt k x) →
      ∃ e, (iteration swtch { kernel := k, lastRR := l }).ran = [e] ∧
        RunnableAt k (slot e.q) ∧ k.queues (slot e.q) = some e.p ∧
        (∀ x, RunnableAt k x → (slot e.q).1 ≤ x.1) ∧ OnlyCleared k e.kernel) ∧
    ((∀ x, ¬ RunnableAt k x) →
      (iteration swtch { kernel := k, lastRR := l }).ran = [] ∧
        OnlyCleared k (iteration swtch { kernel := k, lastRR := l }).kernel) := by
  obtain ⟨col, hcol, hl⟩ := hl.column
  generalize hs : Scheduler.mk k l [] = s
  have hk : s.kernel = k := hs ▸ rfl
  have hlast : s.lastRR = col.map (addr 3) := hs ▸ hl
  have hran : s.ran = [] := hs ▸ rfl
  rw [iteration_eq swtch s hcol hlast, hk]
  have hclear := scan_cleared k (scanOrder col)
  have hidle := scan_idle (k := k) hcol
  have hhigh := fun d => scan_highest (k := k) (d := d) hcol
  generalize scan k.proc (scanOrder col) k.queues = r at hclear hidle hhigh
  obtain ⟨qs, r⟩ := r
  cases r with
  | none =>
      have hno := hidle.mp rfl
      refine ⟨fun ⟨x, hx⟩ => absurd hx (hno x), fun _ => ⟨hran, ?_⟩⟩
      rw [← hk] at hclear ⊢
      exact hclear
  | some d =>
      obtain ⟨hslot, hq, hp, hmin⟩ := hhigh d rfl
      refine ⟨fun _ => ?_, fun hno => absurd ⟨hslot, d.p, hq, hp⟩ (hno d.q)⟩
      have hsq : slot (addr d.q.1 d.q.2) = d.q := slot_addr hslot.2
      refine ⟨⟨addr d.q.1 d.q.2, d.p, setRunning (s.setQueues qs).kernel d.p⟩, ?_, ?_⟩
      · rw [afterRow_ran, Scheduler.runs]
        exact congrArg (· ++ _) hran
      · rw [hsq]
        refine ⟨⟨hslot, d.p, hq, hp⟩, hq, hmin, ?_⟩
        intro x
        exact hclear x

end

/-- Process 0 sits in the last slot of the last row, at the end of its time slice. -/
def lastSlot : Kernel where
  proc p := if p = 0 then { state := .RUNNABLE, priority := 3, ticks := fun _ => 20 } else {}
  queues x := if x = (3, 63) then some 0 else none

/-- `lastRR` has gone round to the start of the row, and the process is found again. -/
theorem highest_level_first_lastSlot : ∃ e,
    (iteration id { kernel := lastSlot, lastRR := (iteration id { kernel := lastSlot }).lastRR }).ran
      = [e] ∧ ∀ x, RunnableAt lastSlot x → (slot e.q).1 ≤ x.1 := by
  obtain ⟨e, he, -, -, hmin, -⟩ :=
    (highest_level_first id lastSlot (.iteration id lastSlot .null)).1
      ⟨(3, 63), ⟨by decide, by decide⟩, 0, rfl, rfl⟩
  exact ⟨e, he, hmin⟩

/-! ## The steps of the machine -/

/-- The scheduler of CPU `c` is where the machine says it is. -/
structure AsIn (t : Scheduler) (m : Kernel) (c : ℕ) : Prop where
  proc : t.kernel.proc = m.proc
  queues : t.kernel.queues = m.queues
  lastRR : t.lastRR = (m.cpu c).lastRR.map (addr 3)

theorem demote_asIn {t : Scheduler} {m : Kernel} {c : ℕ} (h : AsIn t m c) {d : Dispatch}
    (hslot : IsSlot d.q) (hrow : d.q.1 < 3) :
    AsIn (demote d.q.1 (allotment d.q.1) t (addr d.q.1 d.q.2) d.p).1 (afterSwtch m c d) c := by
  have hsq : slot (addr d.q.1 d.q.2) = d.q := slot_addr hslot.2
  simp only [demote, afterSwtch, hsq, h.proc, hrow, if_true]
  split
  · exact ⟨by simp only [Kernel.setProc, h.proc], by simp only [Kernel.setProc, h.queues],
      by simpa [Kernel.setProc] using h.lastRR⟩
  · exact ⟨h.proc, h.queues, by simpa using h.lastRR⟩

theorem roundRobin_asIn {t : Scheduler} {m : Kernel} {c : ℕ} (h : AsIn t m c) {d : Dispatch}
    (hrow : d.q.1 = 3) :
    AsIn (roundRobin t (addr d.q.1 d.q.2) d.p).1 (afterSwtch m c d) c := by
  have hend : addr 3 d.q.2 = addr 3 (NPROC - 1) ↔ d.q.2 = NPROC - 1 := Nat.add_left_cancel_iff
  simp only [roundRobin, afterSwtch, hrow, h.proc, hend, allotment]
  split
  · split
    · exact ⟨by simp [Kernel.setProc, h.proc], by simp [Kernel.setProc, h.queues], by simp⟩
    · exact ⟨by simp [Kernel.setProc, h.proc], by simp [Kernel.setProc, h.queues],
        by simp [addr_succ]⟩
  · exact ⟨h.proc, h.queues, by simpa using h.lastRR⟩

theorem afterRow_asIn {t : Scheduler} {m : Kernel} {c : ℕ} (h : AsIn t m c) {d : Dispatch}
    (hslot : IsSlot d.q) :
    AsIn (afterRow d.q.1 t (addr d.q.1 d.q.2) d.p).1 (afterSwtch m c d) c := by
  obtain ⟨⟨row, i⟩, p⟩ := d
  match row with
  | 0 | 1 | 2 => exact demote_asIn h hslot (by simp)
  | 3 => exact roundRobin_asIn h rfl
  | row + 4 => exact absurd hslot.1 (by simp)

/-- An iteration on CPU `c` is a `dispatch`, whatever happens until the process gives the CPU up,
and `afterSwtch`. A process that comes back into `sleep` clears its `chan` after `swtch`. -/
theorem iteration_dispatch (swtch : Kernel → Kernel) (c : ℕ)
    (hswtch : ∀ k, ((swtch k).cpu c).lastRR = (k.cpu c).lastRR) {t : Scheduler} {s : Kernel}
    (hk : t.kernel = s) (hran : t.ran = []) (hl : t.lastRR = (s.cpu c).lastRR.map (addr 3))
    (hcol : ∀ i ∈ (s.cpu c).lastRR, i < NPROC) (hidle : (s.cpu c).current = none) :
    match ((dispatch s c).cpu c).current with
    | none => AsIn (iteration swtch t) (dispatch s c) c
    | some d => ∃ k, (iteration swtch t).ran = [⟨addr d.q.1 d.q.2, d.p, k⟩] ∧
        k.queues = (dispatch s c).queues ∧
        (dispatch s c).proc = Function.update k.proc d.p { k.proc d.p with chan := none } ∧
        AsIn (iteration swtch t) (afterSwtch (swtch k) c d) c := by
  rw [iteration_eq swtch t hcol hl, hk]
  unfold dispatch
  obtain ⟨-, -, hd⟩ := scan_spec s.proc (scanOrder (s.cpu c).lastRR) s.queues
  generalize scan s.proc (scanOrder (s.cpu c).lastRR) s.queues = r at hd
  obtain ⟨qs, r⟩ := r
  cases r with
  | none =>
      simp only [hidle]
      exact ⟨by rw [← hk]; rfl, rfl, hl⟩
  | some d =>
      have hslot := isSlot_of_mem_scanOrder hcol (hd d rfl).1
      simp only [Function.update_self]
      refine ⟨setRunning (t.setQueues qs).kernel d.p, ?_, rfl, ?_, ?_⟩
      · rw [afterRow_ran, Scheduler.runs]
        exact congrArg (· ++ _) hran
      · simp [setRunning, Kernel.setProc, Scheduler.setQueues, hk]
      · refine afterRow_asIn ⟨rfl, rfl, ?_⟩ hslot
        refine hl.trans (congrArg (Option.map (addr 3)) (Eq.trans ?_ (hswtch _).symm))
        rw [← hk]
        rfl

end IntroToOS.Mlfq

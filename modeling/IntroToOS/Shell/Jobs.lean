import IntroToOS.Lib.Buckets
import IntroToOS.Lib.Run
import IntroToOS.Shell.Command
import Mathlib.Algebra.Order.Ring.Int
import Mathlib.Data.List.Nodup

/-! # The job table

Translated from `process_line`, `execute_job` and `execute_inbuilt_command` of `Project2a/mysh.c`.
The buckets of `job_hash` are the sequences that the linked lists represent, and an entry shows the
fields of its job as they are written through the pointer to it. `running` are the children that
have not terminated. An `int` that overflows, an index outside of `job_hash` and the command `exit`
end the run. Calls of the library succeed.
-/

namespace IntroToOS.Shell
open Lib
set_option autoImplicit false

def HASH_SIZE : ℕ := 1000

/-- `job_t` -/
structure Job where
  jid : ℤ
  pid : ℕ
  bg : Bool
deriving DecidableEq

/-- The globals, the children, and the external commands that have been started. -/
structure Jobs where
  global_jid : ℤ := 0
  job_hash : ℕ → List Job := fun _ => []
  running : ℕ → Bool := fun _ => false
  started : List Job := []

/-- `jid % (HASH_SIZE + 1)` as an index of `job_hash`; the remainder of a negative number is not
one. -/
def hash_func (jid : ℤ) : Option ℕ :=
  if 0 ≤ jid.tmod (HASH_SIZE + 1) then some (jid.tmod (HASH_SIZE + 1)).toNat else none

/-- The jobs that `j` prints. -/
def listed (s : Jobs) : List Job :=
  let N := if s.global_jid < HASH_SIZE then s.global_jid else HASH_SIZE
  (List.range (N + 1).toNat).flatMap fun i => (s.job_hash i).filter fun job => job.bg && s.running job.pid

/-- The result of a built-in command: `some none` when it fails. -/
def execute_inbuilt_command (s : Jobs) : List Str → Option (Option Jobs)
  | [] => some (some s)
  | cmd :: args =>
    if cmd = chars "j" then some (some s)
    else if cmd = chars "exit" then none
    else
      let query_jid := queryJid (args.headD [])
      if query_jid = 0 then some none
      else (hash_func query_jid).map fun i =>
        match (s.job_hash i).find? fun job => job.jid = query_jid with
        | none => some s
        | some job =>
          if s.global_jid < query_jid then some s
          else some { s with running := Function.update s.running job.pid false }

/-- The last part of `execute_job`: the child runs, and is waited for unless there was an `&`. -/
def fork (s : Jobs) (job : Job) (wait_for_job : Bool) : Option Jobs :=
  if s.running job.pid then none
  else some { s with
    running := Function.update s.running job.pid (!wait_for_job)
    started := job :: s.started }

/-- `pid` is what `fork` returns, and `bg` what `malloc` leaves in that field of the job. -/
def process_line (s : Jobs) (line : Str) (pid : ℕ) (bg : Bool) : Option Jobs :=
  if tokens line = [] then some s
  else if s.global_jid + 1 = 2 ^ 31 then none
  else
    (hash_func (s.global_jid + 1)).bind fun i =>
      let args := (splitAmpersand (tokens line)).1
      let amp := (splitAmpersand (tokens line)).2
      let job : Job := ⟨s.global_jid + 1, pid, bg || amp⟩
      let table := Function.update s.job_hash i [job]
      let removed := Function.update table i ((table i).erase job)
      if args = [] then some { s with global_jid := s.global_jid + 1, job_hash := removed }
      else if is_inbuilt_command args then
        (execute_inbuilt_command { s with job_hash := removed } args).bind fun r =>
        match r with
        | some s => some s
        | none => fork { s with
            global_jid := s.global_jid + 1
            job_hash := Function.update removed i (job :: removed i) } job (!amp)
      else fork { s with global_jid := s.global_jid + 1, job_hash := table } job (!amp)

/-- A line is processed, or a child terminates. -/
inductive Step
  | line (s : Str) (pid : ℕ) (bg : Bool)
  | terminates (pid : ℕ)

def step (s : Jobs) : Step → Option Jobs
  | .line l pid bg => process_line s l pid bg
  | .terminates pid => some { s with running := Function.update s.running pid false }

/-! ## The property and the condition -/

/-- The table holds one entry for each external command that was started, the jids are distinct and
not above the last one given out, and every background job that is running is printed by `j` and
found by `myw`. -/
structure Consistent (s : Jobs) : Prop where
  entries : (contents (HASH_SIZE + 1) s.job_hash).Perm s.started
  distinct : (s.started.map Job.jid).Nodup
  bound : ∀ job ∈ s.started, job.jid ≤ s.global_jid
  listed : ∀ job ∈ s.started, job.bg → s.running job.pid → job ∈ listed s
  found : ∀ job ∈ s.started, job.bg → s.running job.pid → ∀ arg, queryJid arg = job.jid →
    execute_inbuilt_command s [chars "myw", arg] =
      some (some { s with running := Function.update s.running job.pid false })

/-- The bucket of the next jid is empty, and the jid is an `int`; a jid that is asked for has a
bucket. -/
def Roomy (s : Jobs) : Step → Prop
  | .line l _ _ => tokens l ≠ [] → s.global_jid + 1 < 2 ^ 31 ∧
      (∀ i, hash_func (s.global_jid + 1) = some i → s.job_hash i = []) ∧
      (is_inbuilt_command (splitAmpersand (tokens l)).1 → ∀ arg rest,
        (splitAmpersand (tokens l)).1 = chars "myw" :: arg :: rest → (hash_func (queryJid arg)).isSome)
  | .terminates _ => True

section
variable {s t : Jobs} {l : Str} {pid i : ℕ} {bg : Bool} {job : Job} {arg : Str}

/-- A built-in command that succeeds changes nothing but the children. -/
theorem execute_inbuilt_command_some {args : List Str}
    (h : execute_inbuilt_command s args = some (some t)) : ∃ running, t = { s with running } := by
  unfold execute_inbuilt_command at h
  split at h
  · exact ⟨s.running, (Option.some.inj (Option.some.inj h)).symm⟩
  split at h
  · exact ⟨s.running, (Option.some.inj (Option.some.inj h)).symm⟩
  split at h
  · cases h
  dsimp only at h
  split at h
  · cases Option.some.inj h
  obtain ⟨i, -, h⟩ := Option.map_eq_some_iff.mp h
  split at h
  · exact ⟨s.running, (Option.some.inj h).symm⟩
  split at h
  · exact ⟨s.running, (Option.some.inj h).symm⟩
  · exact ⟨_, (Option.some.inj h).symm⟩

theorem fork_eq {wait : Bool} (h : fork s job wait = some t) : t = { s with
    running := Function.update s.running job.pid (!wait)
    started := job :: s.started } := by
  unfold fork at h
  split at h
  · cases h
  · exact (Option.some.inj h).symm

/-- What a line can do: nothing; take a jid, or none, and leave the bucket of the next jid empty; or
start a command and leave its job alone in that bucket. -/
theorem process_line_cases (h : process_line s l pid bg = some t) :
    (tokens l = [] ∧ t = s) ∨ ∃ i, tokens l ≠ [] ∧ hash_func (s.global_jid + 1) = some i ∧
      ((∃ g running, (g = s.global_jid ∨ g = s.global_jid + 1) ∧
          t = { s with global_jid := g, running, job_hash := Function.update s.job_hash i [] }) ∨
        ∃ bg wait, t = { s with
          global_jid := s.global_jid + 1
          job_hash := Function.update s.job_hash i [⟨s.global_jid + 1, pid, bg⟩]
          running := Function.update s.running pid wait
          started := ⟨s.global_jid + 1, pid, bg⟩ :: s.started }) := by
  unfold process_line at h
  by_cases htokens : tokens l = []
  · rw [if_pos htokens] at h
    exact .inl ⟨htokens, (Option.some.inj h).symm⟩
  rw [if_neg htokens] at h
  split at h
  · cases h
  obtain ⟨i, hi, h⟩ := Option.bind_eq_some_iff.mp h
  simp only [Function.update_self, List.erase_cons_head, Function.update_idem] at h
  refine .inr ⟨i, htokens, hi, ?_⟩
  split at h
  · exact .inl ⟨_, _, .inr rfl, (Option.some.inj h).symm⟩
  split at h
  · obtain ⟨r, hr, h⟩ := Option.bind_eq_some_iff.mp h
    cases r with
    | none => exact .inr ⟨_, _, fork_eq h⟩
    | some u =>
        obtain rfl := Option.some.inj h
        obtain ⟨running, rfl⟩ := execute_inbuilt_command_some hr
        exact .inl ⟨s.global_jid, running, .inl rfl, rfl⟩
  · exact .inr ⟨_, _, fork_eq h⟩

/-- A built-in command fails, and is run as an external one, just when it is a `myw` without a
number. -/
theorem execute_inbuilt_command_none_iff {args : List Str} {r : Option Jobs}
    (hinbuilt : is_inbuilt_command args) (h : execute_inbuilt_command s args = some r) :
    r = none ↔ ∃ arg rest, args = chars "myw" :: arg :: rest ∧ queryJid arg = 0 := by
  cases args with
  | nil => cases hinbuilt
  | cons cmd rest =>
      rw [execute_inbuilt_command] at h
      rw [is_inbuilt_command] at hinbuilt
      by_cases hj : cmd = chars "j"
      · rw [if_pos hj] at h
        obtain rfl := Option.some.inj h
        simp [hj, chars]
      rw [if_neg hj] at h hinbuilt
      by_cases hexit : cmd = chars "exit"
      · rw [if_pos hexit] at h
        cases h
      rw [if_neg hexit] at h hinbuilt
      by_cases hmyw : cmd = chars "myw"
      · cases rest with
        | nil => simp [hmyw] at hinbuilt
        | cons arg rest =>
            dsimp only [List.headD_cons] at h
            subst hmyw
            by_cases hzero : queryJid arg = 0
            · rw [if_pos hzero] at h
              obtain rfl := Option.some.inj h
              exact iff_of_true rfl ⟨arg, rest, rfl, hzero⟩
            · rw [if_neg hzero] at h
              obtain ⟨i, -, hr⟩ := Option.map_eq_some_iff.mp h
              refine iff_of_false (fun hnone => ?_) ?_
              · rw [hnone] at hr
                split at hr
                · cases hr
                split at hr <;> cases hr
              · rintro ⟨arg', rest', he, hzero'⟩
                rw [List.cons.injEq, List.cons.injEq] at he
                rw [he.2.1] at hzero
                exact hzero hzero'
      · rw [if_neg hmyw] at hinbuilt
        cases hinbuilt

/-- A line that is processed starts a command just when it has a child. -/
theorem started_iff_child (h : process_line s l pid bg = some t) :
    t.started ≠ s.started ↔ (child l).isSome := by
  have hfork : ∀ {s u t : Jobs} {job : Job} {wait : Bool}, u.started = s.started →
      fork u job wait = some t → (t.started ≠ s.started ↔ True) := by
    intro s u t job wait hu h
    rw [fork_eq h]
    simp [hu]
  unfold process_line at h
  by_cases htokens : tokens l = []
  · rw [if_pos htokens] at h
    obtain rfl := Option.some.inj h
    simp [child, htokens, splitAmpersand]
  rw [if_neg htokens] at h
  split at h
  · cases h
  obtain ⟨i, hi, h⟩ := Option.bind_eq_some_iff.mp h
  dsimp only at h
  by_cases hnil : (splitAmpersand (tokens l)).1 = []
  · rw [if_pos hnil] at h
    obtain rfl := Option.some.inj h
    simp [child, hnil]
  rw [if_neg hnil] at h
  by_cases hinbuilt : is_inbuilt_command (splitAmpersand (tokens l)).1
  · rw [if_pos hinbuilt] at h
    obtain ⟨r, hr, h⟩ := Option.bind_eq_some_iff.mp h
    have hfails := execute_inbuilt_command_none_iff hinbuilt hr
    rw [child_isSome_iff hinbuilt, ← hfails]
    cases r with
    | none => exact (hfork rfl h).trans (iff_of_true trivial rfl)
    | some u =>
        obtain rfl := Option.some.inj h
        obtain ⟨running, rfl⟩ := execute_inbuilt_command_some hr
        simp
  · rw [if_neg hinbuilt] at h
    rw [hfork rfl h]
    simp [child, hnil, hinbuilt]

theorem hash_func_of_nonneg (jid : ℤ) (h : 0 ≤ jid) :
    ∃ i : ℕ, hash_func jid = some i ∧ (i : ℤ) = jid % 1001 := by
  refine ⟨(jid.tmod (HASH_SIZE + 1)).toNat, if_pos (Int.tmod_nonneg _ h), ?_⟩
  rw [Int.toNat_of_nonneg (Int.tmod_nonneg _ h), Int.tmod_eq_emod_of_nonneg h]
  rfl

/-- The entries of the table are the jobs that were started, each in the bucket of its jid. -/
structure Inv (s : Jobs) : Prop where
  entries : (contents (HASH_SIZE + 1) s.job_hash).Perm s.started
  bucket : ∀ i, ∀ job ∈ s.job_hash i, hash_func job.jid = some i
  distinct : (s.started.map Job.jid).Nodup
  range : ∀ job ∈ s.started, 1 ≤ job.jid ∧ job.jid ≤ s.global_jid
  nonneg : 0 ≤ s.global_jid

theorem inv_init : Inv {} where
  entries := by simp [contents]
  bucket := fun _ _ h => nomatch h
  distinct := List.nodup_nil
  range := fun _ h => nomatch h
  nonneg := Int.le_refl 0

/-- Taking a jid, or letting children terminate, keeps the invariant. -/
theorem Inv.frame (h : Inv s) {g : ℤ} (hg : s.global_jid ≤ g) (running : ℕ → Bool) :
    Inv { s with global_jid := g, running } where
  entries := h.entries
  bucket := h.bucket
  distinct := h.distinct
  range := fun job hjob => ⟨(h.range job hjob).1, Int.le_trans (h.range job hjob).2 hg⟩
  nonneg := Int.le_trans h.nonneg hg

/-- A job with the next jid is put into an empty bucket. -/
theorem Inv.start (h : Inv s) (hjid : job.jid = s.global_jid + 1) (hi : hash_func job.jid = some i)
    (hempty : s.job_hash i = []) (running : ℕ → Bool) : Inv { s with
      global_jid := s.global_jid + 1
      job_hash := Function.update s.job_hash i [job]
      running
      started := job :: s.started } := by
  have hnonneg := h.nonneg
  have hlt : i < HASH_SIZE + 1 := by
    obtain ⟨k, hk, hmod⟩ := hash_func_of_nonneg job.jid (by omega)
    rw [hk] at hi
    obtain rfl := Option.some.inj hi
    have hsize : HASH_SIZE = 1000 := rfl
    omega
  refine ⟨?_, fun j e he => ?_, ?_, fun e he => ?_, by dsimp only; omega⟩
  · have hinsert := contents_insert (f := s.job_hash) (x := job) hlt
    rw [hempty] at hinsert
    exact hinsert.trans (h.entries.cons job)
  · by_cases hij : j = i
    · subst hij
      dsimp only at he
      rw [Function.update_self] at he
      rw [List.mem_singleton.mp he, hi]
    · dsimp only at he
      rw [Function.update_of_ne hij] at he
      exact h.bucket j e he
  · rw [List.map_cons, List.nodup_cons]
    refine ⟨fun hmem => ?_, h.distinct⟩
    obtain ⟨e, he, hej⟩ := List.mem_map.mp hmem
    have hle := (h.range e he).2
    omega
  · obtain rfl | he := List.mem_cons.mp he
    · dsimp only
      omega
    · have hrange := h.range e he
      dsimp only
      omega

/-- Every step that meets the condition keeps the invariant. -/
theorem Inv.step {a : Step} (h : Inv s) (hroomy : Roomy s a) (hs : step s a = some t) : Inv t := by
  cases a with
  | terminates pid =>
      obtain rfl := Option.some.inj hs
      exact h.frame (Int.le_refl _) _
  | line l pid bg =>
      obtain ⟨-, rfl⟩ | ⟨i, htokens, hi, hcase⟩ := process_line_cases hs
      · exact h
      obtain ⟨-, hempty, -⟩ := hroomy htokens
      have hsame : Function.update s.job_hash i [] = s.job_hash := by
        rw [← hempty i hi, Function.update_eq_self]
      obtain ⟨g, running, hg, rfl⟩ | ⟨bg', wait, rfl⟩ := hcase
      · rw [hsame]
        exact h.frame (by omega) running
      · exact h.start rfl hi (hempty i hi) _

/-- A job that was started stands in the bucket of its jid. -/
theorem Inv.mem_bucket (h : Inv s) (hjob : job ∈ s.started) :
    ∃ i : ℕ, hash_func job.jid = some i ∧ (i : ℤ) = job.jid % 1001 ∧ job ∈ s.job_hash i := by
  obtain ⟨j, -, hj⟩ := mem_contents.mp (h.entries.mem_iff.mpr hjob)
  have hrange := h.range job hjob
  obtain ⟨i, hi, hmod⟩ := hash_func_of_nonneg job.jid (by omega)
  have hij := h.bucket j job hj
  rw [hi] at hij
  obtain rfl := Option.some.inj hij
  exact ⟨i, hi, hmod, hj⟩

theorem Inv.listed (h : Inv s) (hjob : job ∈ s.started) (hbg : job.bg) (hrun : s.running job.pid) :
    job ∈ listed s := by
  obtain ⟨i, -, hmod, hmem⟩ := h.mem_bucket hjob
  have hrange := h.range job hjob
  have hsize : HASH_SIZE = 1000 := rfl
  refine List.mem_flatMap.mpr ⟨i, List.mem_range.mpr ?_, List.mem_filter.mpr ⟨hmem, by simp [hbg, hrun]⟩⟩
  split
  · omega
  · omega

theorem Inv.found (h : Inv s) (hjob : job ∈ s.started) (harg : queryJid arg = job.jid) :
    execute_inbuilt_command s [chars "myw", arg] =
      some (some { s with running := Function.update s.running job.pid false }) := by
  obtain ⟨i, hi, hmod, hmem⟩ := h.mem_bucket hjob
  have hrange := h.range job hjob
  have hfind : (s.job_hash i).find? (fun e => e.jid = job.jid) = some job := by
    obtain ⟨e, he⟩ := Option.isSome_iff_exists.mp
      (List.find?_isSome.mpr ⟨job, hmem, decide_eq_true rfl⟩ :
        ((s.job_hash i).find? fun e => e.jid = job.jid).isSome)
    have hejid : e.jid = job.jid := by simpa using List.find?_some he
    have hstarted : e ∈ s.started := by
      refine h.entries.mem_iff.mp (mem_contents.mpr ⟨i, ?_, List.mem_of_find?_eq_some he⟩)
      have hsize : HASH_SIZE = 1000 := rfl
      omega
    rw [he, List.inj_on_of_nodup_map h.distinct hstarted hjob hejid]
  rw [execute_inbuilt_command, if_neg (by decide), if_neg (by decide)]
  dsimp only [List.headD_cons]
  rw [harg, if_neg (by omega), hi, Option.map_some, hfind]
  dsimp only
  rw [if_neg (by omega)]

theorem Inv.consistent (h : Inv s) : Consistent s where
  entries := h.entries
  distinct := h.distinct
  bound := fun job hjob => (h.range job hjob).2
  listed := fun _ hjob hbg hrun => h.listed hjob hbg hrun
  found := fun _ hjob _ _ _ harg => h.found hjob harg

/-- A built-in command other than `exit` is carried out, when the jid it asks for has a bucket. -/
theorem execute_inbuilt_command_isSome {args : List Str} (hinbuilt : is_inbuilt_command args)
    (hexit : args.head? ≠ some (chars "exit"))
    (hmyw : ∀ arg rest, args = chars "myw" :: arg :: rest → (hash_func (queryJid arg)).isSome) :
    (execute_inbuilt_command s args).isSome := by
  cases args with
  | nil => rfl
  | cons cmd rest =>
      have hne : cmd ≠ chars "exit" := fun he => hexit (congrArg some he)
      rw [execute_inbuilt_command]
      by_cases hj : cmd = chars "j"
      · rw [if_pos hj]
        rfl
      rw [if_neg hj, if_neg hne]
      rw [is_inbuilt_command, if_neg hj, if_neg hne] at hinbuilt
      by_cases hcmd : cmd = chars "myw"
      · cases rest with
        | nil => simp [hcmd] at hinbuilt
        | cons arg rest =>
            dsimp only [List.headD_cons]
            by_cases hzero : queryJid arg = 0
            · rw [if_pos hzero]
              rfl
            · rw [if_neg hzero, Option.isSome_map]
              exact hmyw arg rest (by rw [hcmd])
      · rw [if_neg hcmd] at hinbuilt
        cases hinbuilt

/-- A line that meets the condition and does not end the shell is processed. -/
theorem process_line_isSome (h : Inv s) (hroomy : Roomy s (.line l pid bg)) (hexit : exits l = false)
    (hpid : s.running pid = false) : (process_line s l pid bg).isSome := by
  have hfork : ∀ {s : Jobs} {wait : Bool} {bg : Bool} {g : ℤ}, s.running pid = false →
      (fork s ⟨g, pid, bg⟩ wait).isSome := by
    intro s wait bg g hs
    simp [fork, hs]
  unfold process_line
  by_cases htokens : tokens l = []
  · simp [htokens]
  obtain ⟨hint, -, hmyw⟩ := hroomy htokens
  have hnonneg := h.nonneg
  obtain ⟨i, hi, -⟩ := hash_func_of_nonneg (s.global_jid + 1) (by omega)
  rw [if_neg htokens, if_neg (by omega), hi, Option.bind_some]
  dsimp only
  by_cases hnil : (splitAmpersand (tokens l)).1 = []
  · rw [if_pos hnil]
    rfl
  rw [if_neg hnil]
  by_cases hinbuilt : is_inbuilt_command (splitAmpersand (tokens l)).1
  · have hhead : (splitAmpersand (tokens l)).1.head? ≠ some (chars "exit") := by
      intro he
      simp [exits, hinbuilt, he] at hexit
    rw [if_pos hinbuilt]
    obtain ⟨r, hr⟩ := Option.isSome_iff_exists.mp (execute_inbuilt_command_isSome hinbuilt hhead (hmyw hinbuilt))
    rw [hr, Option.bind_some]
    cases r with
    | none => exact hfork hpid
    | some u => rfl
  · rw [if_neg hinbuilt]
    exact hfork hpid

/-- As long as every line finds the bucket of its jid empty, the job table is consistent, and the
lines are processed. -/
theorem jobs_consistent_of_run (h : Run step Roomy {} s) : Consistent s ∧ ∀ l pid bg,
    Roomy s (.line l pid bg) → exits l = false → s.running pid = false →
      (step s (.line l pid bg)).isSome := by
  have hinv : Inv s := h.invariant inv_init fun _ _ _ hi hroomy hs => hi.step hroomy hs
  exact ⟨hinv.consistent, fun l pid bg => process_line_isSome hinv⟩

end

/-! ## More lines than buckets -/

/-- A line that starts a command in the background. -/
theorem background_line (s : Jobs) (pid : ℕ) {i : ℕ} (hg : s.global_jid + 1 ≠ 2 ^ 31)
    (hi : hash_func (s.global_jid + 1) = some i) (hpid : s.running pid = false) :
    step s (.line (chars "a &") pid false) = some { s with
      global_jid := s.global_jid + 1
      job_hash := Function.update s.job_hash i [⟨s.global_jid + 1, pid, true⟩]
      running := Function.update s.running pid true
      started := ⟨s.global_jid + 1, pid, true⟩ :: s.started } := by
  have htokens : tokens (chars "a &") = [chars "a", chars "&"] := by decide
  have hargs : splitAmpersand [chars "a", chars "&"] = ([chars "a"], true) := by decide
  have hnot : is_inbuilt_command [chars "a"] = false := by decide
  rw [step, process_line, if_neg (by rw [htokens]; exact List.cons_ne_nil _ _), if_neg hg, hi]
  simp [htokens, hargs, hnot, fork, hpid]

def IsBackground (_ : Jobs) (a : Step) : Prop := ∃ pid, a = .line (chars "a &") pid false

theorem background_roomy {s : Jobs} {pid : ℕ} (h : Inv s) (hg : s.global_jid ≤ 1000) :
    Roomy s (.line (chars "a &") pid false) := by
  intro _
  have hnonneg := h.nonneg
  refine ⟨by omega, fun i hi => ?_, fun _ arg rest he => ?_⟩
  · -- the jids in the table are below the next one by less than the number of buckets
    apply List.eq_nil_iff_forall_not_mem.mpr
    intro job hjob
    obtain ⟨k, hk, hmod⟩ := hash_func_of_nonneg (s.global_jid + 1) (by omega)
    rw [hi] at hk
    obtain rfl := Option.some.inj hk
    have hsize : HASH_SIZE = 1000 := rfl
    have hrange := h.range job (h.entries.mem_iff.mp (mem_contents.mpr ⟨i, by omega, hjob⟩))
    obtain ⟨k, hk, hmod'⟩ := hash_func_of_nonneg job.jid (by omega)
    rw [h.bucket i job hjob] at hk
    obtain rfl := Option.some.inj hk
    omega
  · have hargs : (splitAmpersand (tokens (chars "a &"))).1 = [chars "a"] := by decide
    rw [hargs] at he
    exact absurd (List.cons.inj he).1 (by decide)

/-- The first background commands all stand in the table. -/
theorem fill (n : ℕ) (hn : n ≤ 1001) : ∃ s, Run step Roomy {} s ∧ Run step IsBackground {} s ∧
    s.global_jid = n ∧ (∀ pid, n ≤ pid → s.running pid = false) ∧
      (0 < n → ⟨1, 0, true⟩ ∈ s.started) := by
  induction n with
  | zero => exact ⟨{}, .refl, .refl, rfl, fun _ _ => rfl, fun h => nomatch h⟩
  | succ n ih =>
      obtain ⟨s, hrun, hback, hg, hfree, hfirst⟩ := ih (by omega)
      have hinv : Inv s := hrun.invariant inv_init fun _ _ _ hi hroomy hs => hi.step hroomy hs
      obtain ⟨i, hi, -⟩ := hash_func_of_nonneg (s.global_jid + 1) (by omega)
      have hline := background_line _ _ (by omega) hi (hfree n (Nat.le_refl n))
      refine ⟨_, hrun.tail _ (background_roomy hinv (by omega)) hline, hback.tail _ ⟨n, rfl⟩ hline,
        by dsimp only; omega, fun pid hpid => ?_, fun _ => ?_⟩
      · dsimp only
        rw [Function.update_of_ne (by omega)]
        exact hfree pid (by omega)
      · by_cases hzero : n = 0
        · subst hzero
          simp [hg]
        · exact List.mem_cons_of_mem _ (hfirst (by omega))

theorem consistent_one : ∃ s : Jobs, s.started = [⟨1, 0, true⟩] ∧ Consistent s := by
  obtain ⟨i, hi, -⟩ := hash_func_of_nonneg (({} : Jobs).global_jid + 1) (by decide)
  have hline := background_line {} 0 (by decide) hi rfl
  have h := Run.single _ (background_roomy inv_init (by decide)) hline
  exact ⟨_, rfl, (jobs_consistent_of_run h).1⟩

/-- After 1002 background commands the first of them has lost its entry, though it is running. -/
theorem job_lost : ¬ ∀ s, Run step IsBackground {} s → Consistent s := by
  intro hall
  obtain ⟨s, hrun, hback, hg, hfree, hfirst⟩ := fill 1001 (Nat.le_refl _)
  have hinv : Inv s := hrun.invariant inv_init fun _ _ _ hi hroomy hs => hi.step hroomy hs
  have hone : hash_func 1 = some 1 := by decide
  have hi : hash_func (s.global_jid + 1) = some 1 := by
    rw [hg]
    decide
  have hline := background_line _ _ (by omega) hi (hfree 1001 (Nat.le_refl _))
  have hconsistent := hall _ (hback.tail _ ⟨1001, rfl⟩ hline)
  obtain ⟨j, -, hj⟩ := mem_contents.mp
    (hconsistent.entries.mem_iff.mpr (List.mem_cons_of_mem _ (hfirst (by omega))))
  dsimp only at hj
  by_cases hj1 : j = 1
  · rw [hj1, Function.update_self, List.mem_singleton, Job.mk.injEq] at hj
    omega
  · rw [Function.update_of_ne hj1] at hj
    have hbucket := hinv.bucket j _ hj
    rw [hone] at hbucket
    exact hj1 (Option.some.inj hbucket).symm

end IntroToOS.Shell

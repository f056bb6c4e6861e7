import IntroToOS.CheckedFs.Checksums

/-! # A plain file and a checked one

The same calls on a fresh plain file and on a fresh checked file. What the caller sees of a run is
determined by the file alone (`outcomes_eq`), so the two runs are compared as runs of `File.write`
and `File.read`. They differ in one thing: a write to a checked file ends the file where the write
ends.
-/

namespace IntroToOS.CheckedFs
open Lib
set_option autoImplicit false

/-- The calls on one file. -/
inductive Op
  | writei (src : ℕ → Byte) (off n : BitVec 32)
  | readi (off n : BitVec 32)

def Op.call (inum : ℕ) : Op → Call
  | .writei src off n => .writei inum src off n
  | .readi off n => .readi inum off n

/-- What a call returns and reads, and `ip->size` after it. -/
structure Outcome where
  ret : ℤ
  dst : List Byte
  size : ℕ
  deriving DecidableEq

def outcomes (inum : ℕ) : List Op → Fs → Kern (Fs × List Outcome)
  | [], s => .ok (s, [])
  | op :: ops, s => do
    let (s, r) ← call s (op.call inum)
    let ip ← ilock s inum
    let (s, os) ← outcomes inum ops s
    .ok (s, { ret := r.ret, dst := r.dst, size := ip.size } :: os)

/-- No call of the run meets a full disk. -/
def enough (inum : ℕ) : List Op → Fs → Bool
  | [], s => !s.exhausted
  | op :: ops, s => !s.exhausted && match call s (op.call inum) with
    | .ok (t, _) => enough inum ops t
    | .error e => e.panic ≠ .outOfBlocks

/-! ## Runs on a file -/

def File.apply (checked : Bool) (f : File) : Op → File × Outcome
  | .writei src off n =>
    let (f, ret) := f.write checked src off.toNat n.toNat
    (f, { ret, dst := [], size := f.size })
  | .readi off n =>
    let (ret, dst) := f.read off.toNat n.toNat
    (f, { ret, dst, size := f.size })

def File.outcomes (checked : Bool) : List Op → File → List Outcome
  | [], _ => []
  | op :: ops, f => (f.apply checked op).2 :: File.outcomes checked ops (f.apply checked op).1

section
variable {s t : Fs} {i : ℕ} {ip : Inode} {op : Op} {ops : List Op}

theorem ilock_of_cached (hc : s.inode i = some ip) : ilock s i = .ok ip := by
  rw [ilock, hc]

/-- One call, on the disk and on the file. -/
theorem call_refines (h : Valid s) (hc : s.inode i = some ip) (hdev : ip.type ≠ T_DEV)
    {r : Reply} (hcall : call s (op.call i) = .ok (t, r)) (hex : t.exhausted = false) :
    Valid t ∧ ∃ jp, t.inode i = some jp ∧ jp.type = ip.type ∧
      (fileOf s ip).apply (ip.type = T_CHECKED) op =
        (fileOf t jp, { ret := r.ret, dst := r.dst, size := jp.size }) := by
  have hvalid : Valid t := by
    refine call_valid h hcall hex ?_
    cases op <;> rfl
  obtain ⟨hd, hi⟩ := h.cached i ip hc
  refine ⟨hvalid, ?_⟩
  cases op with
  | writei src off n =>
      obtain ⟨ip', hl, hcall⟩ := bind_eq_ok.mp hcall
      obtain rfl : ip = ip' := Except.ok.inj ((ilock_of_cached hc).symm.trans hl)
      obtain ⟨⟨u, jp, ret⟩, hw, hcall⟩ := bind_eq_ok.mp hcall
      obtain ⟨rfl, rfl⟩ := Prod.mk.inj (Except.ok.inj hcall)
      obtain ⟨hu, hfile⟩ := writei_spec h.sound hd hi hdev hw hex
      refine ⟨jp, by simp [Fs.setInode], hu.type, ?_⟩
      simp only [File.apply, ← hfile]
      rfl
  | readi off n =>
      obtain ⟨ip', hl, hcall⟩ := bind_eq_ok.mp hcall
      obtain rfl : ip = ip' := Except.ok.inj ((ilock_of_cached hc).symm.trans hl)
      obtain ⟨⟨u, jp, ret, dst⟩, hr, hcall⟩ := bind_eq_ok.mp hcall
      obtain ⟨rfl, rfl⟩ := Prod.mk.inj (Except.ok.inj hcall)
      have hsound : Sound s (table s i ip) := by
        rw [table_eq hd]
        exact h.sound
      rw [readi_eq hsound hi hdev] at hr
      obtain ⟨rfl, rfl, hread⟩ := by simpa only [Except.ok.injEq, Prod.mk.injEq] using hr
      refine ⟨ip, by simp [Fs.setInode], rfl, ?_⟩
      simp only [File.apply, hread]
      rfl

/-- The only panic of a call on a file is that of a full disk. -/
theorem panic_of_call (h : Valid s) (hc : s.inode i = some ip) (hdev : ip.type ≠ T_DEV) {e : Halt}
    (hcall : call s (op.call i) = .error e) : e.panic = .outOfBlocks := by
  obtain ⟨hd, hi⟩ := h.cached i ip hc
  cases op with
  | writei src off n =>
      rcases bind_eq_error.mp hcall with hl | ⟨ip', hl, hcall⟩
      · rw [ilock_of_cached hc] at hl
        cases hl
      · obtain rfl : ip = ip' := Except.ok.inj ((ilock_of_cached hc).symm.trans hl)
        rcases bind_eq_error.mp hcall with hw | ⟨_, _, hcall⟩
        · have hsize := h.sound.size_le i
          rw [hd] at hsize
          exact panic_of_writei (hsize hi) hdev hw
        · cases hcall
  | readi off n =>
      rcases bind_eq_error.mp hcall with hl | ⟨ip', hl, hcall⟩
      · rw [ilock_of_cached hc] at hl
        cases hl
      · obtain rfl : ip = ip' := Except.ok.inj ((ilock_of_cached hc).symm.trans hl)
        have hsound : Sound s (table s i ip) := by
          rw [table_eq hd]
          exact h.sound
        rw [readi_eq hsound hi hdev] at hcall
        cases hcall

theorem exhausted_of_enough (h : enough i ops s) : s.exhausted = false := by
  cases ops with
  | nil => simpa [enough] using h
  | cons op ops => simpa [enough] using (Bool.and_eq_true_iff.mp h).1

/-- A run with enough blocks returns, and its outcomes are those of the file. -/
theorem outcomes_eq (h : Valid s) (hc : s.inode i = some ip) (hdev : ip.type ≠ T_DEV)
    (hen : enough i ops s) :
    ∃ t, outcomes i ops s = .ok (t, (fileOf s ip).outcomes (ip.type = T_CHECKED) ops) := by
  induction ops generalizing s ip with
  | nil => exact ⟨s, rfl⟩
  | cons op ops ih =>
      have hcall := (Bool.and_eq_true_iff.mp hen).2
      cases hres : call s (op.call i) with
      | error e =>
          rw [hres] at hcall
          exact absurd (panic_of_call h hc hdev hres) (of_decide_eq_true hcall)
      | ok p =>
          obtain ⟨t, r⟩ := p
          rw [hres] at hcall
          obtain ⟨ht, jp, hj, htype, happly⟩ :=
            call_refines h hc hdev hres (exhausted_of_enough hcall)
          obtain ⟨u, hu⟩ := ih ht hj (by rwa [htype]) hcall
          refine ⟨u, ?_⟩
          simp only [outcomes, hres, ok_bind, ilock_of_cached hj, hu]
          rw [File.outcomes, happly, htype]

/-! ## Where the two files differ -/

/-- No write that transfers a byte ends below the size that the file has by then. -/
def NeverEndsBelow : List Op → ℕ → Prop
  | [], _ => True
  | .readi _ _ :: ops, size => NeverEndsBelow ops size
  | .writei _ off n :: ops, size =>
    if size < off.toNat ∨ wraps off.toNat n.toNat ∨ clip off.toNat n.toNat = 0 then
      NeverEndsBelow ops size
    else
      size ≤ off.toNat + clip off.toNat n.toNat ∧
        NeverEndsBelow ops (off.toNat + clip off.toNat n.toNat)

instance NeverEndsBelow.decidable : ∀ ops size, Decidable (NeverEndsBelow ops size)
  | [], _ => isTrue trivial
  | .readi _ _ :: ops, size => NeverEndsBelow.decidable ops size
  | .writei _ off n :: ops, size =>
    have := NeverEndsBelow.decidable ops
    inferInstanceAs (Decidable (if size < off.toNat ∨ wraps off.toNat n.toNat ∨
      clip off.toNat n.toNat = 0 then _ else _ ∧ _))

theorem write_checked_eq (f : File) (src : ℕ → Byte) {off n : ℕ}
    (h : f.size < off ∨ wraps off n ∨ clip off n = 0 ∨ f.size ≤ off + clip off n) :
    f.write true src off n = f.write false src off n := by
  unfold File.write
  by_cases hbad : f.size < off ∨ wraps off n
  · rw [if_pos hbad, if_pos hbad]
  · rw [if_neg hbad, if_neg hbad]
    have hend : clip off n = 0 ∨ f.size ≤ off + clip off n := by tauto
    have hsize : (if 0 < clip off n ∧ (true ∨ f.size < off + clip off n)
        then off + clip off n else f.size) =
        if 0 < clip off n ∧ (false ∨ f.size < off + clip off n)
        then off + clip off n else f.size := by
      simp only [true_or, Bool.false_eq_true, false_or, and_true]
      split <;> split <;> omega
    exact congrArg (fun size => (File.mk size (patch f.byte off (clip off n) src), (clip off n : ℤ)))
      hsize

theorem write_size (f : File) (checked : Bool) (src : ℕ → Byte) {off n : ℕ}
    (h : ¬ (f.size < off ∨ wraps off n)) (hpos : 0 < clip off n) :
    (f.write checked src off n).1.size =
      if checked ∨ f.size < off + clip off n then off + clip off n else f.size := by
  rw [File.write, if_neg h]
  simp [hpos]

theorem write_size_of_refused (f : File) (checked : Bool) (src : ℕ → Byte) {off n : ℕ}
    (h : f.size < off ∨ wraps off n ∨ clip off n = 0) :
    (f.write checked src off n).1.size = f.size := by
  unfold File.write
  split
  · rfl
  · next hok =>
    have hzero : clip off n = 0 := by
      rcases h with h | h | h
      · exact absurd (.inl h) hok
      · exact absurd (.inr h) hok
      · exact h
    simp [hzero]

theorem outcomes_eq_iff (f : File) :
    f.outcomes true ops = f.outcomes false ops ↔ NeverEndsBelow ops f.size := by
  induction ops generalizing f with
  | nil => simp [File.outcomes, NeverEndsBelow]
  | cons op ops ih =>
      cases op with
      | readi off n =>
          simp only [File.outcomes, File.apply, List.cons.injEq, true_and]
          exact ih f
      | writei src off n =>
          simp only [File.outcomes, File.apply, List.cons.injEq, NeverEndsBelow]
          by_cases hno : f.size < off.toNat ∨ wraps off.toNat n.toNat ∨
              clip off.toNat n.toNat = 0
          · have hsame : f.write true src off.toNat n.toNat = f.write false src off.toNat n.toNat :=
              write_checked_eq f src (by tauto)
            rw [if_pos hno, hsame]
            simp only [true_and]
            rw [ih, write_size_of_refused f _ src hno]
          · rw [if_neg hno]
            have hok : ¬ (f.size < off.toNat ∨ wraps off.toNat n.toNat) := by tauto
            have hpos : 0 < clip off.toNat n.toNat := Nat.pos_of_ne_zero (by tauto)
            by_cases hle : f.size ≤ off.toNat + clip off.toNat n.toNat
            · have hsame :
                  f.write true src off.toNat n.toNat = f.write false src off.toNat n.toNat :=
                write_checked_eq f src (by tauto)
              rw [← hsame]
              simp only [true_and, hle]
              rw [ih, write_size f true src hok hpos, if_pos (.inl rfl)]
            · -- the checked file ends where the write ends, the plain one stays as long as it was
              have hne : (f.write true src off.toNat n.toNat).1.size ≠
                  (f.write false src off.toNat n.toNat).1.size := by
                have hnot : ¬ (false = true ∨ f.size < off.toNat + clip off.toNat n.toNat) := by
                  rintro (h | h)
                  · cases h
                  · omega
                rw [write_size f true src hok hpos, write_size f false src hok hpos,
                  if_pos (.inl rfl), if_neg hnot]
                omega
              constructor
              · rintro ⟨hout, -⟩
                exact absurd (congrArg Outcome.size hout) hne
              · rintro ⟨h, -⟩
                exact absurd h hle

/-! ## The two runs -/

/-- Inode `i` fresh from `create`. -/
def fresh (s : Fs) (i type : ℕ) : Fs := s.putInode i { type, nlink := 1 }

theorem fileOf_fresh (s : Fs) (i type : ℕ) :
    fileOf (fresh s i type) { type, nlink := 1 } = ⟨0, fun _ => 0⟩ := by
  refine congrArg (File.mk 0) (funext fun o => ?_)
  rw [fileByte, pointer_of_addrs_zero (fun _ _ => rfl), if_pos rfl]

theorem outcomes_fresh (h : Valid s) (hfree : (s.dinode i).type = 0) {type : ℕ} (ht : type ≠ 0)
    (hdev : type ≠ T_DEV) (hen : enough i ops (fresh s i type)) :
    ∃ t, outcomes i ops (fresh s i type) =
      .ok (t, File.outcomes (type = T_CHECKED) ops ⟨0, fun _ => 0⟩) := by
  have hvalid : Valid (fresh s i type) := h.fresh hfree ht 0 0
  have hin : (fresh s i type).inode i = some { type, nlink := 1 } := by
    simp [fresh, Fs.putInode, Fs.setInode]
  have := outcomes_eq hvalid hin hdev hen
  rwa [fileOf_fresh] at this

/-- With enough blocks, the run on a checked file and the run on a plain file look the same to
their callers if and only if no write ends within the file. -/
theorem checked_outcomes_eq_iff (h : Valid s) (hfree : (s.dinode i).type = 0)
    (hplain : enough i ops (fresh s i T_FILE)) (hchecked : enough i ops (fresh s i T_CHECKED)) :
    ∃ t u os os', outcomes i ops (fresh s i T_FILE) = .ok (t, os) ∧
      outcomes i ops (fresh s i T_CHECKED) = .ok (u, os') ∧
      (os' = os ↔ NeverEndsBelow ops 0) := by
  obtain ⟨t, ht⟩ := outcomes_fresh h hfree (by decide) (by decide) hplain
  obtain ⟨u, hu⟩ := outcomes_fresh h hfree (by decide) (by decide) hchecked
  exact ⟨t, u, _, _, ht, hu, outcomes_eq_iff ⟨0, fun _ => 0⟩⟩

end

/-- Ten bytes, and three more behind them. -/
def appends : List Op := [.writei (fun _ => 7) 0 10, .writei (fun _ => 8) 10 3, .readi 5 8]

theorem appends_same : ∃ t u os, outcomes 1 appends (fresh emptyFs 1 T_FILE) = .ok (t, os) ∧
    outcomes 1 appends (fresh emptyFs 1 T_CHECKED) = .ok (u, os) := by
  have hplain : enough 1 appends (fresh emptyFs 1 T_FILE) = true := by decide +kernel
  have hchecked : enough 1 appends (fresh emptyFs 1 T_CHECKED) = true := by decide +kernel
  obtain ⟨t, u, os, os', ht, hu, hiff⟩ :=
    checked_outcomes_eq_iff emptyFs_initial.valid rfl hplain hchecked
  have hsame : os' = os := hiff.mpr (by decide)
  exact ⟨t, u, os, ht, hsame ▸ hu⟩

/-- Ten bytes, the first of which is overwritten. -/
def overwrite : List Op := [.writei (fun _ => 7) 0 10, .writei (fun _ => 8) 0 1]

/-- The plain file keeps its ten bytes, the checked one is left with one. -/
theorem overwrite_shrinks : Valid emptyFs ∧ (emptyFs.dinode 1).type = 0 ∧
    enough 1 overwrite (fresh emptyFs 1 T_FILE) ∧ enough 1 overwrite (fresh emptyFs 1 T_CHECKED) ∧
    (outcomes 1 overwrite (fresh emptyFs 1 T_FILE)).toOption.map Prod.snd =
      some [⟨10, [], 10⟩, ⟨1, [], 10⟩] ∧
    (outcomes 1 overwrite (fresh emptyFs 1 T_CHECKED)).toOption.map Prod.snd =
      some [⟨10, [], 10⟩, ⟨1, [], 1⟩] :=
  ⟨emptyFs_initial.valid, rfl, by decide +kernel, by decide +kernel, by decide +kernel,
    by decide +kernel⟩

end IntroToOS.CheckedFs

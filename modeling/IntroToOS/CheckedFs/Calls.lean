import IntroToOS.CheckedFs.Write

/-! # What the calls do

`Valid` is the invariant between two calls: the disk is sound and the in-core copies are those of
the disk. `writei` updates one inode and keeps all other files (`Updates`), and what becomes of
the file is `File.write`. Every call that frees nothing keeps a file system valid.
-/

namespace IntroToOS.CheckedFs
open Lib
set_option autoImplicit false

structure Valid (s : Fs) : Prop where
  sound : Sound s s.dinode
  cached : ∀ i, ∀ ip ∈ s.inode i, s.dinode i = ip ∧ ip.type ≠ 0

/-- Inode `i` becomes `ip'` on disk, and no other file changes. -/
structure Updates (i : ℕ) (s : Fs) (ip : Inode) (s' : Fs) (ip' : Inode) : Prop where
  sound : Sound s' s'.dinode
  dinode : s'.dinode = Function.update s.dinode i ip'
  inode : s'.inode = s.inode
  freed : s'.freed = s.freed
  type : ip'.type = ip.type
  others : ∀ j, j ≠ i → (s.dinode j).type ≠ 0 →
    fileOf s' (s.dinode j) = fileOf s (s.dinode j)

section
variable {i : ℕ} {s s' : Fs} {ip ip' : Inode} {off n : ℕ} {src : ℕ → Byte} {ret : ℤ}

theorem table_eq (hd : s.dinode i = ip) : table s i ip = s.dinode := by
  rw [table, ← hd, Function.update_eq_self]

theorem Updates.refl (h : Sound s s.dinode) (hd : s.dinode i = ip) : Updates i s ip s ip :=
  ⟨h, by rw [← hd, Function.update_eq_self], rfl, rfl, rfl, fun _ _ _ => rfl⟩

theorem Updates.of_extends (h : Extends i s ip s' ip) (hd : s.dinode i = ip) :
    Updates i s ip s' ip where
  sound := by
    have := h.sound
    rwa [table_eq (by rw [h.rest.dinode]; exact hd)] at this
  dinode := by rw [← hd, Function.update_eq_self, h.rest.dinode]
  inode := h.rest.inode
  freed := h.rest.freed
  type := rfl
  others := fun j hj hu => congrArg (File.mk _) (h.others j hj hu)

/-- Writing the inode back with a size that its blocks cover. -/
theorem Updates.of_iupdate {size : ℕ} (h : Extends i s ip s' ip')
    (hmax : size ≤ MAXFILE * BSIZE)
    (hcov : ∀ k, k * BSIZE < size → pointer s'.block ip' (.data k) ≠ 0) :
    Updates i s ip (iupdate s' i { ip' with size }) { ip' with size } where
  sound := by
    refine h.sound.congr rfl rfl rfl rfl ?_ ?_ ?_ <;> intro j <;> by_cases hj : j = i
    · subst hj
      simp [iupdate, table]
    · simp [iupdate, table, hj]
    · subst hj
      simp [iupdate, table]
    · simp [iupdate, table, hj]
    · subst hj
      intro _
      rw [table_self]
      exact .inr ⟨by simpa [iupdate] using hmax, by simpa [iupdate] using hcov⟩
    · intro _
      simp [iupdate, table, hj]
  dinode := by rw [iupdate, h.rest.dinode]
  inode := h.rest.inode
  freed := h.rest.freed
  type := h.type
  others := fun j hj hu => congrArg (File.mk _) (h.others j hj hu)

/-! ## `writei` -/

theorem clip_le (hoff : off ≤ MAXFILE * BSIZE) : off + clip off n ≤ MAXFILE * BSIZE := by
  unfold clip
  split <;> omega

theorem writei_eq (hdev : ip.type ≠ T_DEV) (hok : ¬ (ip.size < off ∨ wraps off n)) :
    writei s i ip src off n = (do
      let (s, ip) ← writeLoop (clip off n) s ip src off (clip off n)
      if (ip.type = T_CHECKED ∧ 0 < clip off n) ∨ 0 < clip off n ∧ ip.size < off + clip off n then
        let ip := { ip with size := off + clip off n }
        .ok (iupdate s i ip, ip, (clip off n : ℤ))
      else .ok (s, ip, (clip off n : ℤ))) := by
  unfold writei
  rw [if_neg hdev, if_neg hok]
  rfl

/-- `writei` writes the file. -/
theorem writei_spec (h : Sound s s.dinode) (hd : s.dinode i = ip) (hi : ip.type ≠ 0)
    (hdev : ip.type ≠ T_DEV) (hw : writei s i ip src off n = .ok (s', ip', ret))
    (hex : s'.exhausted = false) :
    Updates i s ip s' ip' ∧
      (fileOf s' ip', ret) = (fileOf s ip).write (ip.type = T_CHECKED) src off n := by
  unfold File.write
  by_cases hbad : ip.size < off ∨ wraps off n
  · rw [if_pos (show (fileOf s ip).size < off ∨ wraps off n from hbad)]
    rw [writei, if_neg hdev, if_pos hbad] at hw
    obtain ⟨rfl, rfl, rfl⟩ := by simpa only [Except.ok.injEq, Prod.mk.injEq] using hw
    exact ⟨.refl h hd, rfl⟩
  · rw [if_neg (show ¬ ((fileOf s ip).size < off ∨ wraps off n) from hbad)]
    rw [writei_eq hdev hbad] at hw
    have hoff : off ≤ ip.size := Nat.not_lt.mp fun hlt => hbad (.inl hlt)
    have hsound : Sound s (table s i ip) := by rwa [table_eq hd]
    have hmax : off + clip off n ≤ MAXFILE * BSIZE := by
      refine clip_le (Nat.le_trans hoff ?_)
      have := h.size_le i
      rw [hd] at this
      exact this hi
    obtain ⟨⟨t, iq⟩, hloop, hw⟩ := bind_eq_ok.mp hw
    simp only at hw
    split at hw
    · next hgrow =>
      obtain ⟨rfl, rfl, rfl⟩ := by simpa only [Except.ok.injEq, Prod.mk.injEq] using hw
      have hwritten := writeLoop_spec hsound hi (Nat.le_refl _) hloop hex
      refine ⟨.of_iupdate hwritten.toExtends hmax fun k hk => ?_, ?_⟩
      · -- block `k` was within the file or is one of those written
        by_cases hold : k * BSIZE < ip.size
        · have hcov := hsound.covered i k
          rw [table_self] at hcov
          exact hwritten.alloc k (hcov hi hold)
        · have hdiv : k * BSIZE / BSIZE = k := Nat.mul_div_cancel _ (by decide)
          have := hwritten.allocated (k * BSIZE) (by omega) hk
          rwa [hdiv] at this
      · rw [hwritten.type, hwritten.size] at hgrow
        have hgrow' : 0 < clip off n ∧
            (decide (ip.type = T_CHECKED) ∨ (fileOf s ip).size < off + clip off n) := by
          rw [decide_eq_true_iff]
          rcases hgrow with ⟨hc, hpos⟩ | ⟨hpos, hlt⟩
          · exact ⟨hpos, .inl hc⟩
          · exact ⟨hpos, .inr hlt⟩
        simp only [if_pos hgrow']
        refine Prod.ext ?_ rfl
        exact congrArg (File.mk _) hwritten.file
    · next hstay =>
      obtain ⟨rfl, rfl, rfl⟩ := by simpa only [Except.ok.injEq, Prod.mk.injEq] using hw
      have hwritten := writeLoop_spec hsound hi (Nat.le_refl _) hloop hex
      rw [hwritten.type, hwritten.size] at hstay
      -- nothing is written, or a plain file is overwritten
      have hsame : iq = ip := by
        by_cases hpos : 0 < clip off n
        · have hplain : ip.type ≠ T_CHECKED := fun hc => hstay (.inl ⟨hc, hpos⟩)
          have hle : off + clip off n ≤ ip.size :=
            Nat.not_lt.mp fun hlt => hstay (.inr ⟨hpos, hlt⟩)
          exact hwritten.quiet hplain (hsound.allocated hi hle)
        · have hzero : clip off n = 0 := by omega
          rw [hzero, writeLoop] at hloop
          exact (Prod.mk.inj (Except.ok.inj hloop)).2.symm
      subst hsame
      refine ⟨.of_extends hwritten.toExtends hd, ?_⟩
      have hstay' : ¬ (0 < clip off n ∧
          (decide (iq.type = T_CHECKED) ∨ (fileOf s iq).size < off + clip off n)) := by
        rw [decide_eq_true_iff]
        rintro ⟨hpos, hc | hlt⟩
        · exact hstay (.inl ⟨hc, hpos⟩)
        · exact hstay (.inr ⟨hpos, hlt⟩)
      simp only [if_neg hstay']
      refine Prod.ext ?_ rfl
      exact congrArg (File.mk _) hwritten.file

/-! ## Panics -/

theorem panic_of_balloc {e : Halt} (h : balloc s = .error e) : e.panic = .outOfBlocks := by
  unfold balloc at h
  split at h
  · cases h
  · obtain rfl := Except.error.inj h
    rfl

theorem panic_of_bmap {bn : ℕ} {e : Halt} (hbn : bn < MAXFILE) (h : bmap s ip bn = .error e) :
    e.panic = .outOfBlocks := by
  have hbn' : bn < 140 := hbn
  unfold bmap at h
  split at h
  · split at h
    · rcases bind_eq_error.mp h with h | ⟨_, _, h⟩
      · exact panic_of_balloc h
      · cases h
    · cases h
  · split at h
    · rcases bind_eq_error.mp h with h | ⟨⟨t, iq⟩, _, h⟩
      · unfold bmapIndirect at h
        split at h
        · rcases bind_eq_error.mp h with h | ⟨_, _, h⟩
          · exact panic_of_balloc h
          · cases h
        · cases h
      · simp only at h
        split at h
        · rcases bind_eq_error.mp h with h | ⟨_, _, h⟩
          · exact panic_of_balloc h
          · cases h
        · cases h
    · next h1 h2 =>
      have h1' : ¬ bn < 12 := h1
      have h2' : ¬ bn - 12 < 128 := h2
      omega

theorem storeChecksum_returns {bn : ℕ} (hbn : bn < MAXFILE) (data : ℕ → Byte) (e : Halt) :
    storeChecksum s ip bn data ≠ .error e := by
  have hbn' : bn < 140 := hbn
  unfold storeChecksum update_checksum
  split
  · split
    · simp
    · split
      · simp
      · next h1 h2 =>
        have h1' : ¬ bn < 12 := h1
        have h2' : ¬ bn - 12 < 128 := h2
        omega
  · simp

/-- The only panic of the loop of `writei` is that of a full disk. -/
theorem panic_of_writeLoop {fuel left : ℕ} {e : Halt} (hmax : off + left ≤ MAXFILE * BSIZE)
    (h : writeLoop fuel s ip src off left = .error e) : e.panic = .outOfBlocks := by
  induction fuel generalizing s ip src off left with
  | zero => cases h
  | succ fuel ih =>
      unfold writeLoop at h
      split at h
      · cases h
      · next hl =>
        have hmax' : off + left ≤ 140 * 512 := hmax
        have hbn : off / BSIZE < MAXFILE := by
          show off / 512 < 140
          omega
        rcases bind_eq_error.mp h with h | ⟨⟨t, iq, b⟩, _, h⟩
        · exact panic_of_bmap hbn h
        · rcases bind_eq_error.mp h with h | ⟨⟨u, ir⟩, _, h⟩
          · exact absurd h (storeChecksum_returns hbn _ e)
          · have hle := chunk_le off left
            exact ih (by omega) h

theorem panic_of_writei {e : Halt} (hsize : ip.size ≤ MAXFILE * BSIZE) (hdev : ip.type ≠ T_DEV)
    (h : writei s i ip src off n = .error e) : e.panic = .outOfBlocks := by
  by_cases hbad : ip.size < off ∨ wraps off n
  · rw [writei, if_neg hdev, if_pos hbad] at h
    cases h
  · rw [writei_eq hdev hbad] at h
    have hoff : off ≤ ip.size := Nat.not_lt.mp fun hlt => hbad (.inl hlt)
    rcases bind_eq_error.mp h with h | ⟨⟨t, iq⟩, _, h⟩
    · exact panic_of_writeLoop (clip_le (Nat.le_trans hoff hsize)) h
    · simp only at h
      split at h <;> cases h

/-! ## Between two calls -/

theorem Valid.setInode (h : Valid s) (hd : s.dinode i = ip) (hi : ip.type ≠ 0) :
    Valid (s.setInode i ip) where
  sound := h.sound.congr rfl rfl rfl rfl (fun _ => rfl) (fun _ _ => rfl) fun _ _ => .inl rfl
  cached := by
    intro j jp hj
    by_cases hji : j = i
    · subst hji
      obtain rfl : ip = jp := by simpa [Fs.setInode] using hj
      exact ⟨hd, hi⟩
    · exact h.cached j jp (by simpa [Fs.setInode, hji] using hj)

/-- The file system after a call that has updated inode `i`. -/
theorem Updates.valid (hu : Updates i s ip s' ip') (h : Valid s) (hi : ip.type ≠ 0) :
    Valid (s'.setInode i ip') where
  sound := hu.sound.congr rfl rfl rfl rfl (fun _ => rfl) (fun _ _ => rfl) fun _ _ => .inl rfl
  cached := by
    intro j jp hj
    have hd : (s'.setInode i ip').dinode j = Function.update s.dinode i ip' j :=
      congrFun hu.dinode j
    rw [hd]
    by_cases hji : j = i
    · subst hji
      obtain rfl : ip' = jp := by simpa [Fs.setInode] using hj
      exact ⟨Function.update_self .., by rw [hu.type]; exact hi⟩
    · rw [Function.update_of_ne hji]
      exact h.cached j jp (by simpa [Fs.setInode, hji, hu.inode] using hj)

theorem ilock_spec (h : Valid s) (hl : ilock s i = .ok ip) : s.dinode i = ip ∧ ip.type ≠ 0 := by
  unfold ilock at hl
  split at hl
  · next jp hj =>
    obtain rfl := Except.ok.inj hl
    exact h.cached i jp hj
  · simp only at hl
    split at hl
    · cases hl
    · next hne =>
      obtain rfl := Except.ok.inj hl
      exact ⟨rfl, hne⟩

/-- A free inode is taken into use. -/
theorem Valid.fresh (h : Valid s) (hfree : (s.dinode i).type = 0) {type : ℕ} (ht : type ≠ 0)
    (major minor : ℤ) : Valid (s.putInode i { type, major, minor, nlink := 1 }) where
  sound := by
    have hblank : ({ type, major, minor, nlink := 1 } : Inode).Blank := .inr ⟨fun _ _ => rfl, rfl⟩
    have hswap := h.sound.swap (.inl hfree) hblank
    exact hswap.congr rfl rfl rfl rfl (fun _ => rfl) (fun _ _ => rfl) fun _ _ => .inl rfl
  cached := by
    intro j jp hj
    by_cases hji : j = i
    · subst hji
      obtain rfl : { type, major, minor, nlink := 1 } = jp := by
        simpa [Fs.putInode, Fs.setInode] using hj
      exact ⟨Function.update_self .., ht⟩
    · have hd : (s.putInode i { type, major, minor, nlink := 1 }).dinode j = s.dinode j :=
        Function.update_of_ne hji ..
      rw [hd]
      exact h.cached j jp (by simpa [Fs.putInode, Fs.setInode, iupdate, hji] using hj)

theorem Valid.link (h : Valid s) (hd : s.dinode i = ip) (hi : ip.type ≠ 0) (nlink : ℤ) :
    Valid (s.putInode i { ip with nlink }) where
  sound := by
    refine h.sound.congr rfl rfl rfl rfl ?_ ?_ ?_ <;> intro j <;> by_cases hji : j = i
    · subst hji
      simp [Fs.putInode, Fs.setInode, iupdate, hd]
    · simp [Fs.putInode, Fs.setInode, iupdate, hji]
    · subst hji
      simp [Fs.putInode, Fs.setInode, iupdate, hd]
    · simp [Fs.putInode, Fs.setInode, iupdate, hji]
    · subst hji
      simp [Fs.putInode, Fs.setInode, iupdate, hd]
    · simp [Fs.putInode, Fs.setInode, iupdate, hji]
  cached := by
    intro j jp hj
    by_cases hji : j = i
    · subst hji
      obtain rfl : { ip with nlink } = jp := by simpa [Fs.putInode, Fs.setInode] using hj
      exact ⟨Function.update_self .., hi⟩
    · have hd' : (s.putInode i { ip with nlink }).dinode j = s.dinode j :=
        Function.update_of_ne hji ..
      rw [hd']
      exact h.cached j jp (by simpa [Fs.putInode, Fs.setInode, iupdate, hji] using hj)

theorem FileType.code_ne_zero (type : FileType) : type.code ≠ 0 := by
  cases type <;> decide

theorem create_valid (h : Valid s) {type : FileType} {major minor : ℤ}
    (hc : create s type.code major minor = .ok s') : Valid s' := by
  unfold create at hc
  split at hc
  · next inum hfind =>
    obtain rfl := Except.ok.inj hc
    have hfree := List.find?_some hfind
    exact h.fresh (of_decide_eq_true hfree) type.code_ne_zero major minor
  · cases hc

/-- Reading is no change: the state is the same, whatever the inode. -/
theorem readi_same (h : Valid s) (hd : s.dinode i = ip) (hi : ip.type ≠ 0) {dst : List Byte}
    (hr : readi s ip off n = .ok (s', ip', ret, dst)) : s' = s ∧ ip' = ip := by
  by_cases hdev : ip.type = T_DEV
  · rw [readi, if_pos hdev] at hr
    split at hr
    · obtain ⟨rfl, rfl, -⟩ := by simpa only [Except.ok.injEq, Prod.mk.injEq] using hr
      exact ⟨rfl, rfl⟩
    · split at hr
      · obtain ⟨rfl, rfl, -⟩ := by simpa only [Except.ok.injEq, Prod.mk.injEq] using hr
        exact ⟨rfl, rfl⟩
      · obtain ⟨rfl, rfl, -⟩ := by simpa only [Except.ok.injEq, Prod.mk.injEq] using hr
        exact ⟨rfl, rfl⟩
  · have hsound : Sound s (table s i ip) := by
      rw [table_eq hd]
      exact h.sound
    rw [readi_eq hsound hi hdev] at hr
    obtain ⟨rfl, rfl, -⟩ := by simpa only [Except.ok.injEq, Prod.mk.injEq] using hr
    exact ⟨rfl, rfl⟩

theorem writei_updates (h : Valid s) (hd : s.dinode i = ip) (hi : ip.type ≠ 0)
    (hw : writei s i ip src off n = .ok (s', ip', ret)) (hex : s'.exhausted = false) :
    Updates i s ip s' ip' := by
  by_cases hdev : ip.type = T_DEV
  · rw [writei, if_pos hdev] at hw
    split at hw
    · obtain ⟨rfl, rfl, -⟩ := by simpa only [Except.ok.injEq, Prod.mk.injEq] using hw
      exact .refl h.sound hd
    · split at hw
      · obtain ⟨rfl, rfl, -⟩ := by simpa only [Except.ok.injEq, Prod.mk.injEq] using hw
        exact .refl h.sound hd
      · obtain ⟨rfl, rfl, -⟩ := by simpa only [Except.ok.injEq, Prod.mk.injEq] using hw
        exact .refl h.sound hd
  · exact (writei_spec h.sound hd hi hdev hw hex).1

/-- The call drops the last reference to a file without links. -/
def deletes (s : Fs) : Call → Bool
  | .iput inum => (s.inode inum).any fun ip => ip.nlink = 0
  | _ => false

/-- A call that deletes nothing keeps a valid file system valid, as long as the disk has room. -/
theorem call_valid (h : Valid s) {c : Call} {r : Reply} (hc : call s c = .ok (s', r))
    (hex : s'.exhausted = false) (hkeep : deletes s c = false) : Valid s' := by
  cases c with
  | create type major minor =>
      obtain ⟨t, ht, hc⟩ := bind_eq_ok.mp hc
      obtain ⟨rfl, -⟩ := Prod.mk.inj (Except.ok.inj hc)
      exact create_valid h ht
  | writei inum src off n =>
      obtain ⟨ip, hl, hc⟩ := bind_eq_ok.mp hc
      obtain ⟨⟨t, jp, ret⟩, hw, hc⟩ := bind_eq_ok.mp hc
      obtain ⟨rfl, -⟩ := Prod.mk.inj (Except.ok.inj hc)
      obtain ⟨hd, hi⟩ := ilock_spec h hl
      exact (writei_updates h hd hi hw hex).valid h hi
  | readi inum off n =>
      obtain ⟨ip, hl, hc⟩ := bind_eq_ok.mp hc
      obtain ⟨⟨t, jp, ret, dst⟩, hr, hc⟩ := bind_eq_ok.mp hc
      obtain ⟨rfl, -⟩ := Prod.mk.inj (Except.ok.inj hc)
      obtain ⟨hd, hi⟩ := ilock_spec h hl
      obtain ⟨rfl, rfl⟩ := readi_same h hd hi hr
      exact h.setInode hd hi
  | stati inum =>
      obtain ⟨ip, hl, hc⟩ := bind_eq_ok.mp hc
      obtain ⟨rfl, -⟩ := Prod.mk.inj (Except.ok.inj hc)
      obtain ⟨hd, hi⟩ := ilock_spec h hl
      exact h.setInode hd hi
  | link inum k =>
      obtain ⟨ip, hl, hc⟩ := bind_eq_ok.mp hc
      obtain ⟨rfl, -⟩ := Prod.mk.inj (Except.ok.inj hc)
      obtain ⟨hd, hi⟩ := ilock_spec h hl
      exact h.link hd hi _
  | iput inum =>
      obtain ⟨t, ht, hc⟩ := bind_eq_ok.mp hc
      obtain ⟨rfl, -⟩ := Prod.mk.inj (Except.ok.inj hc)
      unfold iput at ht
      split at ht
      · exact Except.ok.inj ht ▸ h
      · next ip hip =>
        have hlinks : ip.nlink ≠ 0 := by simpa [deletes, hip] using hkeep
        rw [if_neg hlinks] at ht
        exact Except.ok.inj ht ▸ h
  | evict inum =>
      obtain ⟨rfl, -⟩ := Prod.mk.inj (Except.ok.inj hc)
      refine ⟨h.sound.congr rfl rfl rfl rfl (fun _ => rfl) (fun _ _ => rfl) fun _ _ => .inl rfl, ?_⟩
      intro j jp hj
      by_cases hji : j = inum
      · subst hji
        simp at hj
      · exact h.cached j jp (by simpa [hji] using hj)

end

end IntroToOS.CheckedFs

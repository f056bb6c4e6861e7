import IntroToOS.CheckedFs.Exec

/-! # Reads that fail in `exec`

A read that fails is contained (`Contained`) when `exec` returns -1, leaves the process alone, and
nothing depends on what was on the stack. This holds of the reads of program headers and segments
unless bytes have been stored outside of the image before (`StrayFails`). It does not hold of the read
of the ELF header, whose result is compared as a `uint` (`contained_iff`).
-/

namespace IntroToOS.CheckedFs.Exec
open Lib
set_option autoImplicit false

/-- Reads that fail make `exec` fail and leave the process alone, and nothing depends on what was on
the stack. -/
structure Contained (s : Fs) (ip : Inode) : Prop where
  fails : ∀ env stack, -1 ∈ (exec env s ip stack).2 →
    (exec env s ip stack).1 = .returned (-1) env.proc
  delivered : ∀ env stack stack', exec env s ip stack = exec env s ip stack'

/-- The first block of the file does not match its checksum. -/
def FirstBlockFails (s : Fs) (ip : Inode) : Prop :=
  0 < ip.size ∧ ∃ t jp b, bmap s ip 0 = .ok (t, jp, b) ∧
    calculate_checksum (t.block b) BSIZE ≠ CH_GET_CHECKSUM (jp.addrs 0)

/-! ## Bytes outside of the image -/

/-- The reads of the pages `l` of a segment, in an image of `sz` bytes. `strayed` says that bytes have
gone outside of it. Where the loop ends before its time, the result is whether a read has failed after
that. -/
def pageReads (ph : ProgHdr) (sz : ℕ) :
    List ℕ → Bool → Fs → Inode → Except Bool (Bool × Fs × Inode)
  | [], strayed, s, ip => .ok (strayed, s, ip)
  | k :: l, strayed, s, ip =>
    let v := (ph.va + k * PGSIZE) % 2 ^ 32 / PGSIZE
    let n := min (ph.filesz - k * PGSIZE) PGSIZE
    if pages sz ≤ v ∧ v / 1024 ∉ kmap then .error false
    else
      match readi s ip ((ph.offset + k * PGSIZE) % 2 ^ 32) n with
      | .error _ => .error false
      | .ok (s, ip, ret, bytes) =>
        let strayed := strayed || decide (pages sz ≤ v) && decide (bytes ≠ [])
        if toUint ret ≠ n then .error (strayed && decide (ret = -1)) else pageReads ph sz l strayed s ip

/-- With memory for all of it, a read of the `n` headers from `off` on or of their segments fails after
bytes have gone outside of the image. -/
def segmentReads : ℕ → ℕ → ℕ → Bool → Fs → Inode → Bool
  | 0, _, _, _, _, _ => false
  | n + 1, off, sz, strayed, s, ip =>
    match readi s ip (off % 2 ^ 32) 32 with
    | .error _ => false
    | .ok (s, ip, ret, bytes) =>
      let ph := proghdr (storeAt (fun _ => 0) 0 bytes)
      let newsz := max sz ((ph.va + ph.memsz) % 2 ^ 32)
      if toUint ret ≠ 32 then strayed && decide (ret = -1)
      else if ph.type ≠ ELF_PROG_LOAD then segmentReads n (off + 32) sz strayed s ip
      else if ph.memsz < ph.filesz ∨ USERTOP < (ph.va + ph.memsz) % 2 ^ 32 ∨ newsz = 0 ∨
          ph.va % PGSIZE ≠ 0 then false
      else
        match pageReads ph newsz (List.range (pages ph.filesz)) strayed s ip with
        | .error failed => failed
        | .ok (strayed, s, ip) => segmentReads n (off + 32) newsz strayed s ip

/-- Bytes of a segment go outside of the image, and a later read fails. -/
def StrayFails (s : Fs) (ip : Inode) : Prop :=
  ∃ t jp bytes, readi s ip 0 52 = .ok (t, jp, 52, bytes) ∧
    (elfhdr (storeAt (fun _ => 0) 0 bytes)).magic = ELF_MAGIC ∧
    segmentReads (elfhdr (storeAt (fun _ => 0) 0 bytes)).phnum
      (elfhdr (storeAt (fun _ => 0) 0 bytes)).phoff 0 false t jp = true

section
variable {α β : Type} {s t : Fs} {ip jp : Inode} {m : Machine} {sz n off v total : ℕ} {strayed b : Bool}
  {ph : ProgHdr} {mem : ℕ → Byte} {bytes : List Byte} {ret : ℤ}

/-- Where a run of `exec` has got to: the image has `sz` bytes. -/
structure At (s : Fs) (ip : Inode) (strayed : Bool) (sz : ℕ) (m : Machine) : Prop where
  good : Good m
  fs : m.fs = s
  ip : m.ip = ip
  strayed : m.strayed = strayed
  pgdir : ∀ v, (m.pgdir v).isSome ↔ v < pages sz

theorem At.isNone (h : At s ip strayed sz m) (v : ℕ) : (m.pgdir v).isNone ↔ pages sz ≤ v := by
  rw [← Option.not_isSome_iff_eq_none.trans Option.isNone_iff_eq_none.symm, h.pgdir v, Nat.not_lt]

/-- The end of a run: a read has failed after bytes have gone outside just when `b` is true, where the
memory lasts. -/
inductive Stray (enough : Prop) : Bool → Run (α × Machine) → Prop
  | ok {a : α} {m : Machine} (h : Good m) : Stray enough false (.ok (a, m))
  | error {b : Bool} {stop : Stop} {m : Machine} (h : b = true ↔ m.strayed = true ∧ -1 ∈ m.reads) :
      Stray enough b (.error (stop, m))
  | short {b : Bool} {stop : Stop} {m : Machine} (h : Good m) (hno : ¬ enough) :
      Stray enough b (.error (stop, m))

theorem Quiet.stray {enough : Prop} {x : Run (α × Machine)} (hx : Quiet x) :
    Stray enough false x := by
  cases hx with
  | ok h => exact .ok h
  | error h => exact .error (iff_of_false Bool.false_ne_true fun hin => h.reads hin.2)

theorem Good.stray {enough : Prop} (h : Good m) (stop : Stop) :
    Stray enough false (.error (stop, m) : Run (α × Machine)) :=
  .error (iff_of_false Bool.false_ne_true fun hin => h.reads hin.2)

theorem Stray.bind {enough : Prop} {x : Run (α × Machine)} {f : α × Machine → Run (β × Machine)}
    (hx : Stray enough b x) (hf : ∀ a t, Good t → Quiet (f (a, t))) : Stray enough b (x >>= f) := by
  cases hx with
  | ok h => exact (hf _ _ h).stray
  | error h => exact .error h
  | short h hno => exact .short h hno

/-! ### Memory -/

theorem growPages_of_le (h : n ≤ m.free) : ∃ pgdir,
    growPages n v m = some { m with free := m.free - n, pgdir } ∧
    ∀ x, (pgdir x).isSome ↔ (m.pgdir x).isSome ∨ v ≤ x ∧ x < v + n := by
  induction n generalizing v m with
  | zero =>
      refine ⟨m.pgdir, rfl, fun x => ?_⟩
      rw [or_iff_left (by omega)]
  | succ n ih =>
      obtain ⟨pgdir, hgrow, hpgdir⟩ := ih (v := v + 1) (m := { m with
        free := m.free - 1, pgdir := Function.update m.pgdir v (some fun _ => 0) })
        (show n ≤ m.free - 1 by omega)
      refine ⟨pgdir, ?_, fun x => ?_⟩
      · rw [growPages, if_neg (by omega), hgrow]
        simp only [Nat.sub_sub, Nat.add_comm 1 n]
      · rw [hpgdir x]
        by_cases hx : x = v
        · subst hx
          simp
        · have hold : Function.update m.pgdir v (some fun _ => 0) x = m.pgdir x :=
            Function.update_of_ne hx ..
          simp only [hold]
          exact or_congr_right (by omega)

theorem growPages_of_lt (h : m.free < n) : growPages n v m = none := by
  induction n generalizing v m with
  | zero => exact absurd h (Nat.not_lt_zero _)
  | succ n ih =>
      rw [growPages]
      split
      · rfl
      · exact ih (show m.free - 1 < n by omega)

theorem pages_le_user {sz : ℕ} (h : sz ≤ USERTOP) : pages sz ≤ pages USERTOP := by
  show (sz + 4096 - 1) / 4096 ≤ (0xA0000 + 4096 - 1) / 4096
  have hle : sz ≤ 0xA0000 := h
  omega

/-- `allocuvm` refuses the size, or extends the image. -/
theorem allocuvm_cases (h : At s ip strayed sz m) (newsz : ℕ) :
    ((allocuvm m sz newsz).1 = 0 ∧ (allocuvm m sz newsz).2 = m ∧
      (USERTOP < newsz ∨ max sz newsz = 0 ∨ m.free + pages sz < pages USERTOP)) ∨
    newsz ≤ USERTOP ∧ max sz newsz ≠ 0 ∧ (allocuvm m sz newsz).1 = max sz newsz ∧
      At s ip strayed (max sz newsz) (allocuvm m sz newsz).2 ∧
      (allocuvm m sz newsz).2.free + pages (max sz newsz) = m.free + pages sz := by
  unfold allocuvm
  by_cases htop : USERTOP < newsz
  · rw [if_pos htop]
    exact .inl ⟨rfl, rfl, .inl htop⟩
  rw [if_neg htop]
  by_cases hlt : newsz < sz
  · rw [if_pos hlt, Nat.max_eq_left hlt.le]
    exact .inr ⟨Nat.not_lt.mp htop, by omega, rfl, h, rfl⟩
  rw [if_neg hlt, Nat.max_eq_right (Nat.not_lt.mp hlt)]
  have hmono : pages sz ≤ pages newsz := by
    show (sz + 4096 - 1) / 4096 ≤ (newsz + 4096 - 1) / 4096
    omega
  have huser := pages_le_user (Nat.not_lt.mp htop)
  by_cases hfree : pages newsz - pages sz ≤ m.free
  · obtain ⟨pgdir, hgrow, hpgdir⟩ := growPages_of_le (v := pages sz) hfree
    rw [hgrow]
    by_cases hzero : newsz = 0
    · have hsz : sz = 0 := by omega
      subst hzero hsz
      obtain rfl : pgdir = m.pgdir := by
        have hnone : pages 0 - pages 0 = 0 := rfl
        rw [hnone, growPages, Option.some.injEq, Machine.mk.injEq] at hgrow
        exact hgrow.2.2.2.1.symm
      exact .inl ⟨rfl, rfl, .inr (.inl rfl)⟩
    · refine .inr ⟨Nat.not_lt.mp htop, hzero, rfl, ⟨⟨h.good.checked, h.good.reads⟩, h.fs, h.ip,
        h.strayed, fun x => ?_⟩, ?_⟩
      · rw [hpgdir x, h.pgdir x]
        omega
      · show m.free - (pages newsz - pages sz) + pages newsz = _
        omega
  · rw [growPages_of_lt (Nat.not_le.mp hfree)]
    exact .inl ⟨rfl, rfl, .inr (.inr (by omega))⟩

/-! ### Pages and headers -/

theorem storePage_strayed (m : Machine) (v : ℕ) (bytes : List Byte) :
    (storePage m v bytes).strayed = (m.strayed || (m.pgdir v).isNone && decide (bytes ≠ [])) := by
  unfold storePage
  cases m.pgdir v with
  | none => rfl
  | some page => simp

theorem storePage_at (h : At s ip strayed sz m) (v : ℕ) (bytes : List Byte) :
    At s ip (strayed || decide (pages sz ≤ v) && decide (bytes ≠ [])) sz (storePage m v bytes) where
  good := storePage_good h.good v bytes
  fs := by
    rw [← h.fs]
    unfold storePage
    split <;> rfl
  ip := by
    rw [← h.ip]
    unfold storePage
    split <;> rfl
  strayed := by
    rw [storePage_strayed, h.strayed]
    congr 2
    rw [Bool.eq_iff_iff, h.isNone, decide_eq_true_eq]
  pgdir x := by
    rw [← h.pgdir x]
    unfold storePage
    cases hpage : m.pgdir v with
    | none => rfl
    | some page =>
        by_cases hx : x = v
        · subst hx
          simp [hpage]
        · simp only [Function.update_of_ne hx]

theorem storePage_free (m : Machine) (v : ℕ) (bytes : List Byte) :
    (storePage m v bytes).free = m.free := by
  unfold storePage
  split <;> rfl

/-- A read from the file, in the run and on its own. -/
theorem At.read_cases (h : At s ip strayed sz m) (off n : ℕ) :
    (∃ e u, readi s ip off n = .error e ∧ read m off n = .error (.panic, u) ∧ u.reads = m.reads) ∨
    ∃ t jp ret bytes u, readi s ip off n = .ok (t, jp, ret, bytes) ∧
      read m off n = .ok ((ret, bytes), u) ∧ (ret = -1 ∨ ret = bytes.length) ∧
      u.reads = m.reads ++ [ret] ∧ u.free = m.free ∧ u.strayed = strayed ∧ u.pgdir = m.pgdir ∧
      (ret ≠ -1 → At t jp strayed sz u) := by
  cases hr : readi s ip off n with
  | error e =>
      refine .inl ⟨e, { m with fs := e.fs }, rfl, ?_, rfl⟩
      rw [read, h.fs, h.ip, hr]
  | ok p =>
      obtain ⟨t, jp, ret, bytes⟩ := p
      have htype : ip.type = T_CHECKED := h.ip ▸ h.good.checked
      obtain ⟨hjp, hret⟩ := readi_delivers htype hr
      refine .inr ⟨t, jp, ret, bytes, { m with fs := t, ip := jp, reads := m.reads ++ [ret] }, rfl, ?_,
        hret, rfl, rfl, h.strayed, rfl, fun hne => ?_⟩
      · rw [read, h.fs, h.ip, hr]
      · exact ⟨h.good.push hjp rfl hne, rfl, rfl, h.strayed, h.pgdir⟩

/-- The loop of `loaduvm` reads what `pageReads` reads. -/
inductive Follows (sz free : ℕ) : Except Bool (Bool × Fs × Inode) → Run (Unit × Machine) → Prop
  | ok {s : Fs} {ip : Inode} {strayed : Bool} {m : Machine} (h : At s ip strayed sz m)
      (hfree : m.free = free) : Follows sz free (.ok (strayed, s, ip)) (.ok ((), m))
  | error {b : Bool} {stop : Stop} {m : Machine} (h : b = true ↔ m.strayed = true ∧ -1 ∈ m.reads) :
      Follows sz free (.error b) (.error (stop, m))

theorem loadPages_follows (h : At s ip strayed sz m) (ph : ProgHdr) (l : List ℕ) :
    Follows sz m.free (pageReads ph sz l strayed s ip)
      (loadPages ph.va ph.offset ph.filesz l m) := by
  induction l generalizing s ip strayed m with
  | nil => exact .ok h rfl
  | cons k l ih =>
      unfold pageReads loadPages
      simp only [h.isNone]
      generalize hv : (ph.va + k * PGSIZE) % 2 ^ 32 / PGSIZE = v
      generalize hn : min (ph.filesz - k * PGSIZE) PGSIZE = n
      have hmax : n ≤ PGSIZE := hn ▸ Nat.min_le_right ..
      split
      · exact .error (iff_of_false Bool.false_ne_true fun hin => h.good.reads hin.2)
      · rcases h.read_cases ((ph.offset + k * PGSIZE) % 2 ^ 32) n with
          ⟨e, u, hr, hread, hreads⟩ |
          ⟨t, jp, ret, bytes, u, hr, hread, hret, hreads, hfree, hstrayed, hpgdir, hat⟩
        · rw [hr, hread]
          refine .error (iff_of_false Bool.false_ne_true fun hin => ?_)
          rw [hreads] at hin
          exact h.good.reads hin.2
        · rw [hr, hread]
          simp only [ok_bind]
          by_cases hfull : toUint ret = n
          · obtain ⟨hne, -⟩ := delivered_of_toUint hret hfull hmax
            rw [if_neg (not_not.mpr hfull), if_neg (not_not.mpr hfull), ← hfree,
              ← storePage_free u v bytes]
            exact ih (storePage_at (hat hne) v bytes)
          · rw [if_pos hfull, if_pos hfull]
            refine .error ?_
            have hnone : (u.pgdir v).isNone = decide (pages sz ≤ v) := by
              rw [hpgdir, Bool.eq_iff_iff, h.isNone, decide_eq_true_eq]
            have hlast : -1 ∈ (storePage u v bytes).reads ↔ ret = -1 := by
              rw [storePage_reads, hreads, List.mem_append, List.mem_singleton,
                or_iff_right h.good.reads]
              exact eq_comm
            rw [hlast, storePage_strayed, hstrayed, hnone, Bool.and_eq_true, decide_eq_true_eq]

theorem loadSegments_stray (h : At s ip strayed sz m) (n off : ℕ) (mem : ℕ → Byte) :
    Stray (pages USERTOP ≤ m.free + pages sz) (segmentReads n off sz strayed s ip)
      (loadSegments n off mem sz m) := by
  induction n generalizing off mem sz m s ip strayed with
  | zero => exact .ok h.good
  | succ n ih =>
      unfold segmentReads loadSegments
      rcases h.read_cases (off % 2 ^ 32) 32 with ⟨e, u, hr, hread, hreads⟩ |
          ⟨t, jp, ret, bytes, u, hr, hread, hret, hreads, hfree, hstrayed, -, hat⟩
      · rw [hr, hread]
        refine .error (iff_of_false Bool.false_ne_true fun hin => ?_)
        rw [hreads] at hin
        exact h.good.reads hin.2
      rw [hr, hread]
      simp only [ok_bind]
      by_cases hfull : toUint ret = 32
      · obtain ⟨hne, hlen⟩ := delivered_of_toUint hret hfull (by decide)
        have hu := hat hne
        rw [if_neg (not_not.mpr hfull), if_neg (not_not.mpr hfull), ← hfree,
          proghdr_old mem (fun _ => 0) hlen]
        generalize proghdr (storeAt (fun _ => 0) 0 bytes) = ph
        by_cases hload : ph.type ≠ ELF_PROG_LOAD
        · rw [if_pos hload, if_pos hload]
          exact ih hu _ _
        rw [if_neg hload, if_neg hload]
        by_cases hsize : ph.memsz < ph.filesz
        · rw [if_pos hsize, if_pos (.inl hsize)]
          exact hu.good.stray _
        rw [if_neg hsize]
        rcases allocuvm_cases hu ((ph.va + ph.memsz) % 2 ^ 32) with ⟨hzero, heq, hwhy⟩ |
          ⟨htop, hmax, hval, hnew, htotal⟩
        · rw [if_pos hzero, heq]
          rcases hwhy with htop | hmax | hshort
          · rw [if_pos (.inr (.inl htop))]
            exact hu.good.stray _
          · rw [if_pos (.inr (.inr (.inl hmax)))]
            exact hu.good.stray _
          · exact .short hu.good (Nat.not_le.mpr hshort)
        rw [hval, if_neg hmax]
        by_cases hva : ph.va % PGSIZE = 0
        · have hgo : ¬ (ph.memsz < ph.filesz ∨ USERTOP < (ph.va + ph.memsz) % 2 ^ 32 ∨
              max sz ((ph.va + ph.memsz) % 2 ^ 32) = 0 ∨ ph.va % PGSIZE ≠ 0) := by
            rintro (hlt | hlt | hlt | hlt)
            · exact hsize hlt
            · exact absurd htop (Nat.not_le.mpr hlt)
            · exact hmax hlt
            · exact hlt hva
          rw [if_neg hgo, loaduvm, if_neg (not_not.mpr hva), ← htotal]
          have hpages := loadPages_follows hnew ph (List.range (pages ph.filesz))
          revert hpages
          generalize pageReads ph (max sz ((ph.va + ph.memsz) % 2 ^ 32)) (List.range (pages ph.filesz))
            strayed t jp = x
          generalize loadPages ph.va ph.offset ph.filesz (List.range (pages ph.filesz))
            (allocuvm u sz ((ph.va + ph.memsz) % 2 ^ 32)).2 = y
          intro hpages
          cases hpages with
          | error hb => exact .error hb
          | ok hw hfree' =>
              rw [← hfree']
              exact ih hw _ _
        · rw [if_pos (.inr (.inr (.inr hva))), loaduvm, if_pos hva]
          exact hnew.good.stray _
      · rw [if_pos hfull, if_pos hfull]
        refine .error ?_
        rw [hreads, hstrayed, List.mem_append, List.mem_singleton, or_iff_right h.good.reads,
          Bool.and_eq_true, decide_eq_true_eq]
        exact and_congr_right fun _ => eq_comm

end

/-! ## The header -/

section
variable {s : Fs} {ip : Inode} {m : Machine}

/-- The read of the header fails exactly for a first block that does not match its checksum. -/
theorem readi_header (hc : ip.type = T_CHECKED) (hok : ¬ FirstBlockFails s ip) {t : Fs} {jp : Inode}
    {ret : ℤ} {dst : List Byte} (h : readi s ip 0 52 = .ok (t, jp, ret, dst)) : ret ≠ -1 := by
  by_cases hsize : 0 < ip.size
  · rw [readi_first hc hsize (by decide) (by decide)] at h
    obtain ⟨⟨u, iq, b⟩, hb, h⟩ := bind_eq_ok.mp h
    dsimp only at h
    split at h
    · obtain ⟨-, -, rfl, -⟩ := by simpa only [Except.ok.injEq, Prod.mk.injEq] using h
      omega
    · next hsum => exact absurd ⟨hsize, u, iq, b, hb, hsum⟩ hok
  · have hin : ¬ (ip.size < 0 ∨ wraps 0 52) := by
      rintro (hlt | hwraps) <;> exact absurd ‹_› (Nat.not_lt_zero _)
    have hclip : clipRead ip.size 0 52 = 0 := by
      rw [clipRead, if_neg hin, if_pos (by omega)]
      omega
    rw [readi_checked hc hin, hclip, readLoop, ok_bind] at h
    obtain ⟨-, -, rfl, -⟩ : s = t ∧ ip = jp ∧ (0 : ℤ) = ret ∧ [] = dst := by simpa using h
    decide

theorem readi_broken (hc : ip.type = T_CHECKED) (hbad : FirstBlockFails s ip) :
    ∃ t jp, readi s ip 0 52 = .ok (t, jp, -1, []) := by
  obtain ⟨hsize, t, jp, b, hb, hsum⟩ := hbad
  refine ⟨t, jp, ?_⟩
  rw [readi_first hc hsize (by decide) (by decide), hb, ok_bind]
  exact if_neg hsum

theorem header_cases (hm : Good m) (hok : ¬ FirstBlockFails m.fs m.ip) :
    (∃ t, read m 0 52 = .error (.panic, t) ∧ -1 ∉ t.reads) ∨
      ∃ ret bytes t, read m 0 52 = .ok ((ret, bytes), t) ∧ Good t ∧
        (toUint ret < 52 ∨ 52 ≤ bytes.length) := by
  rcases read_cases hm.checked 0 52 with ⟨t, hr, hreads⟩ | ⟨ret, bytes, t, hr, htype, hreads, hret⟩
  · refine .inl ⟨t, hr, ?_⟩
    rw [hreads]
    exact hm.reads
  · have hne : ret ≠ -1 := by
      unfold read at hr
      split at hr
      · next hreadi =>
        obtain ⟨⟨rfl, -⟩, -⟩ := by simpa only [Except.ok.injEq, Prod.mk.injEq] using hr
        exact readi_header hm.checked hok hreadi
      · cases hr
    refine .inr ⟨ret, bytes, t, hr, hm.push htype hreads hne, ?_⟩
    obtain rfl := hret.resolve_left hne
    have hle := toUint_natCast_le bytes.length
    omega

/-- With the header delivered, a read has failed only where the run has gone to `bad`. -/
theorem build_ends (hm : Good m) (hok : ¬ FirstBlockFails m.fs m.ip) (argv : List (List Byte))
    (stack : Stack) : Ends (build argv stack m) := by
  unfold build
  rcases header_cases hm hok with ⟨t, hr, hreads⟩ | ⟨ret, bytes, t, hr, hgood, -⟩
  · rw [hr]
    exact .error fun hin => absurd hin hreads
  · rw [hr]
    simp only [ok_bind]
    split
    · exact hgood.ends_error _
    · split
      · exact hgood.ends_error _
      · refine (setupkvm_quiet hgood).ends.bind fun _ u hu => ?_
        refine (loadSegments_ends hu _ _ _ _).bind fun sz v hv => ?_
        exact (makeStack_quiet hv argv sz).ends.bind fun _ w hw => .ok hw

/-- With the header delivered, nothing depends on the old contents of the stack. -/
theorem build_old (hm : Good m) (hok : ¬ FirstBlockFails m.fs m.ip) (argv : List (List Byte))
    (stack stack' : Stack) : build argv stack m = build argv stack' m := by
  unfold build
  rcases header_cases hm hok with ⟨t, hr, -⟩ | ⟨ret, bytes, t, hr, hgood, hlen⟩
  · rw [hr, error_bind, error_bind]
  · rw [hr]
    simp only [ok_bind]
    refine ite_congr rfl (fun _ => rfl) fun hshort => ?_
    rw [elfhdr_old stack.elf stack'.elf (hlen.resolve_left hshort)]
    refine ite_congr rfl (fun _ => rfl) fun _ => ?_
    refine (setupkvm_quiet hgood).ends.bind_congr fun _ u hu => ?_
    rw [loadSegments_old hu]

/-- A header that has been delivered: the run follows its segments. -/
theorem build_stray (hc : ip.type = T_CHECKED) {t : Fs} {jp : Inode} {bytes : List Byte}
    (hr : readi s ip 0 52 = .ok (t, jp, 52, bytes))
    (hmagic : (elfhdr (storeAt (fun _ => 0) 0 bytes)).magic = ELF_MAGIC) (free : ℕ)
    (argv : List (List Byte)) (stack : Stack) : Stray (pages USERTOP + (1 + kmap.length) ≤ free)
      (segmentReads (elfhdr (storeAt (fun _ => 0) 0 bytes)).phnum
        (elfhdr (storeAt (fun _ => 0) 0 bytes)).phoff 0 false t jp)
      (build argv stack { fs := s, ip, free }) := by
  obtain ⟨hjp, hret⟩ := readi_delivers hc hr
  have hlen : 52 ≤ bytes.length := by omega
  have hread : read { fs := s, ip, free } 0 52 =
      .ok ((52, bytes), { fs := t, ip := jp, free, reads := [52] }) := by
    rw [read, hr]
    rfl
  unfold build
  rw [hread]
  simp only [ok_bind]
  rw [if_neg (by decide), elfhdr_old stack.elf (fun _ => 0) hlen, if_neg (not_not.mpr hmagic)]
  generalize elfhdr (storeAt (fun _ => 0) 0 bytes) = elf
  unfold setupkvm
  by_cases hfree : free < 1 + kmap.length
  · rw [if_pos hfree]
    exact .short ⟨hjp, show -1 ∉ [(52 : ℤ)] by decide⟩ (by omega)
  · rw [if_neg hfree]
    simp only [ok_bind]
    have hat : At t jp false 0 { fs := t, ip := jp, free := free - (1 + kmap.length), reads := [52] } :=
      ⟨⟨hjp, show -1 ∉ [(52 : ℤ)] by decide⟩, rfl, rfl, rfl,
        fun v => iff_of_false Bool.false_ne_true (Nat.not_lt_zero v)⟩
    have hsegments := loadSegments_stray hat elf.phnum elf.phoff stack.ph
    have henough : pages USERTOP ≤ free - (1 + kmap.length) + pages 0 ↔
        pages USERTOP + (1 + kmap.length) ≤ free := by
      rw [show pages 0 = 0 from rfl]
      omega
    simp only [henough] at hsegments
    exact hsegments.bind fun sz u hu => (makeStack_quiet hu argv sz).bind fun _ w hw => .ok hw

theorem exec_of_bad {env : Env} {stack : Stack} {m : Machine}
    (h : build env.argv stack { fs := s, ip, free := env.free } = .error (.bad, m)) :
    exec env s ip stack = (m.outcome (.returned (-1) env.proc), m.reads) := by
  rw [exec, h]

theorem exec_of_strayed {env : Env} {stack : Stack} {stop : Stop} {m : Machine}
    (h : build env.argv stack { fs := s, ip, free := env.free } = .error (stop, m))
    (hs : m.strayed = true) : exec env s ip stack = (.stray, m.reads) := by
  rw [exec, h]
  cases stop
  · exact congrArg (·, m.reads) (if_pos hs)
  · exact congrArg (·, m.reads) (if_pos hs)

end

/-! ## A first block that fails -/

/-- Bytes that fit into a page that is mapped. -/
theorem copyout_page (pgdir : Image) (va : ℕ) {page : ℕ → Byte} {p : List Byte} (fuel : ℕ)
    (hpage : pgdir (va / PGSIZE) = some page) (hp : p ≠ []) (hfits : va % PGSIZE + p.length ≤ PGSIZE) :
    copyout (fuel + 2) pgdir va p =
      some (Function.update pgdir (va / PGSIZE) (some (storeAt page (va % PGSIZE) p))) := by
  have hmin : min (PGSIZE - va % PGSIZE) p.length = p.length := Nat.min_eq_right (by omega)
  rw [copyout, if_neg hp, hpage]
  dsimp only
  rw [hmin, List.take_length, List.drop_length, copyout, if_pos rfl]

/-- The stack of a program without arguments and without segments. -/
theorem makeStack_empty {m : Machine} (hfree : m.free = 1) :
    ∃ pgdir, makeStack [] 0 m = .ok ((4096, 4080), { m with free := 0, pgdir }) := by
  have halloc : allocuvm m (PGROUNDUP 0) (PGROUNDUP 0 + PGSIZE) =
      (4096, { m with free := 0, pgdir := Function.update m.pgdir 0 (some fun _ => 0) }) := by
    obtain ⟨fs, ip, free, pgdir, reads⟩ := m
    obtain rfl : free = 1 := hfree
    rfl
  have hlen : ([0xffffffff, 0, 4092, 0].flatMap fun w => le32 (.ofNat 32 w)).length = 16 := rfl
  have hpush : ∀ pgdir, pushStack pgdir [] 4096 =
      (copyout 16 pgdir 4080 ([0xffffffff, 0, 4092, 0].flatMap fun w => le32 (.ofNat 32 w))).map (·, 4080) :=
    fun _ => rfl
  have hne : ([0xffffffff, 0, 4092, 0].flatMap fun w => le32 (.ofNat 32 w)) ≠ [] := List.cons_ne_nil _ _
  generalize ([0xffffffff, 0, 4092, 0].flatMap fun w => le32 (.ofNat 32 w)) = p at hlen hpush hne
  have hcopy := copyout_page (Function.update m.pgdir 0 (some fun _ => 0)) 4080 14
    (Function.update_self ..) hne (by rw [hlen]; decide)
  unfold makeStack
  rw [halloc]
  dsimp only
  rw [if_neg (by decide), hpush, hcopy]
  exact ⟨_, rfl⟩

/-- An ELF header without segments. -/
def leftover : Stack where
  elf := putU32 (fun _ => 0) 0 ELF_MAGIC
  ph := fun _ => 0

/-- A process with one page, memory for another, and no arguments. -/
def noArgs : Env where
  proc := { pgdir := fun v => if v = 0 then some fun _ => 0 else none, sz := 4096, name := [105], eip := 32,
            esp := 4096 }
  free := 14
  path := [120]
  argv := []

/-- The header that is left over is run. -/
theorem exec_leftover {s : Fs} {ip : Inode} (hc : ip.type = T_CHECKED) (hbad : FirstBlockFails s ip) :
    ∃ proc, exec noArgs s ip leftover = (.returned 0 proc, [-1]) := by
  obtain ⟨t, jp, hr⟩ := readi_broken hc hbad
  have hread : read { fs := s, ip, free := noArgs.free } 0 52 =
      .ok ((-1, []), { fs := t, ip := jp, free := 14, reads := [-1] }) := by
    rw [read, hr]
    rfl
  have hmagic : (elfhdr leftover.elf).magic = ELF_MAGIC := u32_putU32 ..
  have hphnum : (elfhdr leftover.elf).phnum = 0 := rfl
  have hset : setupkvm { fs := t, ip := jp, free := 14, reads := [-1] } =
      .ok ((), { fs := t, ip := jp, free := 1, reads := [-1] }) := rfl
  obtain ⟨pgdir, hstack⟩ := makeStack_empty (m := { fs := t, ip := jp, free := 1, reads := [-1] }) rfl
  have hbuild : build noArgs.argv leftover { fs := s, ip, free := noArgs.free } =
      .ok ((elfhdr leftover.elf, 4096, 4080), { fs := t, ip := jp, free := 0, pgdir, reads := [-1] }) := by
    have hold : storeAt leftover.elf 0 [] = leftover.elf :=
      funext fun x => storeAt_other leftover.elf (.inr (Nat.zero_le x))
    unfold build
    rw [hread, ok_bind]
    dsimp only
    rw [if_neg (by decide), hold, if_neg (not_not_intro hmagic), hset, ok_bind]
    dsimp only
    rw [hphnum, loadSegments, ok_bind]
    dsimp only
    rw [show noArgs.argv = [] from rfl, hstack, ok_bind]
  rw [exec, hbuild]
  exact ⟨_, rfl⟩

theorem not_contained {s : Fs} {ip : Inode} (hc : ip.type = T_CHECKED) (hbad : FirstBlockFails s ip) :
    ¬ Contained s ip := by
  intro h
  obtain ⟨proc, hexec⟩ := exec_leftover hc hbad
  have hfails := h.fails noArgs leftover
  rw [hexec] at hfails
  have hret := (Outcome.returned.inj (hfails (List.mem_singleton_self _))).1
  cases hret

section
variable {s : Fs} {ip : Inode}

/-- Where a read has failed after stray bytes, the header was delivered and the run followed it. -/
theorem strayFails_of_build (hc : ip.type = T_CHECKED) (hok : ¬ FirstBlockFails s ip) {env : Env}
    {stack : Stack} {stop : Stop} {m : Machine}
    (h : build env.argv stack { fs := s, ip, free := env.free } = .error (stop, m))
    (hstrayed : m.strayed = true) (hin : -1 ∈ m.reads) : StrayFails s ip := by
  have hgood : Good { fs := s, ip, free := env.free } := ⟨hc, List.not_mem_nil⟩
  obtain ⟨t, jp, bytes, hr, hmagic⟩ : ∃ t jp bytes, readi s ip 0 52 = .ok (t, jp, 52, bytes) ∧
      (elfhdr (storeAt (fun _ => 0) 0 bytes)).magic = ELF_MAGIC := by
    unfold build at h
    rcases read_cases hgood.checked 0 52 with ⟨u, hread, hreads⟩ |
        ⟨ret, bytes, u, hread, htype, hreads, hret⟩
    · rw [hread] at h
      obtain ⟨-, rfl⟩ := Prod.mk.inj (Except.error.inj h)
      rw [hreads] at hin
      cases hin
    · rw [hread] at h
      simp only [ok_bind] at h
      unfold read at hread
      split at hread
      · next t jp ret' bytes' hr =>
        obtain ⟨⟨rfl, rfl⟩, rfl⟩ := by simpa only [Except.ok.injEq, Prod.mk.injEq] using hread
        have hne := readi_header hc hok hr
        have hle := readi_le hc hr
        have hnot : ∀ u : Machine, u.reads = [ret'] → u ≠ m := by
          rintro u hu rfl
          rw [hu] at hin
          exact hne (List.mem_singleton.mp hin).symm
        split at h
        · exact absurd (Prod.mk.inj (Except.error.inj h)).2 (hnot _ rfl)
        · next hshort =>
          obtain rfl := hret.resolve_left hne
          have hsmall := toUint_natCast_le bytes'.length
          have hlen : bytes'.length = 52 := by omega
          split at h
          · exact absurd (Prod.mk.inj (Except.error.inj h)).2 (hnot _ rfl)
          · next hmagic =>
            rw [elfhdr_old stack.elf (fun _ => 0) hlen.ge] at hmagic
            rw [hlen] at hr
            exact ⟨t, jp, bytes', hr, not_not.mp hmagic⟩
      · cases hread
  refine ⟨t, jp, bytes, hr, hmagic, ?_⟩
  have hstray := build_stray hc hr hmagic env.free env.argv stack
  rw [h] at hstray
  generalize segmentReads (elfhdr (storeAt (fun _ => 0) 0 bytes)).phnum
    (elfhdr (storeAt (fun _ => 0) 0 bytes)).phoff 0 false t jp = b at hstray ⊢
  cases hstray with
  | error hb => exact hb.mpr ⟨hstrayed, hin⟩
  | short hm _ => exact absurd hin hm.reads

theorem not_contained_of_stray (hc : ip.type = T_CHECKED) (hstray : StrayFails s ip) :
    ¬ Contained s ip := by
  obtain ⟨t, jp, bytes, hr, hmagic, hfails⟩ := hstray
  intro h
  obtain ⟨env, henv⟩ : ∃ env, env = { noArgs with free := pages USERTOP + (1 + kmap.length) } :=
    ⟨_, rfl⟩
  have henough : pages USERTOP + (1 + kmap.length) ≤ env.free := by rw [henv]
  have hrun := build_stray hc hr hmagic env.free env.argv leftover
  rw [hfails] at hrun
  generalize hx : build env.argv leftover { fs := s, ip, free := env.free } = x at hrun
  cases hrun with
  | error hb =>
      obtain ⟨hstrayed, hin⟩ := hb.mp rfl
      have hcontained := h.fails env leftover
      rw [exec_of_strayed hx hstrayed] at hcontained
      cases hcontained hin
  | short _ hno => exact hno henough

end

/-- Failed reads are contained exactly when the first block matches its checksum, and no read fails
after bytes have gone outside of the image. -/
theorem contained_iff {s : Fs} {ip : Inode} (hc : ip.type = T_CHECKED) :
    Contained s ip ↔ ¬ FirstBlockFails s ip ∧ ¬ StrayFails s ip := by
  constructor
  · exact fun h => ⟨fun hbad => not_contained hc hbad h, fun hstray => not_contained_of_stray hc hstray h⟩
  · rintro ⟨hok, hno⟩
    have hm : ∀ free, Good { fs := s, ip, free } := fun free => ⟨hc, List.not_mem_nil⟩
    constructor
    · intro env stack hin
      have hends := build_ends (hm env.free) hok env.argv stack
      generalize hx : build env.argv stack { fs := s, ip, free := env.free } = x at hends
      cases hends with
      | ok hgood =>
          rw [exec, hx] at hin
          exact absurd hin hgood.reads
      | @error stop m hstop =>
          have hreads : -1 ∈ m.reads := by
            rw [exec, hx] at hin
            cases stop <;> exact hin
          obtain rfl := hstop hreads
          have hstrayed : m.strayed = false :=
            Bool.eq_false_iff.mpr fun hs => hno (strayFails_of_build hc hok hx hs hreads)
          rw [exec_of_bad hx, Machine.outcome, hstrayed]
          rfl
    · intro env stack stack'
      rw [exec, build_old (hm env.free) hok env.argv stack stack']
      rfl

/-- A file of 600 zeros, with a bit of its first block flipped. -/
def flipped : Fs where
  size := 100
  ninodes := 10
  bitmap := fun b => decide (b < 32)
  dinode := fun _ => {}
  block := fun b x => if b = 30 ∧ x = 0 then 1 else 0

def flippedInode : Inode where
  type := T_CHECKED
  nlink := 1
  size := 600
  addrs := fun i => if i = 0 then 30 else if i = 1 then 31 else 0

theorem flipped_fails : FirstBlockFails flipped flippedInode :=
  ⟨by decide, flipped, flippedInode, 30, rfl, by decide +kernel⟩

/-- The read of the header fails, and `exec` runs the header of an earlier call. -/
theorem flipped_runs : ¬ Contained flipped flippedInode ∧
    ∃ proc, exec noArgs flipped flippedInode leftover = (.returned 0 proc, [-1]) :=
  ⟨not_contained rfl flipped_fails, exec_leftover rfl flipped_fails⟩

/-- An executable with one segment of a byte at 512. The last byte makes the checksum of the block zero. -/
def executable : List Byte :=
  le32 ELF_MAGIC ++ List.replicate 24 0 ++ le32 52 ++ List.replicate 12 0 ++ [1, 0] ++
    List.replicate 6 0 ++ [1, 512, 0, 0, 1, 1].flatMap le32 ++ [0x06]

/-- The block of the segment does not match its checksum. -/
def brokenSegment : Fs := { flipped with
  block := fun b x => if b = 30 then executable.getD x 0 else if b = 31 ∧ x = 0 then 1 else 0 }

theorem brokenSegment_contained : (exec noArgs brokenSegment flippedInode leftover).2 = [52, 32, -1] ∧
    Contained brokenSegment flippedInode := by
  refine ⟨by decide +kernel, (contained_iff rfl).mpr ⟨?_, ?_⟩⟩
  · rintro ⟨-, t, jp, b, hb, hsum⟩
    have hmap : bmap brokenSegment flippedInode 0 = .ok (brokenSegment, flippedInode, 30) := rfl
    obtain ⟨rfl, rfl, rfl⟩ := by simpa only [Except.ok.injEq, Prod.mk.injEq] using hmap.symm.trans hb
    exact hsum (by decide +kernel)
  · rintro ⟨t, jp, bytes, hr, -, hfails⟩
    have hreads : (readi brokenSegment flippedInode 0 52).toOption.map (fun r =>
        segmentReads (elfhdr (storeAt (fun _ => 0) 0 r.2.2.2)).phnum
          (elfhdr (storeAt (fun _ => 0) 0 r.2.2.2)).phoff 0 false r.1 r.2.1) = some false := by
      decide +kernel
    rw [hr] at hreads
    exact Bool.false_ne_true ((Option.some.inj hreads).symm.trans hfails)

end IntroToOS.CheckedFs.Exec

import IntroToOS.CheckedFs.Transfer

/-! # The loop of `writei`

One turn of the loop maps a block, stores its checksum and rewrites it (`written_chunk`); the turns
add up to `Written`: the file system stays sound, the bytes of the range are the new ones, and no
other file changes. The only way out of the loop other than its end is a full disk.
-/

namespace IntroToOS.CheckedFs
open Lib
set_option autoImplicit false

section
variable {i : ℕ} {s s' s'' t : Fs} {ip ip' ip'' iq : Inode} {bn b off n left : ℕ}
  {src data : ℕ → Byte}

/-! ## Full disks -/

theorem exhausted_of_bmapIndirect (h : bmapIndirect s ip = .ok (s', ip'))
    (hex : s'.exhausted = false) : s.exhausted = false := by
  unfold bmapIndirect at h
  split at h
  · obtain ⟨⟨t, a⟩, hball, ht⟩ := bind_eq_ok.mp h
    obtain ⟨rfl, -⟩ := Prod.mk.inj (Except.ok.inj ht)
    exact exhausted_of_balloc hball hex
  · obtain ⟨rfl, -⟩ := Prod.mk.inj (Except.ok.inj h)
    exact hex

theorem exhausted_of_bmap (h : bmap s ip bn = .ok (s', ip', b)) (hex : s'.exhausted = false) :
    s.exhausted = false := by
  unfold bmap at h
  split at h
  · split at h
    · obtain ⟨⟨t, a⟩, hball, ht⟩ := bind_eq_ok.mp h
      obtain ⟨rfl, -⟩ := Prod.mk.inj (Except.ok.inj ht)
      exact exhausted_of_balloc hball hex
    · obtain ⟨rfl, -⟩ := Prod.mk.inj (Except.ok.inj h)
      exact hex
  · split at h
    · obtain ⟨⟨t, iq⟩, hind, ht⟩ := bind_eq_ok.mp h
      refine exhausted_of_bmapIndirect hind ?_
      simp only at ht
      split at ht
      · obtain ⟨⟨u, a⟩, hball, hu⟩ := bind_eq_ok.mp ht
        obtain ⟨rfl, -⟩ := Prod.mk.inj (Except.ok.inj hu)
        exact exhausted_of_balloc hball hex
      · obtain ⟨rfl, -⟩ := Prod.mk.inj (Except.ok.inj ht)
        exact hex
    · cases h

theorem exhausted_of_storeChecksum (h : storeChecksum s ip bn data = .ok (s', ip')) :
    s'.exhausted = s.exhausted := by
  unfold storeChecksum update_checksum at h
  split at h
  · split at h
    · obtain ⟨rfl, -⟩ := Prod.mk.inj (Except.ok.inj h)
      rfl
    · split at h
      · obtain ⟨rfl, -⟩ := Prod.mk.inj (Except.ok.inj h)
        rfl
      · cases h
  · obtain ⟨rfl, -⟩ := Prod.mk.inj (Except.ok.inj h)
    rfl

/-- What one turn of the loop of `writei` does before the rest of the loop runs. -/
theorem writeLoop_succ_eq_ok {fuel : ℕ} (hl : left ≠ 0) :
    writeLoop (fuel + 1) s ip src off left = .ok (s', ip') ↔
      ∃ t iq b u ir, bmap s ip (off / BSIZE) = .ok (t, iq, b) ∧
        storeChecksum t iq (off / BSIZE) (patch (t.block b) (off % BSIZE) (chunk off left) src) =
          .ok (u, ir) ∧
        writeLoop fuel
          (u.setBlock b (patch (t.block b) (off % BSIZE) (chunk off left) src)) ir
          (fun k => src (chunk off left + k)) (off + chunk off left) (left - chunk off left) =
          .ok (s', ip') := by
  rw [writeLoop, if_neg hl]
  constructor
  · intro h
    obtain ⟨⟨t, iq, b⟩, hb, h⟩ := bind_eq_ok.mp h
    obtain ⟨⟨u, ir⟩, hst, h⟩ := bind_eq_ok.mp h
    exact ⟨t, iq, b, u, ir, hb, hst, h⟩
  · rintro ⟨t, iq, b, u, ir, hb, hst, h⟩
    simp only [hb, ok_bind, hst]
    exact h

theorem exhausted_of_writeLoop {fuel : ℕ} (h : writeLoop fuel s ip src off left = .ok (s', ip'))
    (hex : s'.exhausted = false) : s.exhausted = false := by
  induction fuel generalizing s ip src off left with
  | zero =>
      obtain ⟨rfl, -⟩ := Prod.mk.inj (Except.ok.inj h)
      exact hex
  | succ fuel ih =>
      by_cases hl : left = 0
      · rw [writeLoop, if_pos hl] at h
        obtain ⟨rfl, -⟩ := Prod.mk.inj (Except.ok.inj h)
        exact hex
      · obtain ⟨t, iq, b, u, ir, hb, hst, hrest⟩ := (writeLoop_succ_eq_ok hl).mp h
        have hu : (u.setBlock b _).exhausted = false := ih hrest
        exact exhausted_of_bmap hb ((exhausted_of_storeChecksum hst).symm.trans hu)

/-! ## One turn -/

theorem Rewrites.extends {k : ℕ} (h : Sound s (table s i ip))
    (hw : Rewrites s s' (table s i ip) (table s' i ip') i k data) (hrest : SameRest s s')
    (haddrs : ip' = { ip with addrs := ip'.addrs }) : Extends i s ip s' ip' where
  sound := h.rewrite hw
  rest := hrest
  addrs := haddrs
  alloc := by
    intro l hl
    have hi := hw.reached.inUse
    rw [table_self] at hi
    have hr : Reaches s (table s i ip) i (.data l) := ⟨by rwa [table_self], by rwa [table_self]⟩
    have := ((hw.reaches_iff h).mpr hr).ne_zero
    rwa [table_self] at this
  others := by
    intro j hj hu
    funext o
    have := hw.fileByte_eq h (j := j) (by rwa [table_of_ne hj]) o
    rwa [if_neg fun he => hj he.1, table_of_ne hj, table_of_ne hj, hrest.dinode] at this

/-- The effect of writing the bytes of `src` to the range of `n` bytes from `off` on. An inode that
is not checked only changes when a block is allocated. -/
structure Written (i : ℕ) (s : Fs) (ip : Inode) (off n : ℕ) (src : ℕ → Byte) (s' : Fs)
    (ip' : Inode) : Prop extends Extends i s ip s' ip' where
  file : fileByte s'.block ip' = patch (fileByte s.block ip) off n src
  allocated : Allocated s'.block ip' off n
  quiet : ip.type ≠ T_CHECKED → Allocated s.block ip off n → ip' = ip

theorem Written.refl (h : Sound s (table s i ip)) : Written i s ip off 0 src s ip where
  toExtends := .refl h
  file := (patch_zero _ _ _).symm
  allocated := fun o h1 h2 => absurd h2 (by omega)
  quiet := fun _ _ => rfl

theorem Written.append {m : ℕ} (hm : m ≤ left) (h : Written i s ip off m src s' ip')
    (h' : Written i s' ip' (off + m) (left - m) (fun k => src (m + k)) s'' ip'') :
    Written i s ip off left src s'' ip'' where
  toExtends := h.toExtends.trans h'.toExtends
  file := by rw [h'.file, h.file, patch_patch _ _ hm]
  allocated := by
    intro o h1 h2
    by_cases ho : o < off + m
    · exact h'.alloc _ (h.allocated o h1 ho)
    · exact h'.allocated o (by omega) (by omega)
  quiet := by
    intro hplain hal
    have h1 : ip' = ip := h.quiet hplain fun o h1 h2 => hal o h1 (by omega)
    have h2 : ip'' = ip' := by
      refine h'.quiet (by rwa [h.type]) fun o h3 h4 => ?_
      exact h.alloc _ (hal o (by omega) (by omega))
    rw [h2, h1]

/-- Patching the block at `off / BSIZE` patches the file. -/
theorem fileByte_patch {f g : ℕ → Byte} {m : ℕ} (hfit : off % BSIZE + m ≤ BSIZE)
    (hf : ∀ o, f o = if o / BSIZE = off / BSIZE
      then patch (fun x => g (off / BSIZE * BSIZE + x)) (off % BSIZE) m src (o % BSIZE) else g o) :
    f = patch g off m src := by
  funext o
  have hfit' : off % 512 + m ≤ 512 := hfit
  rw [hf o]
  by_cases ho : o / BSIZE = off / BSIZE
  · have ho' : o / 512 = off / 512 := ho
    rw [if_pos ho]
    unfold patch
    by_cases hin : off ≤ o ∧ o < off + m
    · have hin' : off % BSIZE ≤ o % BSIZE ∧ o % BSIZE < off % BSIZE + m := by
        show off % 512 ≤ o % 512 ∧ o % 512 < off % 512 + m
        omega
      rw [if_pos hin, if_pos hin', show o % BSIZE - off % BSIZE = o - off by
        show o % 512 - off % 512 = o - off
        omega]
    · have hin' : ¬ (off % BSIZE ≤ o % BSIZE ∧ o % BSIZE < off % BSIZE + m) := by
        show ¬ (off % 512 ≤ o % 512 ∧ o % 512 < off % 512 + m)
        omega
      rw [if_neg hin, if_neg hin']
      show g (off / BSIZE * BSIZE + o % BSIZE) = g o
      rw [← ho, Nat.mul_comm, Nat.div_add_mod]
  · have ho' : ¬ o / 512 = off / 512 := ho
    have hin : ¬ (off ≤ o ∧ o < off + m) := by omega
    rw [if_neg ho, patch, if_neg hin]

theorem fileByte_block {block : ℕ → ℕ → Byte} (hp : pointer block ip (.data bn) ≠ 0) {x : ℕ}
    (hx : x < BSIZE) :
    fileByte block ip (bn * BSIZE + x) = block (blockNo (pointer block ip (.data bn))) x := by
  have hx' : x < 512 := hx
  have hdiv : (bn * BSIZE + x) / BSIZE = bn := by
    show (bn * 512 + x) / 512 = bn
    omega
  have hmod : (bn * BSIZE + x) % BSIZE = x := by
    show (bn * 512 + x) % 512 = x
    omega
  rw [fileByte, hdiv, hmod, if_neg hp]

theorem written_chunk (h : Sound s (table s i ip)) (hi : ip.type ≠ 0) (hl : 0 < left)
    (hb : bmap s ip (off / BSIZE) = .ok (t, iq, b)) (hex : t.exhausted = false)
    (hst : storeChecksum t iq (off / BSIZE)
      (patch (t.block b) (off % BSIZE) (chunk off left) src) = .ok (s', ip')) :
    Written i s ip off (chunk off left) src
      (s'.setBlock b (patch (t.block b) (off % BSIZE) (chunk off left) src)) ip' := by
  obtain ⟨hkeeps, -, hp, rfl⟩ := bmap_spec h hi hb hex
  have hiq : iq.type ≠ 0 := by rw [hkeeps.type]; exact hi
  have hstamp := storeChecksum_spec hkeeps.sound hiq hp hst
  have hw := hstamp.rewrites hkeeps.sound hiq hp
  have hrest : SameRest t (s'.setBlock (blockNo (pointer t.block iq (.data (off / BSIZE))))
      (patch (t.block (blockNo (pointer t.block iq (.data (off / BSIZE))))) (off % BSIZE)
        (chunk off left) src)) :=
    ⟨hstamp.rest.size, hstamp.rest.ninodes, hstamp.rest.dinode, hstamp.rest.inode,
      hstamp.rest.devsw, hstamp.rest.freed⟩
  exact {
    toExtends := hkeeps.toExtends.trans (hw.extends hkeeps.sound hrest hstamp.addrs)
    file := by
      rw [← hkeeps.file]
      refine fileByte_patch (chunk_fits off left) fun o => ?_
      have hu := hw.reached.inUse
      have hbyte := hw.fileByte_eq hkeeps.sound hu o
      rw [table_self, table_self] at hbyte
      rw [hbyte]
      by_cases ho : o / BSIZE = off / BSIZE
      · have hlt : o % BSIZE < BSIZE := Nat.mod_lt _ (by decide)
        rw [if_pos ⟨rfl, ho⟩, if_pos ho, patch, patch, fileByte_block hp hlt]
      · rw [if_neg fun he => ho he.2, if_neg ho]
    allocated := by
      intro o h1 h2
      have hdiv : o / BSIZE = off / BSIZE := by
        have hk : o - off < chunk off left := by omega
        have := div_of_chunk hk
        rwa [Nat.add_sub_cancel' h1] at this
      have hr := (hw.reaches_iff hkeeps.sound).mpr hw.reached
      have := hr.ne_zero
      rw [table_self] at this
      rwa [hdiv]
    quiet := by
      intro hplain hal
      have hp0 := hal off (Nat.le_refl _) (by have := chunk_pos off hl; omega)
      rw [bmap_of_allocated hp0] at hb
      obtain ⟨-, rfl, -⟩ := by simpa only [Except.ok.injEq, Prod.mk.injEq] using hb
      exact hstamp.quiet hplain }

/-! ## The loop -/

theorem writeLoop_spec {fuel : ℕ} (h : Sound s (table s i ip)) (hi : ip.type ≠ 0)
    (hfuel : left ≤ fuel) (hw : writeLoop fuel s ip src off left = .ok (s', ip'))
    (hex : s'.exhausted = false) : Written i s ip off left src s' ip' := by
  induction fuel generalizing s ip src off left with
  | zero =>
      obtain rfl := Nat.le_zero.mp hfuel
      obtain ⟨rfl, rfl⟩ := Prod.mk.inj (Except.ok.inj hw)
      exact .refl h
  | succ fuel ih =>
      by_cases hl : left = 0
      · subst hl
        rw [writeLoop, if_pos rfl] at hw
        obtain ⟨rfl, rfl⟩ := Prod.mk.inj (Except.ok.inj hw)
        exact .refl h
      · obtain ⟨t, iq, b, u, ir, hb, hst, hrest⟩ := (writeLoop_succ_eq_ok hl).mp hw
        have hu : (u.setBlock b _).exhausted = false := exhausted_of_writeLoop hrest hex
        have ht : t.exhausted = false := (exhausted_of_storeChecksum hst).symm.trans hu
        have hpos := chunk_pos off (Nat.pos_of_ne_zero hl)
        have hchunk := written_chunk h hi (Nat.pos_of_ne_zero hl) hb ht hst
        have htype : ir.type ≠ 0 := by rw [hchunk.type]; exact hi
        exact hchunk.append (chunk_le off left) (ih hchunk.sound htype (by omega) hrest)

end

end IntroToOS.CheckedFs

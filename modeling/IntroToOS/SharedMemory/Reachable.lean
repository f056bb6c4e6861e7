import IntroToOS.SharedMemory.ForkExec

/-! # Reachable states

Every call keeps the invariant, with one exception: an `exec` that stores bytes of its file over
the kernel (`SafeCall`). Attachments that fail for a key that nobody has leave pages behind that
nobody uses; without them (`RoomyStep`) there are none, and no `exit` and no `exec` passes NULL to
`kfree`.
-/

namespace IntroToOS.SharedMemory
open Lib
set_option autoImplicit false

/-- An `exec` stores no bytes of its file over the kernel. -/
def SafeCall (s : Kernel) (p : ProcId) : Call → Prop
  | .exec file _ => ∀ f ∈ file, KernelSafe s p f
  | _ => True

instance (s : Kernel) (p : ProcId) : ∀ c, Decidable (SafeCall s p c)
  | .exec file _ => inferInstanceAs (Decidable (∀ f ∈ file, KernelSafe s p f))
  | .sbrk _ | .shmgetat .. | .fork | .exit | .wait | .kill _ => isTrue trivial

/-- An attachment has room, and memory if the key has to get its pages. -/
def RoomyStep (s : Kernel) (p : ProcId) : Call → Prop
  | .shmgetat key npages => RoomyCall s p key npages
  | _ => True

section
variable {s t : Kernel} {p : ProcId} {c : Call} {K : KernelStore}

/-! ## One call -/

theorem sbrk_inv {n : BitVec 32} (h : Inv s) (hp : (s.proc p).state = .RUNNABLE) :
    ∃ r, sys_sbrk s p n = .ok r ∧ Inv r.1 ∧ (Neat s → Neat r.1) := by
  obtain ⟨⟨t, ret⟩, ht, hinv, hspages⟩ := growproc_inv (m := n) h hp
  have hneat : Neat s → Neat t := fun hs => hs.of_spages hspages
  unfold sys_sbrk
  simp only
  rw [ht, ok_bind]
  simp only
  split
  · exact ⟨_, rfl, hinv, hneat⟩
  · exact ⟨_, rfl, hinv, hneat⟩

/-- What a call leaves behind, and how it may stop. -/
theorem call_inv (h : Inv s) (hp : (s.proc p).state = .RUNNABLE) (hsafe : SafeCall s p c) :
    Ends (call K s p c) (fun r => Inv r.1 ∧ (RoomyStep s p c → Neat s → Neat r.1))
      fun e => e ≠ .remap ∧ (Neat s → e ≠ .kfree) := by
  have hused : (s.proc p).state ≠ .UNUSED := by rw [hp]; decide
  cases c with
  | sbrk n =>
      obtain ⟨r, hr, hinv, hneat⟩ := sbrk_inv (n := n) h hp
      rw [call, hr]
      exact ⟨hinv, fun _ => hneat⟩
  | shmgetat key npages =>
      obtain ⟨r, hr, hinv, hroomy⟩ := shmgetat_inv key npages h hp
      rw [call, hr]
      exact ⟨hinv, fun hroom => (hroomy hroom).2⟩
  | fork =>
      have hfork := ends_iff.mp (fork_inv h hp)
      refine ends_iff.mpr ⟨fun r hr => ?_, fun e he => ?_⟩
      · exact ⟨(hfork.1 r hr).1, fun _ => (hfork.1 r hr).2⟩
      · rw [hfork.2 e he]
        exact ⟨nofun, fun _ => nofun⟩
  | exec file argv =>
      have hexec := ends_iff.mp (exec_inv (K := K) argv h hp hsafe)
      refine ends_iff.mpr ⟨fun r hr => ?_, fun e he => ?_⟩
      · exact ⟨(hexec.1 r hr).1, fun _ => (hexec.1 r hr).2⟩
      · rcases hexec.2 e he with (rfl | rfl) | ⟨rfl, hno⟩
        · exact ⟨nofun, fun _ => nofun⟩
        · exact ⟨nofun, fun _ => nofun⟩
        · exact ⟨nofun, fun hneat => absurd hneat hno⟩
  | exit =>
      have hexit := ends_iff.mp (exit_inv h hused)
      refine ends_iff.mpr ⟨fun r hr => ?_, fun e he => ?_⟩
      · exact ⟨(hexit.1 r hr).1, fun _ => (hexit.1 r hr).2⟩
      · rcases hexit.2 e he with rfl | ⟨rfl, hno⟩
        · exact ⟨nofun, fun _ => nofun⟩
        · exact ⟨nofun, fun hneat => absurd hneat hno⟩
  | wait =>
      have hwait := ends_iff.mp (wait_inv h p)
      refine ends_iff.mpr ⟨fun r hr => ?_, fun e he => ?_⟩
      · exact ⟨(hwait.1 r hr).1, fun _ => (hwait.1 r hr).2⟩
      · rw [hwait.2 e he]
        exact ⟨nofun, fun _ => nofun⟩
  | kill pid =>
      obtain ⟨r, hr, hinv, hneat⟩ := kill_inv h pid
      rw [call, hr]
      exact ⟨hinv, fun _ => hneat⟩

/-! ## Start -/

theorem kinit_inv {kend : ℕ} (cpus : ℕ) (hk : 0 < kend) : Inv (kinit kend cpus) ∧ Neat (kinit kend cpus) := by
  have hsub : List.Sublist (kinit kend cpus).freelist
      (List.range' kend (physPages - kend)).reverse := List.drop_sublist ..
  have hown : ∀ f, tally (List.count f)
      (fun p => ownFrames (kinit kend cpus) ((kinit kend cpus).proc p)) = 0 :=
    fun f => tally_eq_zero fun p => by rw [ownFrames_of_unused rfl, List.count_nil]
  have hkeys : ∀ f, tally (List.count f)
      (fun k => keyFrames ((kinit kend cpus).spages k)) = 0 :=
    fun f => tally_eq_zero fun k => by
      have hnil : keyFrames ((kinit kend cpus).spages k) = [] :=
        window_eq_nil fun x _ _ => if_pos rfl
      rw [hnil, List.count_nil]
  have huses : ∀ f, uses (kinit kend cpus) f = (kinit kend cpus).freelist.count f := fun f => by
    rw [uses, hown, hkeys, Nat.add_zero]
  refine ⟨{
    kend_pos := hk
    single := fun f => ?_
    valid := fun f hf => ?_
    region := fun p hp => absurd rfl hp
    attached := fun p _ hp => absurd rfl hp
    idle := fun p _ k => rfl
    counted := fun k => ?_
    bound := fun k => Nat.zero_le _
    full := fun k hk => absurd rfl hk }, fun k _ => rfl⟩
  · rw [huses f]
    refine List.nodup_iff_count_le_one.mp (hsub.nodup ?_) f
    exact List.nodup_reverse.mpr List.nodup_range'
  · rw [huses f, List.count_pos_iff] at hf
    have hmem := hsub.subset hf
    rw [List.mem_reverse, List.mem_range'_1] at hmem
    refine ⟨hmem.1, ?_⟩
    rcases Nat.le_total kend physPages with hle | hle
    · rw [Nat.add_sub_cancel' hle] at hmem
      exact hmem.2
    · rw [Nat.sub_eq_zero_of_le hle] at hmem
      exact absurd hmem.1 (Nat.not_le.mpr hmem.2)
  · have hzero : tally (attachment k) (kinit kend cpus).proc = 0 :=
      tally_eq_zero fun p => if_neg (not_not.mpr rfl)
    rw [hzero]
    rfl

/-- What `userinit` makes: `np` has a stack and a new directory `d` with one page, `mem`. -/
structure FirstProc (s t : Kernel) (np : ProcId) (kstack d mem : Frame) (ts : List Frame) : Prop where
  unused : (s.proc np).state = .UNUSED
  kend : t.kend = s.kend
  spages : t.spages = s.spages
  others : ∀ q, q ≠ np → t.proc q = s.proc q
  proc : t.proc np = { newProc s np kstack with pgdir := d, sz := PGSIZE, state := .RUNNABLE }
  dirs : ∀ f, f ≠ d → t.dir f = s.dir f
  tables : (t.dir d).tables = ts
  page : (t.dir d).pte 0 = some mem
  rest : ∀ v, 1 ≤ v → (t.dir d).pte v = none
  taken : s.freelist.Perm (kstack :: d :: ts ++ [mem] ++ t.freelist)

theorem userinit_spec {initcode : List Byte} (hu : userinit s initcode = .ok t) :
    ∃ np kstack d mem ts, FirstProc s t np kstack d mem ts := by
  unfold userinit at hu
  have hspec := allocproc_spec s
  revert hspec hu
  generalize allocproc s = r
  obtain ⟨a, oap⟩ := r
  intro hu hspec
  cases hspec with
  | full _ => cases hu
  | noStack _ _ _ => cases hu
  | new np kstack l hfind hfree =>
      simp only at hu
      generalize ha : ({ s.setProc np (newProc s np kstack) with
        nextpid := s.nextpid + 1, freelist := l } : Kernel) = a at hu
      cases hset : setupkvm a with
      | mk b od =>
        rw [hset] at hu
        cases od with
        | none => cases hu
        | some d =>
          obtain ⟨ts, hnew⟩ := setupkvm_some hset
          cases hbfree : b.freelist with
          | nil =>
              simp only at hu
              rw [kalloc_of_nil hbfree] at hu
              cases hu
          | cons mem rest =>
              simp only at hu
              rw [kalloc_of_cons hbfree] at hu
              obtain ⟨c, hc, hplace, -, -⟩ :=
                mappages_new (fun _ => 0) (show 0 < userPages by decide) (hnew.pte 0) hbfree
              simp only at hu
              rw [hc, ok_bind] at hu
              obtain rfl := Except.ok.inj hu
              have hsame := hnew.same.trans hplace.same
              have hcnp : c.proc np = newProc s np kstack := by
                rw [hsame.proc, ← ha]
                exact setProc_self
              refine ⟨np, kstack, d, mem, ts, state_of_findUnused hfind, ?_, ?_, fun q hq => ?_, ?_,
                fun f hf => ?_, ?_, ?_, fun v hv => ?_, ?_⟩
              · show c.kend = s.kend
                rw [hsame.kend, ← ha]
                rfl
              · show c.spages = s.spages
                rw [hsame.spages, ← ha]
                rfl
              · refine (setProc_of_ne hq).trans ?_
                show c.proc q = s.proc q
                rw [hsame.proc, ← ha]
                exact setProc_of_ne hq
              · refine setProc_self.trans ?_
                show ({ c.proc np with pgdir := d, sz := PGSIZE, state := .RUNNABLE } : Proc) = _
                rw [hcnp]
              · show c.dir f = s.dir f
                rw [hplace.others f hf, hnew.others f hf, ← ha]
                rfl
              · show (c.dir d).tables = ts
                rw [hplace.tables, hnew.dir]
              · show (c.dir d).pte 0 = some mem
                rw [hplace.pte, place_singleton, Function.update_self]
              · show (c.dir d).pte v = none
                rw [hplace.pte_of_lt (by simp only [List.length_singleton]; omega)]
                exact hnew.pte v
              · have hafree : a.freelist = l := by rw [← ha]
                show s.freelist.Perm (kstack :: d :: ts ++ [mem] ++ c.freelist)
                rw [hfree, ← hafree, hnew.freelist, List.append_assoc]
                exact (hplace.freelist.append_left _).cons kstack

section
variable {np : ProcId} {kstack d mem : Frame} {ts : List Frame}

theorem FirstProc.window (h : FirstProc s t np kstack d mem ts) :
    window (t.dir d).pte 0 (USERTOP / PGSIZE) = [mem] := by
  rw [window_of_le (n := 1) (by decide) fun v h1 _ => h.rest v (by omega), window_one_add, h.page]
  rfl

theorem FirstProc.region (h : FirstProc s t np kstack d mem ts) : Region t (t.proc np) := by
  rw [h.proc]
  exact {
    sz_pos := show 0 < PGSIZE by decide
    aligned := show PGSIZE ∣ USERTOP by decide
    apart := show PGROUNDUP PGSIZE ≤ USERTOP by decide
    top_le := Nat.le_refl _
    gap := fun v hv _ => h.rest v (show pages PGSIZE ≤ v from hv)
    above := fun v hv => h.rest v (Nat.le_trans (by decide) hv)
    covered := fun v f hv hf => by
      have hnone := h.rest v (Nat.le_trans (by decide : 1 ≤ userPages) hv)
      cases hnone.symm.trans hf }

theorem FirstProc.inv (h : FirstProc s t np kstack d mem ts) (hinv : Inv s) : Inv t := by
  have hidle : ∀ k, (s.proc np).key_addresses k = 0 := hinv.idle np (by rw [h.unused]; decide)
  have hd : d ∈ s.freelist := by
    rw [h.taken.mem_iff]
    simp
  refine hinv.step (p := np) ⟨h.kend, fun k => ?_, fun k => ?_, h.others, fun q _ hq => ?_⟩
    (fun f => ?_) (fun _ => h.region) (fun _ _ ho => ho) (fun _ _ => ?_) (fun hs => ?_)
    fun k _ hk => ?_
  · rw [h.spages]
    exact ⟨rfl, rfl⟩
  · have hnone : attachment k (s.proc np) = 0 := if_neg (not_not.mpr (hidle k))
    have hnone' : attachment k (t.proc np) = 0 := by
      rw [h.proc]
      rfl
    rw [h.spages, hnone, hnone']
  · exact h.dirs _ fun he => hinv.pgdir_not_free hq (he ▸ hd)
  · have hcount := h.taken.count_eq f
    rw [ownFrames_of_unused h.unused, h.proc, ownFrames_of_used (by simp)]
    simp only [newProc]
    rw [h.window, h.tables, hcount]
    simp only [List.cons_append, List.count_append, List.count_cons, List.count_nil]
    omega
  · rw [h.proc]
    exact ⟨fun k hk => absurd rfl hk, fun k _ hk => absurd rfl hk⟩
  · rw [h.proc] at hs
    exact absurd rfl hs
  · rw [h.proc] at hk
    exact absurd rfl hk

end

/-- The first process: a slot, a stack, and an address space with one page. -/
theorem userinit_inv {initcode : List Byte} (h : Inv s) (hneat : Neat s)
    (hu : userinit s initcode = .ok t) : Inv t ∧ Neat t := by
  obtain ⟨_, _, _, _, _, hfirst⟩ := userinit_spec hu
  exact ⟨hfirst.inv h, hneat.of_spages hfirst.spages⟩

theorem boot_inv {kend cpus : ℕ} {initcode : List Byte} (hk : 0 < kend)
    (hboot : boot kend cpus initcode = .ok s) : Inv s ∧ Neat s := by
  obtain ⟨hinv, hneat⟩ := kinit_inv cpus hk
  unfold boot at hboot
  cases hset : setupkvm (kinit kend cpus) with
  | mk a od =>
    rw [hset] at hboot
    cases od with
    | none =>
        have hout := setupkvm_none hset
        exact userinit_inv (hout.inv hinv) (hneat.of_spages hout.same.spages) hboot
    | some d =>
        obtain ⟨ts, hnew⟩ := setupkvm_some hset
        have hfresh := hnew.fresh (.refl a)
        exact userinit_inv (hfresh.inv hinv) (hneat.of_spages hfresh.same.spages) hboot

/-! ## Runs -/

theorem inv_of_run {ok : Kernel → ProcId × Call → Prop} (h : Inv s) (hrun : Run (step K) ok s t)
    (hok : ∀ s a, ok s a → SafeCall s a.1 a.2) : Inv t := by
  refine hrun.invariant h fun u a v hu ha hstep => ?_
  obtain ⟨hp, hcall⟩ := Option.ite_none_right_eq_some.mp hstep
  obtain ⟨r, hr, rfl⟩ := Option.map_eq_some_iff.mp hcall
  exact ((ends_iff.mp (call_inv hu hp (hok u a ha))).1 r (toOption_eq_some.mp hr)).1

theorem neat_of_run (h : Inv s) (hneat : Neat s)
    (hrun : Run (step K) (fun s a => SafeCall s a.1 a.2 ∧ RoomyStep s a.1 a.2) s t) : Inv t ∧ Neat t := by
  refine hrun.invariant (P := fun u => Inv u ∧ Neat u) ⟨h, hneat⟩ fun u a v hu ha hstep => ?_
  obtain ⟨hp, hcall⟩ := Option.ite_none_right_eq_some.mp hstep
  obtain ⟨r, hr, rfl⟩ := Option.map_eq_some_iff.mp hcall
  obtain ⟨hinv, hkeep⟩ := (ends_iff.mp (call_inv hu.1 hp ha.1)).1 r (toOption_eq_some.mp hr)
  exact ⟨hinv, hkeep ha.2 hu.2⟩

end

end IntroToOS.SharedMemory

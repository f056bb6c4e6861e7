import IntroToOS.Threads.FreeList
import Mathlib.Data.BitVec

/-! # Runs of the allocator

A call of `malloc` grows the process at most once, and then finds what it has got. As long as every
size fits into a positive `int` once it is rounded up to units with a header, the memory that the
program has been given is its own and the list is in order.
-/

namespace IntroToOS.Threads.Umalloc
open Lib Function
set_option autoImplicit false

/-- Between two calls, apart from the lock. -/
structure Ready (base start : ℕ) (s : Proc) (F A : Finset ℕ) : Prop where
  heap : Heap base start s F A
  coalesced : Coalesced base s F
  freep : s.freep ∈ F

theorem Ready.congr {base start : ℕ} {s t : Proc} {F A : Finset ℕ} (h : Ready base start s F A)
    (hsz : t.sz = s.sz) (hmapped : t.mapped = s.mapped) (hfreep : t.freep = s.freep)
    (hmem : ∀ a ∈ F ∪ A, t.mem a = s.mem a) : Ready base start t F A where
  heap := h.heap.congr hsz hmapped hmem
  coalesced := fun a ha hne => by
    rw [Proc.len, Proc.next, hmem a (Finset.mem_union_left A ha)]
    exact h.coalesced a ha hne
  freep := hfreep ▸ h.freep

/-- What a call leaves of the memory that is in use. -/
structure Keeps (s t : Proc) (A : Finset ℕ) : Prop where
  sz_le : s.sz ≤ t.sz
  used : ∀ a ∈ A, t.mem a = s.mem a

section
variable {base start : ℕ} {s t u : Proc} {F A : Finset ℕ} {a b p q n nunits : ℕ}

theorem Keeps.refl (s : Proc) (A : Finset ℕ) : Keeps s s A := ⟨Nat.le_refl _, fun _ _ => rfl⟩

theorem Keeps.trans (h : Keeps s t A) (h' : Keeps t u A) : Keeps s u A where
  sz_le := Nat.le_trans h.sz_le h'.sz_le
  used := fun a ha => (h'.used a ha).trans (h.used a ha)

/-! ## Taking a block -/

/-- A block of `nunits` units has been taken. -/
structure Taken (base start : ℕ) (s t : Proc) (A : Finset ℕ) (nunits b : ℕ) : Prop where
  ready : ∃ F', Ready base start t F' (insert b A)
  fresh : b ∉ A
  len : t.len b = 8 * nunits
  lock : t.alloc_lock = false
  keeps : Keeps s t A

theorem take_spec (h : Ready base start s F A) (hprev : p ∈ F) (hq : s.next p = q) (hne : q ≠ base)
    (hpos : 0 < nunits) (hfit : nunits ≤ (s.mem q).size) :
    ∃ t b, take s nunits p q (s.mem q).size = .ok (t, b + 8) ∧ Taken base start s t A nunits b := by
  have hqF : q ∈ F := hq ▸ h.heap.list.mem p hprev
  have hqU := Finset.mem_union_left A hqF
  have hqA : q ∉ A := fun hA => h.heap.unlinked q hA hqF
  have hpadd : ∀ b, b + 8 ≤ s.sz → padd b 1 = b + 8 := by
    intro b hb
    have hmax : s.sz ≤ 655360 := h.heap.sz_le
    unfold padd
    omega
  by_cases he : (s.mem q).size = nunits
  · -- the whole block
    have hunlink := h.heap.unlink hprev hq hne
    have hpq : p ≠ q := fun he => h.heap.next_ne hprev (hq ▸ hne) (hq.trans he.symm)
    refine ⟨lock_release { s.putPtr p (s.next q) with freep := p }, q, ?_, ?_⟩
    · rw [take, if_pos he, h.heap.ptr_eq hqU, ok_bind, h.heap.setPtr_eq (Finset.mem_union_left A hprev),
        ok_bind, hpadd q (h.heap.header_le hqU)]
    · have hlink : (lock_release { s.putPtr p (s.next q) with freep := p }).next =
          update s.next p (s.next q) := Proc.next_putPtr
      have hlen : (lock_release { s.putPtr p (s.next q) with freep := p }).len = s.len := Proc.len_putPtr
      refine ⟨⟨F.erase q, hunlink.congr rfl rfl fun _ _ => rfl, fun a ha hab => ?_,
        Finset.mem_erase.mpr ⟨hpq, hprev⟩⟩, hqA, ?_, rfl, Nat.le_refl _, fun a ha => ?_⟩
      · obtain ⟨-, haF⟩ := Finset.mem_erase.mp ha
        rw [hlink, hlen]
        by_cases hap : a = p
        · rw [hap, update_self]
          rw [hap] at hab
          -- there is room between `p` and `q`, and the block behind `q` is above it or the static one
          have hroom := h.coalesced p hprev hab
          have hup := h.heap.lt_next hprev (hq ▸ hne)
          rw [hq] at hroom hup
          have hle := h.heap.extents.apart p (Heap.mem_free hprev hab) q (Heap.mem_free hqF hne) hup
          by_cases hlast : s.next q = base
          · have := h.heap.base_lt (Heap.mem_free hprev hab)
            omega
          · have := h.heap.lt_next hqF hlast
            omega
        · rw [update_of_ne hap]
          exact h.coalesced a haF hab
      · rw [hlen, ← he]
        rfl
      · have hap : a ≠ p := fun hap => h.heap.unlinked a ha (hap ▸ hprev)
        exact update_of_ne hap ..
  · -- the end of it
    have hlt : nunits < (s.mem q).size := Nat.lt_of_le_of_ne hfit (Ne.symm he)
    have hlen : s.len q = 8 * (s.mem q).size := rfl
    have hpiece := h.heap.inside (Heap.mem_free hqF hne)
    have hmax : s.sz ≤ 655360 := h.heap.sz_le
    have hsplit := h.heap.split hqF hne hpos hlt
    have hat : padd q ((s.mem q).size - nunits) = q + 8 * ((s.mem q).size - nunits) := by
      unfold padd
      omega
    have hnew : ∀ a ∈ F ∪ A, a ≠ q + 8 * ((s.mem q).size - nunits) := fun a ha =>
      h.heap.ne_of_inside (Heap.mem_free hqF hne) (by omega) (by omega) ha
    have hstore : setSize (s.putSize q ((s.mem q).size - nunits)) (q + 8 * ((s.mem q).size - nunits)) nunits =
        .ok ((s.putSize q ((s.mem q).size - nunits)).putSize (q + 8 * ((s.mem q).size - nunits)) nunits) :=
      if_pos (h.heap.mapped_of_lt (by omega))
    have hend := hpadd (q + 8 * ((s.mem q).size - nunits)) (by omega)
    generalize hb : q + 8 * ((s.mem q).size - nunits) = b at hat hnew hstore hsplit hend
    refine ⟨lock_release { (s.putSize q ((s.mem q).size - nunits)).putSize b nunits with freep := p }, b,
      ?_, ?_⟩
    · rw [take, if_neg he, h.heap.setSize_eq hqU, ok_bind]
      dsimp only
      rw [hat, hstore, ok_bind, hend]
    · have hlink : (lock_release { (s.putSize q ((s.mem q).size - nunits)).putSize b nunits with
          freep := p }).next = s.next := Proc.next_putSize.trans Proc.next_putSize
      have hlen' : (lock_release { (s.putSize q ((s.mem q).size - nunits)).putSize b nunits with
          freep := p }).len = update (update s.len q (8 * ((s.mem q).size - nunits))) b (8 * nunits) :=
        Proc.len_putSize.trans (by rw [Proc.len_putSize])
      refine ⟨⟨F, hsplit.congr rfl rfl fun _ _ => rfl, fun a ha hab => ?_, hprev⟩, fun hA => ?_, ?_, rfl,
        Nat.le_refl _, fun a ha => ?_⟩
      · rw [hlink, hlen', update_of_ne (hnew a (Finset.mem_union_left A ha))]
        by_cases haq : a = q
        · rw [haq, update_self]
          by_cases hlast : s.next q = base
          · have := h.heap.base_lt (Heap.mem_free hqF hne)
            omega
          · have hup := h.heap.lt_next hqF hlast
            have := h.heap.extents.apart q (Heap.mem_free hqF hne) _
              (Heap.mem_free (h.heap.list.mem q hqF) hlast) hup
            omega
        · rw [update_of_ne haq]
          exact h.coalesced a ha hab
      · exact hnew b (Finset.mem_union_right F hA) rfl
      · rw [hlen', update_self]
      · have haq : a ≠ q := fun he => hqA (he ▸ ha)
        have hab := hnew a (Finset.mem_union_right F ha)
        exact (update_of_ne hab ..).trans (update_of_ne haq ..)

/-! ## Growing -/

/-- `n` more units, apart from the size in the process table. -/
structure Grown (s t : Proc) (U : Finset ℕ) (n : ℕ) : Prop where
  sz_le : s.sz + 8 * n ≤ USERTOP
  mapped : ∀ v < pages (s.sz + 8 * n), t.mapped v = true
  mem : ∀ a ∈ U, t.mem a = s.mem a
  freep : t.freep = s.freep
  lock : t.alloc_lock = s.alloc_lock

theorem allocuvm_spec (h : Heap base start s F A) (frames n : ℕ) :
    allocuvm s frames s.sz (s.sz + 8 * n) = (s, 0) ∨
      ∃ t, allocuvm s frames s.sz (s.sz + 8 * n) = (t, s.sz + 8 * n) ∧ Grown s t (F ∪ A) n := by
  have hup : ¬ s.sz + 8 * n < s.sz := by omega
  unfold allocuvm
  by_cases hbig : USERTOP < s.sz + 8 * n
  · exact .inl (if_pos hbig)
  · rw [if_neg hbig, if_neg hup]
    by_cases hframes : frames < pages (s.sz + 8 * n) - pages s.sz
    · exact .inl (if_pos hframes)
    · rw [if_neg hframes]
      refine .inr ⟨_, rfl, Nat.not_lt.mp hbig, fun v hv => ?_, fun a ha => ?_, rfl, rfl⟩
      · by_cases hold : v < pages s.sz
        · simp [h.mapped v hold]
        · simp [Added, Nat.not_lt.mp hold, hv]
      · have hin : ¬ Added s.sz (s.sz + 8 * n) (a / PGSIZE) := by
          rintro ⟨hle, -⟩
          have hheader := h.header_le ha
          have hle' : (s.sz + 4096 - 1) / 4096 ≤ a / 4096 := hle
          omega
        exact if_neg hin

theorem sys_sbrk_spec (h : Heap base start s F A) (frames : ℕ) (hn : 0 < n) (hint : n * 8 < 2 ^ 31) :
    sys_sbrk s frames (BitVec.ofNat 32 (n * 8)).toInt = (s, FAILED) ∨
      ∃ t, sys_sbrk s frames (BitVec.ofNat 32 (n * 8)).toInt = ({ t with sz := s.sz + 8 * n }, s.sz) ∧
        Grown s t (F ∪ A) n := by
  have hmax : s.sz ≤ 655360 := h.sz_le
  have harg : (BitVec.ofNat 32 (n * 8)).toInt = n * 8 := by
    rw [BitVec.toInt_eq_toNat_of_lt] <;> rw [BitVec.toNat_ofNat, Nat.mod_eq_of_lt (by omega)] <;> omega
  have hnew : (((s.sz : ℤ) + n * 8) % 2 ^ 32).toNat = s.sz + 8 * n := by omega
  have hpos : (0 : ℤ) < n * 8 := by omega
  rw [harg, sys_sbrk, growproc]
  dsimp only
  rw [hnew, if_pos hpos]
  rcases allocuvm_spec h frames n with halloc | ⟨t, halloc, hgrown⟩
  · rw [halloc]
    exact .inl (by simp [hn.ne'])
  · rw [halloc]
    have hsz : ¬ ((n : ℤ) * 8 ≠ 0 ∧ s.sz + 8 * n = 0) := by omega
    exact .inr ⟨t, by simp only [if_neg hsz], hgrown⟩

/-- What `morecore` does when there is memory. -/
structure More (base start : ℕ) (s t : Proc) (A : Finset ℕ) (nunits : ℕ) : Prop where
  ready : ∃ F', Ready base start t F' A ∧ ∃ a ∈ F', a ≠ base ∧ nunits ≤ (t.mem a).size
  lock : t.alloc_lock = s.alloc_lock
  keeps : Keeps s t A

/-- The result does not depend on the fuel, when there is enough of it. -/
theorem morecore_spec (h : Ready base start s F A) (hbase : 0 < base) (frames : ℕ)
    (hint : nunits * 8 < 2 ^ 31) :
    (∀ fuel, morecore fuel frames s nunits = .ok (s, 0)) ∨
      (∃ r k, ∀ fuel ≥ k, morecore fuel frames s nunits = .ok r) ∧
      ∀ fuel t q, morecore fuel frames s nunits = .ok (t, q) →
        q = t.freep ∧ q ≠ 0 ∧ More base start s t A nunits := by
  have hmax : max nunits 4096 * 8 < 2 ^ 31 := by omega
  rcases sys_sbrk_spec h.heap frames (by omega : 0 < max nunits 4096) hmax with hfail | ⟨u, hsbrk, hgrown⟩
  · refine .inl fun fuel => ?_
    unfold morecore
    dsimp only
    rw [hfail, if_pos rfl]
  · right
    -- the process has grown: the new memory is a block in use that is given back
    generalize hnu : max nunits 4096 = nu at hmax hsbrk hgrown
    have hsz : s.sz ≤ 655360 := h.heap.sz_le
    have hpos : 0 < nu := by omega
    have hnew : s.sz ∉ F ∪ A := fun hin => by
      have := h.heap.header_le hin
      omega
    have hext : Heap base start (({ u with sz := s.sz + 8 * nu } : Proc).putSize s.sz nu) F (insert s.sz A) :=
      h.heap.extend (t := { u with sz := s.sz + 8 * nu }) hpos rfl hgrown.sz_le hgrown.mapped hgrown.mem
    have hstore : setSize { u with sz := s.sz + 8 * nu } s.sz nu =
        .ok (({ u with sz := s.sz + 8 * nu } : Proc).putSize s.sz nu) :=
      if_pos (hext.mapped_of_lt (by rw [Proc.sz_putSize]; dsimp only; omega))
    have hlen : ∀ a ∈ F ∪ A, (({ u with sz := s.sz + 8 * nu } : Proc).putSize s.sz nu).mem a = s.mem a := by
      intro a ha
      have hne : a ≠ s.sz := fun he => hnew (he ▸ ha)
      exact (update_of_ne hne ..).trans (hgrown.mem a ha)
    have hcoal : Coalesced base (({ u with sz := s.sz + 8 * nu } : Proc).putSize s.sz nu) F := by
      intro a ha hne
      have hmem := hlen a (Finset.mem_union_left A ha)
      rw [Proc.len, Proc.next, hmem]
      exact h.coalesced a ha hne
    have hsize : (({ u with sz := s.sz + 8 * nu } : Proc).putSize s.sz nu).len s.sz = 8 * nu := by
      rw [Proc.len_putSize, update_self]
    have hfreep : (({ u with sz := s.sz + 8 * nu } : Proc).putSize s.sz nu).freep ∈ F := by
      have : u.freep ∈ F := hgrown.freep ▸ h.freep
      exact this
    have hlock : (({ u with sz := s.sz + 8 * nu } : Proc).putSize s.sz nu).alloc_lock = s.alloc_lock :=
      hgrown.lock
    have hgrew : s.sz ≤ (({ u with sz := s.sz + 8 * nu } : Proc).putSize s.sz nu).sz :=
      Nat.le_add_right ..
    generalize ({ u with sz := s.sz + 8 * nu } : Proc).putSize s.sz nu = w at hext hstore hlen hcoal hsize hfreep hlock hgrew
    have heq : ∀ fuel, morecore fuel frames s nunits = (do
        let t ← giveBack fuel w (s.sz + 8)
        .ok (t, t.freep)) := by
      intro fuel
      have hpadd : padd s.sz 1 = s.sz + 8 := by
        unfold padd
        omega
      have hok : s.sz ≠ FAILED := by
        unfold FAILED
        omega
      unfold morecore
      dsimp only
      rw [hnu, hsbrk]
      dsimp only
      rw [if_neg hok, hstore, ok_bind, hpadd]
      rfl
    have herase : (insert s.sz A).erase s.sz = A :=
      Finset.erase_insert fun hA => hnew (Finset.mem_union_right F hA)
    constructor
    · obtain ⟨t, k, ht⟩ := giveBack_returns hext hcoal hfreep (Finset.mem_insert_self ..)
      refine ⟨(t, t.freep), k, fun fuel hfuel => ?_⟩
      rw [heq, ht fuel hfuel, ok_bind]
    · intro fuel t q hmore
      rw [heq] at hmore
      obtain ⟨t', hgive, hret⟩ := bind_eq_ok.mp hmore
      obtain ⟨rfl, rfl⟩ := Prod.mk.inj (Except.ok.inj hret)
      obtain ⟨F', hback⟩ := giveBack_spec hext hcoal hfreep (Finset.mem_insert_self ..) hgive
      have hheap := hback.heap
      have hrel := hback.relinked
      rw [herase] at hheap hrel
      obtain ⟨a, ha, hne, hroom⟩ := hback.room
      refine ⟨rfl, ?_, ⟨F', ⟨hheap, hback.coalesced, hback.freep⟩, a, ha, hne, ?_⟩, ?_, ?_, ?_⟩
      · by_cases hb : t'.freep = base
        · omega
        · have := hheap.base_lt (Heap.mem_free hback.freep hb)
          omega
      · have hunits : t'.len a = 8 * (t'.mem a).size := rfl
        omega
      · rw [hrel.lock, hlock]
      · rw [hrel.sz]
        exact hgrew
      · intro a ha
        rw [hrel.used a ha, hlen a (Finset.mem_union_right F ha)]

/-! ## Searching -/

/-- What `malloc` leaves when it returns `ap`. -/
def Allocated (base start : ℕ) (s t : Proc) (A : Finset ℕ) (nunits ap : ℕ) : Prop :=
  (ap = 0 ∧ (∃ F', Ready base start t F' A) ∧ t.alloc_lock = false ∧ Keeps s t A) ∨
    ∃ b, ap = b + 8 ∧ Taken base start s t A nunits b

theorem Taken.of_keeps (h : Taken base start t u A nunits b) (hk : Keeps s t A) :
    Taken base start s u A nunits b :=
  { h with keeps := hk.trans h.keeps }

theorem Allocated.of_keeps {ap : ℕ} (h : Allocated base start t u A nunits ap) (hk : Keeps s t A) :
    Allocated base start s u A nunits ap := by
  rcases h with ⟨h0, hready, hlock, hkeeps⟩ | ⟨b, hb, htaken⟩
  · exact .inl ⟨h0, hready, hlock, hk.trans hkeeps⟩
  · exact .inr ⟨b, hb, htaken.of_keeps hk⟩

/-- One turn of the loop. -/
theorem search_succ (h : Ready base start s F A) (hqF : q ∈ F) (fuel frames turns : ℕ) :
    search fuel frames nunits (turns + 1) s p q =
      if nunits ≤ (s.mem q).size then take s nunits p q (s.mem q).size
      else if q = s.freep then do
        let (s, p) ← morecore fuel frames s nunits
        if p = 0 then .ok (lock_release s, 0)
        else do
          let q ← ptr s p
          search fuel frames nunits turns s p q
      else search fuel frames nunits turns s q (s.next q) := by
  have hqU := Finset.mem_union_left A hqF
  rw [search, h.heap.size_eq hqU, ok_bind, h.heap.ptr_eq hqU, ok_bind]

/-- The static header is too small for every request. -/
theorem ne_base_of_fit (h : Heap base start s F A) (hpos : 0 < nunits) (hfit : nunits ≤ (s.mem q).size) :
    q ≠ base := by
  rintro rfl
  have hzero : 8 * (s.mem q).size = 0 := h.base_size
  omega

theorem search_spec (h : Ready base start s F A) (hbase : 0 < base) (hprev : p ∈ F)
    (hq : s.next p = q) (hpos : 0 < nunits) (hint : nunits * 8 < 2 ^ 31) {fuel frames turns ap : ℕ}
    (hs : search fuel frames nunits turns s p q = .ok (t, ap)) :
    Allocated base start s t A nunits ap := by
  induction turns generalizing s F p q with
  | zero => cases hs
  | succ turns ih =>
      have hqF : q ∈ F := hq ▸ h.heap.list.mem p hprev
      rw [search_succ h hqF] at hs
      split at hs
      · next hfit =>
        obtain ⟨u, b, htake, htaken⟩ := take_spec h hprev hq (ne_base_of_fit h.heap hpos hfit) hpos hfit
        obtain ⟨rfl, rfl⟩ := Prod.mk.inj (Except.ok.inj (htake.symm.trans hs))
        exact .inr ⟨b, rfl, htaken⟩
      · split at hs
        · rcases morecore_spec h hbase frames hint with hfail | ⟨-, hmore⟩
          · rw [hfail, ok_bind] at hs
            obtain ⟨rfl, rfl⟩ := Prod.mk.inj (Except.ok.inj hs)
            exact .inl ⟨rfl, ⟨F, h.heap.congr rfl rfl fun _ _ => rfl, h.coalesced, h.freep⟩, rfl,
              Nat.le_refl _, fun _ _ => rfl⟩
          · obtain ⟨⟨u, r⟩, hmc, hs⟩ := bind_eq_ok.mp hs
            obtain ⟨rfl, hne, hgot⟩ := hmore fuel u r hmc
            obtain ⟨F', hready, -⟩ := hgot.ready
            simp only [if_neg hne] at hs
            rw [hready.heap.ptr_eq (Finset.mem_union_left A hready.freep), ok_bind] at hs
            exact (ih hready hready.freep rfl hs).of_keeps hgot.keeps
        · exact ih h hqF rfl hs

theorem search_here (h : Ready base start s F A) (hprev : p ∈ F) (hq : s.next p = q)
    (hpos : 0 < nunits) (hfit : nunits ≤ (s.mem q).size) (frames : ℕ) :
    ∃ r, ∀ turns ≥ 1, ∀ fuel, search fuel frames nunits turns s p q = .ok r := by
  have hqF : q ∈ F := hq ▸ h.heap.list.mem p hprev
  obtain ⟨t, c, htake, -⟩ := take_spec h hprev hq (ne_base_of_fit h.heap hpos hfit) hpos hfit
  refine ⟨(t, c + 8), fun turns hturns fuel => ?_⟩
  obtain ⟨n, rfl⟩ := Nat.exists_eq_add_of_le' hturns
  rw [search_succ h hqF, if_pos hfit, htake]

/-- A block that is large enough is met before the search comes back. -/
theorem search_finds (h : Ready base start s F A) (hprev : p ∈ F) (hq : s.next p = q)
    (hpos : 0 < nunits) {k : ℕ} (hk : s.next^[k] q = b) (hfit : nunits ≤ (s.mem b).size)
    (hno : ∀ j < k, s.next^[j] q ≠ s.freep) (frames : ℕ) :
    ∃ r, ∀ turns ≥ k + 1, ∀ fuel, search fuel frames nunits turns s p q = .ok r := by
  induction k generalizing p q with
  | zero =>
      obtain rfl : q = b := hk
      exact search_here h hprev hq hpos hfit frames
  | succ k ih =>
      have hqF : q ∈ F := hq ▸ h.heap.list.mem p hprev
      by_cases hhere : nunits ≤ (s.mem q).size
      · obtain ⟨r, hr⟩ := search_here h hprev hq hpos hhere frames
        exact ⟨r, fun turns hturns => hr turns (by omega)⟩
      · obtain ⟨r, hr⟩ := ih hqF rfl hk fun j hj => hno (j + 1) (by omega)
        have hgo : q ≠ s.freep := hno 0 (Nat.succ_pos k)
        refine ⟨r, fun turns hturns fuel => ?_⟩
        obtain ⟨n, rfl⟩ := Nat.exists_eq_add_of_le' hturns
        rw [← Nat.add_assoc, search_succ h hqF, if_neg hhere, if_neg hgo]
        exact hr _ (by omega) fuel

/-- Back where it began, the search ends or finds what `morecore` has got. -/
theorem search_last (h : Ready base start s F A) (hbase : 0 < base) (hprev : p ∈ F)
    (hq : s.next p = s.freep) (hpos : 0 < nunits) (hint : nunits * 8 < 2 ^ 31) (frames : ℕ) :
    ∃ r m, ∀ turns ≥ m, ∀ fuel ≥ m, search fuel frames nunits turns s p s.freep = .ok r := by
  by_cases hhere : nunits ≤ (s.mem s.freep).size
  · obtain ⟨r, hr⟩ := search_here h hprev hq hpos hhere frames
    exact ⟨r, 1, fun turns hturns fuel _ => hr turns hturns fuel⟩
  · rcases morecore_spec h hbase frames hint with hfail | ⟨⟨⟨u, x⟩, k₀, hk₀⟩, hmore⟩
    · refine ⟨(lock_release s, 0), 1, fun turns hturns fuel _ => ?_⟩
      obtain ⟨n, rfl⟩ := Nat.exists_eq_add_of_le' hturns
      rw [search_succ h h.freep, if_neg hhere, if_pos rfl, hfail, ok_bind]
      rfl
    · obtain ⟨rfl, hne, hgot⟩ := hmore k₀ u x (hk₀ k₀ (Nat.le_refl _))
      obtain ⟨F', hready, a, ha, -, hfit⟩ := hgot.ready
      obtain ⟨j, hj, hno⟩ := hready.heap.list.reaches_behind hready.freep ha
      obtain ⟨r, hr⟩ := search_finds hready hready.freep rfl hpos hj hfit hno frames
      refine ⟨r, max k₀ (j + 2), fun turns hturns fuel hfuel => ?_⟩
      obtain ⟨n, rfl⟩ : ∃ n, turns = n + 1 := ⟨turns - 1, by omega⟩
      rw [search_succ h h.freep, if_neg hhere, if_pos rfl, hk₀ fuel (by omega), ok_bind]
      simp only [if_neg hne]
      rw [hready.heap.ptr_eq (Finset.mem_union_left A hready.freep), ok_bind]
      exact hr n (by omega) fuel

/-- The search ends. -/
theorem search_returns (h : Ready base start s F A) (hbase : 0 < base) (hprev : p ∈ F)
    (hq : s.next p = q) (hpos : 0 < nunits) (hint : nunits * 8 < 2 ^ 31) (frames : ℕ) :
    ∃ r m, ∀ turns ≥ m, ∀ fuel ≥ m, search fuel frames nunits turns s p q = .ok r := by
  have hqF : q ∈ F := hq ▸ h.heap.list.mem p hprev
  obtain ⟨k, hk⟩ := h.heap.list.reaches hqF h.freep
  induction k generalizing p q with
  | zero =>
      obtain rfl : q = s.freep := hk
      exact search_last h hbase hprev hq hpos hint frames
  | succ k ih =>
      by_cases hlast : q = s.freep
      · rw [hlast]
        exact search_last h hbase hprev (hq.trans hlast) hpos hint frames
      · by_cases hhere : nunits ≤ (s.mem q).size
        · obtain ⟨r, hr⟩ := search_here h hprev hq hpos hhere frames
          exact ⟨r, 1, fun turns hturns fuel _ => hr turns hturns fuel⟩
        · obtain ⟨r, m, hr⟩ := ih hqF rfl (h.heap.list.mem q hqF) hk
          refine ⟨r, m + 1, fun turns hturns fuel hfuel => ?_⟩
          obtain ⟨n, rfl⟩ := Nat.exists_eq_add_of_le' hturns
          rw [← Nat.add_assoc, search_succ h hqF, if_neg hhere, if_neg hlast]
          exact hr _ (by omega) fuel (by omega)

/-! ## Calls -/

/-- Before the first call. -/
structure Fresh (base start : ℕ) (s : Proc) : Prop where
  freep : s.freep = 0
  sz : s.sz = start
  base_le : base + 8 ≤ start
  start_le : start ≤ USERTOP
  mapped : ∀ v < pages s.sz, s.mapped v = true

/-- The first call sets the list up. -/
theorem initBase_fresh (h : Fresh base start s) :
    ∃ t, initBase base s = .ok t ∧ Ready base start t {base} ∅ ∧ t.sz = s.sz := by
  have hmapped : ∀ x < s.sz, s.mapped (x / PGSIZE) = true := by
    intro x hx
    apply h.mapped
    show x / 4096 < (s.sz + 4096 - 1) / 4096
    omega
  have hle : base + 8 ≤ s.sz := h.sz ▸ h.base_le
  have hptr : setPtr s base base = .ok (s.putPtr base base) := if_pos (hmapped base (by omega))
  have hsize : setSize (s.putPtr base base) base 0 = .ok ((s.putPtr base base).putSize base 0) :=
    if_pos (hmapped (base + 4) (by omega))
  have hnext : ((s.putPtr base base).putSize base 0).next base = base := by
    rw [Proc.next_putSize, Proc.next_putPtr, update_self]
  have hlen : ((s.putPtr base base).putSize base 0).len base = 0 := by
    rw [Proc.len_putSize, update_self]
  refine ⟨{ (s.putPtr base base).putSize base 0 with freep := base }, ?_, ⟨?_, ?_, ?_⟩, rfl⟩
  · rw [initBase, if_pos h.freep, hptr, ok_bind, hsize, ok_bind]
  · have hempty : (({base} : Finset ℕ) ∪ ∅).erase base = ∅ := by simp
    exact {
      list := Circular.singleton hnext
      base_mem := Finset.mem_singleton_self base
      base_size := hlen
      base_le := h.base_le
      unlinked := fun a ha => absurd ha (Finset.notMem_empty a)
      extents := by
        rw [hempty]
        exact ⟨fun a ha => absurd ha (Finset.notMem_empty a),
          fun a ha => absurd ha (Finset.notMem_empty a)⟩
      start_le := Nat.le_of_eq h.sz.symm
      sz_le := Nat.le_trans (Nat.le_of_eq h.sz) h.start_le
      mapped := h.mapped }
  · intro a ha hne
    exact absurd (Finset.mem_singleton.mp ha) hne
  · exact Finset.mem_singleton_self base

theorem initBase_ready (h : Ready base start s F A) (hbase : 0 < base) : initBase base s = .ok s := by
  have hne : s.freep ≠ 0 := by
    by_cases hb : s.freep = base
    · omega
    · have := h.heap.base_lt (Heap.mem_free h.freep hb)
      omega
  exact if_neg hne

/-- What `malloc` does from a list that is set up, with the lock free. -/
theorem malloc_eq (h : Ready base start t F A) (hlock : s.alloc_lock = false)
    (hinit : initBase base { s with alloc_lock := true } = .ok t) (fuel frames nbytes : ℕ) :
    malloc base fuel frames s nbytes =
      search fuel frames (units nbytes) fuel t t.freep (t.next t.freep) := by
  have hacquire : lock_acquire s = .ok { s with alloc_lock := true } := by
    rw [lock_acquire, hlock]
    rfl
  rw [malloc, hacquire, ok_bind, hinit, ok_bind, h.heap.ptr_eq (Finset.mem_union_left A h.freep), ok_bind]

theorem units_pos (nbytes : ℕ) : 0 < units nbytes := Nat.succ_pos _

/-- Sizes that are positive in an `int` once they are rounded up. -/
theorem units_spec {nbytes : ℕ} (h : nbytes ≤ 2 ^ 31 - 16) :
    nbytes + 8 ≤ 8 * units nbytes ∧ units nbytes * 8 < 2 ^ 31 := by
  unfold units
  omega

/-- `free` of the block at `b`. -/
theorem free_eq (hlock : s.alloc_lock = false) (fuel ap : ℕ) :
    free fuel s ap = (do
      let t ← giveBack fuel { s with alloc_lock := true } ap
      .ok (lock_release t)) := by
  have hacquire : lock_acquire s = .ok { s with alloc_lock := true } := by
    rw [lock_acquire, hlock]
    rfl
  rw [free, hacquire, ok_bind]

end

/-! ## Runs -/

/-- Every live pointer is that of a block in use, which has room for what was asked for. -/
structure Owned (s : State) (A : Finset ℕ) : Prop where
  block : ∀ e ∈ s.live, ∃ b ∈ A, e.1 = b + 8 ∧ e.2 + 8 ≤ s.proc.len b
  nodup : (s.live.map Prod.fst).Nodup

structure Inv (base start : ℕ) (s : State) : Prop where
  lock : s.proc.alloc_lock = false
  heap : Fresh base start s.proc ∧ s.live = [] ∨
    ∃ F A, Ready base start s.proc F A ∧ Owned s A

/-- A program after `exec`: its memory is mapped and holds the static header. -/
structure Start (base : ℕ) (s : State) : Prop where
  base_pos : 0 < base
  fresh : Fresh base s.proc.sz s.proc
  lock : s.proc.alloc_lock = false
  live : s.live = []

/-- What was asked for fits into a positive `int` once it is rounded up to units with a header. -/
def Small (_ : State) (a : Call × ℕ) : Prop :=
  ∀ nbytes frames, a.1 = .malloc nbytes frames → nbytes.toNat ≤ 2 ^ 31 - 16

/-- The live blocks are in memory that `sbrk` has delivered and that is mapped, apart from each other
with their headers; the list is circular, in the order of the addresses and coalesced, and its headers
are apart from the live blocks; the lock is free. -/
structure Sound (base start : ℕ) (s : State) : Prop where
  lock : s.proc.alloc_lock = false
  inside : ∀ e ∈ s.live, start + 8 ≤ e.1 ∧ e.1 + e.2 ≤ s.proc.sz
  mapped : ∀ e ∈ s.live, ∀ x, e.1 ≤ x → x < e.1 + e.2 → s.proc.mapped (x / PGSIZE) = true
  apart : s.live.Pairwise fun e e' => e.1 + e.2 + 8 ≤ e'.1 ∨ e'.1 + e'.2 + 8 ≤ e.1
  list : s.proc.freep ≠ 0 → ∃ F, base ∈ F ∧ s.proc.freep ∈ F ∧ Circular F s.proc.next ∧
    Coalesced base s.proc F ∧ ∀ p ∈ F, ∀ e ∈ s.live, p + 16 ≤ e.1 ∨ e.1 + e.2 ≤ p

section
variable {base start : ℕ} {s t : State} {F A : Finset ℕ} {a : Call × ℕ}

theorem Start.inv (h : Start base s) : Inv base s.proc.sz s := ⟨h.lock, .inl ⟨h.fresh, h.live⟩⟩

theorem Owned.of_keeps (h : Owned s A) {p : Proc} (hk : Keeps s.proc p A) :
    Owned { s with proc := p } A where
  block := fun e he => by
    obtain ⟨b, hb, hptr, hlen⟩ := h.block e he
    refine ⟨b, hb, hptr, ?_⟩
    rw [Proc.len, hk.used b hb]
    exact hlen
  nodup := h.nodup

/-- `malloc` from a list that is set up. -/
theorem Inv.malloc (hbase : 0 < base) {p u : Proc} (h : Ready base start u F A)
    (ho : Owned { s with proc := u } A) {nbytes fuel frames ap : ℕ} (hsmall : nbytes ≤ 2 ^ 31 - 16)
    (hs : search fuel frames (units nbytes) fuel u u.freep (u.next u.freep) = .ok (p, ap)) :
    Inv base start { proc := p, live := if ap = 0 then s.live else (ap, nbytes) :: s.live } := by
  obtain ⟨hlen, hint⟩ := units_spec hsmall
  rcases search_spec h hbase h.freep rfl (units_pos nbytes) hint hs with
    ⟨rfl, ⟨F', hready⟩, hlock, hkeeps⟩ | ⟨b, rfl, htaken⟩
  · rw [if_pos rfl]
    exact ⟨hlock, .inr ⟨F', A, hready, ho.of_keeps hkeeps⟩⟩
  · rw [if_neg (Nat.succ_ne_zero _)]
    obtain ⟨F', hready⟩ := htaken.ready
    have hold := ho.of_keeps htaken.keeps
    refine ⟨htaken.lock, .inr ⟨F', insert b A, hready, fun e he => ?_, ?_⟩⟩
    · rcases List.mem_cons.mp he with rfl | he
      · refine ⟨b, Finset.mem_insert_self .., rfl, ?_⟩
        rw [htaken.len]
        exact hlen
      · obtain ⟨c, hc, hptr, hroom⟩ := hold.block e he
        exact ⟨c, Finset.mem_insert_of_mem hc, hptr, hroom⟩
    · refine List.nodup_cons.mpr ⟨fun hin => ?_, hold.nodup⟩
      obtain ⟨e, he, hptr⟩ := List.mem_map.mp hin
      obtain ⟨c, hc, hptr', -⟩ := hold.block e he
      dsimp only at hptr
      obtain rfl : b = c := by omega
      exact htaken.fresh hc

/-- Behind the lock and the set-up, `malloc` is a search from a list that is set up. -/
theorem Inv.search_eq (h : Inv base start s) (hbase : 0 < base) : ∃ u F A, Ready base start u F A ∧
    Owned { s with proc := u } A ∧ ∀ fuel frames nbytes, Umalloc.malloc base fuel frames s.proc nbytes =
      search fuel frames (units nbytes) fuel u u.freep (u.next u.freep) := by
  rcases h.heap with ⟨hfresh, hlive⟩ | ⟨F, A, hready, howned⟩
  · have hlocked : Fresh base start { s.proc with alloc_lock := true } :=
      ⟨hfresh.freep, hfresh.sz, hfresh.base_le, hfresh.start_le, hfresh.mapped⟩
    obtain ⟨u, hinit, hready, -⟩ := initBase_fresh hlocked
    refine ⟨u, {base}, ∅, hready, ⟨fun e he => ?_, ?_⟩, fun fuel frames nbytes =>
      malloc_eq hready h.lock hinit fuel frames nbytes⟩
    · rw [hlive] at he
      exact absurd he List.not_mem_nil
    · dsimp only
      rw [hlive]
      exact List.nodup_nil
  · have hlocked : Ready base start { s.proc with alloc_lock := true } F A :=
      hready.congr rfl rfl rfl fun _ _ => rfl
    exact ⟨_, F, A, hlocked, ⟨howned.block, howned.nodup⟩, fun fuel frames nbytes =>
      malloc_eq hlocked h.lock (initBase_ready hlocked hbase) fuel frames nbytes⟩

/-- A pointer that is freed. -/
theorem Inv.free (hready : Ready base start s.proc F A) (ho : Owned s A)
    (hlock : s.proc.alloc_lock = false) {ap fuel : ℕ} {p : Proc} (hap : ap ∈ s.live.map Prod.fst)
    (hs : Umalloc.free fuel s.proc ap = .ok p) :
    Inv base start { proc := p, live := s.live.filter fun e => e.1 ≠ ap } := by
  obtain ⟨e, he, rfl⟩ := List.mem_map.mp hap
  obtain ⟨b, hb, hptr, -⟩ := ho.block e he
  have hlocked : Ready base start { s.proc with alloc_lock := true } F A :=
    hready.congr rfl rfl rfl fun _ _ => rfl
  rw [free_eq hlock, hptr] at hs
  obtain ⟨u, hgive, hret⟩ := bind_eq_ok.mp hs
  obtain rfl := Except.ok.inj hret
  obtain ⟨F', hback⟩ := giveBack_spec hlocked.heap hlocked.coalesced hlocked.freep hb hgive
  have hready' : Ready base start (lock_release u) F' (A.erase b) :=
    Ready.congr ⟨hback.heap, hback.coalesced, hback.freep⟩ rfl rfl rfl fun _ _ => rfl
  have hsub : (s.live.filter fun d => d.1 ≠ e.1).Sublist s.live := List.filter_sublist
  refine ⟨rfl, .inr ⟨F', A.erase b, hready', fun d hd => ?_, ?_⟩⟩
  · obtain ⟨c, hc, hptr', hlen⟩ := ho.block d (hsub.subset hd)
    have hde : d.1 ≠ e.1 := of_decide_eq_true (List.mem_filter.mp hd).2
    have hcb : c ≠ b := fun hcb => hde (by rw [hptr', hptr, hcb])
    refine ⟨c, Finset.mem_erase.mpr ⟨hcb, hc⟩, hptr', ?_⟩
    rw [Proc.len, show (lock_release u).mem c = u.mem c from rfl,
      hback.relinked.used c (Finset.mem_erase.mpr ⟨hcb, hc⟩)]
    exact hlen
  · exact ho.nodup.sublist (hsub.map _)

/-- A store into a live block. -/
theorem Inv.store (hready : Ready base start s.proc F A) (ho : Owned s A)
    (hlock : s.proc.alloc_lock = false) {ap q : ℕ} {h : Header} {e : ℕ × ℕ} (he : e ∈ s.live)
    (hown : Owns e ap q) :
    Inv base start { s with proc := { s.proc with mem := update s.proc.mem q h } } := by
  obtain ⟨b, hb, hptr, hlen⟩ := ho.block e he
  obtain ⟨rfl, hlo, hhi, -⟩ := hown
  have hmem : ∀ a ∈ F ∪ A, update s.proc.mem q h a = s.proc.mem a := fun a ha =>
    update_of_ne (hready.heap.ne_of_inside (hready.heap.mem_used hb) (by omega) (by omega) ha) ..
  exact ⟨hlock, .inr ⟨F, A, hready.congr rfl rfl rfl hmem,
    ho.of_keeps ⟨Nat.le_refl _, fun a ha => hmem a (Finset.mem_union_right F ha)⟩⟩⟩

theorem Inv.step (hbase : 0 < base) (h : Inv base start s) (hsmall : Small s a)
    (hstep : Umalloc.step base s a = some t) : Inv base start t := by
  obtain ⟨call, fuel⟩ := a
  cases call with
  | malloc nbytes frames =>
      obtain ⟨u, F, A, hready, howned, heq⟩ := h.search_eq hbase
      simp only [Umalloc.step, heq] at hstep
      split at hstep
      · next p ap hs =>
        obtain rfl := Option.some.inj hstep
        exact Inv.malloc hbase hready howned (hsmall nbytes frames rfl) hs
      · cases hstep
  | free ap =>
      simp only [Umalloc.step] at hstep
      split at hstep
      · next hap =>
        obtain ⟨p, hp, rfl⟩ := Option.map_eq_some_iff.mp hstep
        rcases h.heap with ⟨-, hlive⟩ | ⟨F, A, hready, howned⟩
        · rw [hlive] at hap
          cases hap
        · exact Inv.free hready howned h.lock hap (toOption_eq_some.mp hp)
      · cases hstep
  | store ap q hd =>
      simp only [Umalloc.step] at hstep
      split at hstep
      · next hown =>
        obtain rfl := Option.some.inj hstep
        obtain ⟨e, he, hown⟩ := hown
        rcases h.heap with ⟨-, hlive⟩ | ⟨F, A, hready, howned⟩
        · rw [hlive] at he
          cases he
        · exact Inv.store hready howned h.lock he hown
      · cases hstep

/-- Every call returns, when its loops have enough fuel. -/
theorem Inv.returns (hbase : 0 < base) (h : Inv base start s) :
    (∀ nbytes : BitVec 32, nbytes.toNat ≤ 2 ^ 31 - 16 → ∀ frames, ∃ k, ∀ fuel ≥ k,
      (Umalloc.step base s (.malloc nbytes frames, fuel)).isSome) ∧
    ∀ e ∈ s.live, ∃ k, ∀ fuel ≥ k, (Umalloc.step base s (.free e.1, fuel)).isSome := by
  constructor
  · intro nbytes hsmall frames
    obtain ⟨u, F, A, hready, -, heq⟩ := h.search_eq hbase
    obtain ⟨r, k, hr⟩ := search_returns hready hbase hready.freep rfl (units_pos _)
      (units_spec hsmall).2 frames
    refine ⟨k, fun fuel hfuel => ?_⟩
    simp only [Umalloc.step, heq, hr fuel hfuel fuel hfuel]
    rfl
  · intro e he
    rcases h.heap with ⟨-, hlive⟩ | ⟨F, A, hready, howned⟩
    · rw [hlive] at he
      cases he
    · obtain ⟨b, hb, hptr, -⟩ := howned.block e he
      have hlocked : Ready base start { s.proc with alloc_lock := true } F A :=
        hready.congr rfl rfl rfl fun _ _ => rfl
      obtain ⟨t, k, ht⟩ := giveBack_returns hlocked.heap hlocked.coalesced hlocked.freep hb
      have hin : e.1 ∈ s.live.map Prod.fst := List.mem_map_of_mem he
      rw [hptr] at hin ⊢
      refine ⟨k, fun fuel hfuel => ?_⟩
      simp only [Umalloc.step, if_pos hin, free_eq h.lock, ht fuel hfuel, ok_bind]
      rfl

theorem Inv.sound (h : Inv base start s) : Sound base start s := by
  rcases h.heap with ⟨hfresh, hlive⟩ | ⟨F, A, hready, howned⟩
  · have hnone : ∀ e, e ∉ s.live := fun e he => List.not_mem_nil (hlive ▸ he)
    exact ⟨h.lock, fun e he => absurd he (hnone e), fun e he => absurd he (hnone e),
      hlive ▸ List.Pairwise.nil, fun hne => absurd hfresh.freep hne⟩
  · have hheap := hready.heap
    have hin : ∀ e ∈ s.live, start + 8 ≤ e.1 ∧ e.1 + e.2 ≤ s.proc.sz := by
      intro e he
      obtain ⟨b, hb, hptr, hlen⟩ := howned.block e he
      have := hheap.inside (hheap.mem_used hb)
      omega
    refine ⟨h.lock, hin, fun e he x _ hx => ?_, ?_, fun _ => ?_⟩
    · have hle := (hin e he).2
      exact hheap.mapped_of_lt (by omega)
    · refine (List.pairwise_map.mp howned.nodup).imp_of_mem fun {e d} he hd hne => ?_
      obtain ⟨b, hb, hptr, hlen⟩ := howned.block e he
      obtain ⟨c, hc, hptr', hlen'⟩ := howned.block d hd
      rcases Nat.lt_trichotomy b c with hlt | rfl | hlt
      · have := hheap.extents.apart b (hheap.mem_used hb) c (hheap.mem_used hc) hlt
        exact .inl (by omega)
      · exact absurd (hptr.trans hptr'.symm) hne
      · have := hheap.extents.apart c (hheap.mem_used hc) b (hheap.mem_used hb) hlt
        exact .inr (by omega)
    · refine ⟨F, hheap.base_mem, hready.freep, hheap.list, hready.coalesced, fun p hp e he => ?_⟩
      obtain ⟨b, hb, hptr, hlen⟩ := howned.block e he
      have hblock := hheap.mem_used hb
      by_cases hbase : p = base
      · have hlo := (hheap.inside hblock).1
        have hle := hheap.base_le
        exact .inl (by omega)
      · have hfree := Heap.mem_free (A := A) hp hbase
        rcases Nat.lt_trichotomy p b with hlt | rfl | hlt
        · have := hheap.extents.apart p hfree b hblock hlt
          have := hheap.inside hfree
          exact .inl (by omega)
        · exact absurd hp (hheap.unlinked p hb)
        · have := hheap.extents.apart b hblock p hfree hlt
          exact .inr (by omega)

/-- In every run with small sizes the allocator is sound in every state, and every call returns. -/
theorem sound_of_run {s₀ : State} (h : Start base s₀) (hrun : Run (Umalloc.step base) Small s₀ s) :
    Sound base s₀.proc.sz s ∧
      (∀ nbytes : BitVec 32, nbytes.toNat ≤ 2 ^ 31 - 16 → ∀ frames, ∃ k, ∀ fuel ≥ k,
        (Umalloc.step base s (.malloc nbytes frames, fuel)).isSome) ∧
      ∀ e ∈ s.live, ∃ k, ∀ fuel ≥ k, (Umalloc.step base s (.free e.1, fuel)).isSome := by
  have hinv : Inv base s₀.proc.sz s :=
    hrun.invariant h.inv fun _ _ _ hu hsmall hstep => hu.step h.base_pos hsmall hstep
  exact ⟨hinv.sound, hinv.returns h.base_pos⟩

end

/-- A program of two pages. -/
def twoPages : State where
  proc := { mem := fun _ => ⟨0, 0⟩, sz := 8192, mapped := fun v => decide (v < 2) }

theorem twoPages_start : Start 4000 twoPages :=
  ⟨by decide, ⟨rfl, rfl, by decide, by decide, fun v hv => decide_eq_true hv⟩, rfl, rfl⟩

/-- Two blocks, of which the first is freed. -/
theorem twoPages_sound : ∃ s, play (step 4000)
      [(.malloc 100 1000, 9), (.malloc 200 1000, 9), (.free 40856, 9)] twoPages = some s ∧
    s.live = [(40648, 200)] ∧ Sound 4000 8192 s := by
  have hplay : (play (step 4000) [(.malloc 100 1000, 9), (.malloc 200 1000, 9), (.free 40856, 9)]
      twoPages).map State.live = some [(40648, 200)] := by decide +kernel
  obtain ⟨s, hs, hlive⟩ := Option.map_eq_some_iff.mp hplay
  have hok : PlayOk (step 4000) Small
      [(.malloc 100 1000, 9), (.malloc 200 1000, 9), (.free 40856, 9)] twoPages := by
    refine playOk_of_forall (fun a ha _ nbytes frames he => ?_) twoPages
    simp only [List.mem_cons, List.not_mem_nil, or_false] at ha
    obtain rfl | rfl | rfl := ha
    · obtain ⟨rfl, -⟩ := Call.malloc.inj he
      decide
    · obtain ⟨rfl, -⟩ := Call.malloc.inj he
      decide
    · cases he
  exact ⟨s, hs, hlive, (sound_of_run twoPages_start (.of_playOk hok hs)).1⟩

/-- A size that wraps to 0 when it is rounded up gets a block without a byte. -/
theorem wrapped_unsound : Start 4000 twoPages ∧
    ∃ s, play (step 4000) [(.malloc (2 ^ 32 - 1) 1000, 9)] twoPages = some s ∧
      s.live = [(40960, 2 ^ 32 - 1)] ∧ ¬ Sound 4000 8192 s := by
  have hplay : (play (step 4000) [(.malloc (2 ^ 32 - 1) 1000, 9)] twoPages).map
      (fun s => (s.live, s.proc.sz)) = some ([(40960, 2 ^ 32 - 1)], 40960) := by decide +kernel
  obtain ⟨s, hs, hfacts⟩ := Option.map_eq_some_iff.mp hplay
  obtain ⟨hlive, hsz⟩ := Prod.mk.inj hfacts
  refine ⟨twoPages_start, s, hs, hlive, fun h => ?_⟩
  obtain ⟨-, hend⟩ := h.inside (40960, 2 ^ 32 - 1) (hlive ▸ List.mem_cons_self)
  rw [hsz] at hend
  exact absurd hend (by decide)

end IntroToOS.Threads.Umalloc

import IntroToOS.Bcache.Owners

/-! # Which sector a buffer is for

No sector is in two buffers, and `bread` returns a buffer for the sector that it has been called for.
`bget` replaces the least recently used buffer (`bget_of_run`), and it panics only when all the
buffers are in use (`owners_of_run`).
-/

namespace IntroToOS.Bcache
open Lib
set_option autoImplicit false

variable {T D : Type} [DecidableEq T] {s s' : Cache T D} {t u : T} {b c : BufId} {pc : Pc}
  {dev sector : BitVec 32} {k : Rw}

/-! ## The list of buffers -/

/-- The list has all the buffers, the one that has been released last first. -/
structure Ordered (s : Cache T D) : Prop where
  mem : ∀ b, b ∈ s.lru
  past : ∀ b, s.released b < s.clock
  sorted : s.lru.Pairwise fun b c => s.released c < s.released b

theorem Ordered.moveToFront (h : Ordered s) : Ordered (moveToFront s t b) where
  mem c := by
    by_cases hc : c = b
    · exact hc ▸ List.mem_cons_self
    · exact List.mem_cons_of_mem b ((List.mem_erase_of_ne hc).mpr (h.mem c))
  past c := by
    show Function.update s.released b s.clock c < s.clock + 1
    by_cases hc : c = b
    · subst hc
      rw [Function.update_self]
      exact Nat.lt_succ_self _
    · rw [Function.update_of_ne hc]
      exact Nat.lt_succ_of_lt (h.past c)
  sorted := by
    have hnodup : s.lru.Nodup := h.sorted.imp fun hlt heq => by
      subst heq
      exact Nat.lt_irrefl _ hlt
    have hne : ∀ c ∈ s.lru.erase b, c ≠ b := fun c hc => (hnodup.mem_erase_iff.mp hc).1
    refine List.pairwise_cons.mpr ⟨fun c hc => ?_, ?_⟩
    · show Function.update s.released b s.clock c < Function.update s.released b s.clock b
      rw [Function.update_self, Function.update_of_ne (hne c hc)]
      exact h.past c
    · refine (h.sorted.sublist List.erase_sublist).imp_of_mem fun {c d} hc hd hlt => ?_
      show Function.update s.released b s.clock d < Function.update s.released b s.clock c
      rwa [Function.update_of_ne (hne c hc), Function.update_of_ne (hne d hd)]

theorem enqueue_list : (enqueue s t b k).lru = s.lru ∧ (enqueue s t b k).clock = s.clock ∧
    (enqueue s t b k).released = s.released := by
  unfold enqueue
  dsimp only
  split <;> exact ⟨rfl, rfl, rfl⟩

theorem Goes.ordered (hgo : Goes s t s') (h : Ordered s) : Ordered s' := by
  cases hgo with
  | move b hpc => exact h.moveToFront
  | enqueue b k hpc =>
      obtain ⟨hlru, hclock, hreleased⟩ := enqueue_list (s := s) (t := t) (b := b) (k := k)
      exact ⟨hlru ▸ h.mem, by rw [hclock, hreleased]; exact h.past,
        by rw [hlru, hreleased]; exact h.sorted⟩
  | _ => exact ⟨h.mem, h.past, h.sorted⟩

theorem step_ordered {a : Event T D} (h : Ordered s) (hs : step s a = some s') : Ordered s' := by
  cases a with
  | bread t dev sector =>
      obtain ⟨-, rfl⟩ := step_bread hs
      exact ⟨h.mem, h.past, h.sorted⟩
  | modify t b data =>
      obtain ⟨-, rfl⟩ := step_modify hs
      exact ⟨h.mem, h.past, h.sorted⟩
  | bwrite t b =>
      obtain ⟨-, rfl⟩ := step_bwrite hs
      unfold bwrite
      split <;> exact ⟨h.mem, h.past, h.sorted⟩
  | brelse t b =>
      obtain ⟨-, rfl⟩ := step_brelse hs
      unfold brelse
      split <;> exact ⟨h.mem, h.past, h.sorted⟩
  | go t => exact (step_go hs).ordered h
  | handle ok => cases step_handle hs <;> exact ⟨h.mem, h.past, h.sorted⟩
  | kill t =>
      obtain rfl := step_kill hs
      exact ⟨h.mem, h.past, h.sorted⟩

omit [DecidableEq T] in
/-- A sector that `bget` does not find is in no buffer. -/
theorem Ordered.not_cached (h : Ordered s) (hnone : cached s dev sector = none) (b : BufId) :
    ¬ ((s.buf b).dev = dev ∧ (s.buf b).sector = sector) := by
  have hb := List.find?_eq_none.mp hnone b (h.mem b)
  simpa only [holds, decide_eq_true_eq] using hb

omit [DecidableEq T] in
/-- The victim is the buffer that has been released first. -/
theorem Ordered.victim (h : Ordered s) (hfind : victim s = some b) :
    (s.buf b).busy = false ∧ ∀ c, (s.buf c).busy = false → s.released b ≤ s.released c := by
  obtain ⟨hfree, before, after, hrev, hbusy⟩ := List.find?_eq_some_iff_append.mp hfind
  rw [Bool.not_eq_true'] at hfree
  refine ⟨hfree, fun c hc => ?_⟩
  have hsorted : (before ++ b :: after).Pairwise fun b c => s.released b < s.released c := by
    rw [← hrev]
    exact List.pairwise_reverse.mpr h.sorted
  have hmem : c ∈ before ++ b :: after := by
    rw [← hrev]
    exact List.mem_reverse.mpr (h.mem c)
  rcases List.mem_append.mp hmem with hin | hin
  · have hnot := hbusy c hin
    simp [hc] at hnot
  · rcases List.mem_cons.mp hin with rfl | hin
    · exact Nat.le_refl _
    · have hpair := (List.pairwise_append.mp hsorted).2.1
      exact Nat.le_of_lt ((List.pairwise_cons.mp hpair).1 c hin)

omit [DecidableEq T] in
theorem Ordered.no_victim (h : Ordered s) (hnone : Bcache.victim s = none) (b : BufId) :
    (s.buf b).busy = true := by
  have hb := List.find?_eq_none.mp hnone b (List.mem_reverse.mpr (h.mem b))
  simpa using hb

/-! ## Sectors -/

/-- The sector that a buffer is for. -/
def Cache.addr (s : Cache T D) (b : BufId) : BitVec 32 × BitVec 32 :=
  ((s.buf b).dev, (s.buf b).sector)

/-- What a process in `bget` looks for. -/
def Pc.looksFor : Pc → Option (BitVec 32 × BitVec 32)
  | .get dev sector | .scan dev sector | .asleepGet _ dev sector | .wokenGet dev sector =>
    some (dev, sector)
  | _ => none

/-- The buffer that a process in `bread` has got. -/
def Pc.reads : Pc → Option BufId
  | .got b | .iderw b .bread | .enter b .bread | .append b .bread | .wait b .bread
  | .asleepIde b .bread | .wokenIde b .bread => some b
  | _ => none

theorem Moved.looksFor {pc pc' : Pc} (h : Moved pc pc') : pc'.looksFor = pc.looksFor :=
  h.same (f := Pc.looksFor) (fun _ _ _ => rfl) fun _ _ => rfl

theorem Moved.reads {pc pc' : Pc} (h : Moved pc pc') : pc'.reads = pc.reads :=
  h.same (f := Pc.reads) (fun _ _ _ => rfl) fun _ k => by cases k <;> rfl

theorem use_of_reads (h : pc.reads = some b) : ∃ x, pc.use = some (b, x) := by
  unfold Pc.reads at h
  split at h
  case h_8 => cases h
  all_goals
    obtain rfl := Option.some.inj h
    exact ⟨_, rfl⟩

/-- The buffer has been used. -/
def Live (s : Cache T D) (b : BufId) : Prop := s.owner b ≠ none ∨ (s.buf b).valid = true

structure Named (s : Cache T D) : Prop where
  unique : ∀ b c, s.addr b = s.addr c → (s.buf b).dev ≠ -1 → b = c
  addressable : ∀ b, (s.buf b).dev ≠ -1 → Addressable s.havedisk1 (s.buf b).dev (s.buf b).sector
  live : ∀ b, Live s b → (s.buf b).dev ≠ -1
  searches : ∀ t a, (s.pc t).looksFor = some a → Addressable s.havedisk1 a.1 a.2 ∧ s.asked t = a
  reads : ∀ t b, (s.pc t).reads = some b → s.addr b = s.asked t

omit [DecidableEq T] in
/-- A step that leaves the sectors of the buffers alone. -/
theorem Named.same (h : Named s) (haddr : ∀ b, s'.addr b = s.addr b)
    (hdisk : s'.havedisk1 = s.havedisk1) (hlive : ∀ b, Live s' b → Live s b)
    (hasked : s'.asked = s.asked)
    (hlooks : ∀ t a, (s'.pc t).looksFor = some a → (s.pc t).looksFor = some a)
    (hreads : ∀ t b, (s'.pc t).reads = some b → (s.pc t).reads = some b) : Named s' := by
  have hdev : ∀ b, (s'.buf b).dev = (s.buf b).dev := fun b => congrArg Prod.fst (haddr b)
  have hsector : ∀ b, (s'.buf b).sector = (s.buf b).sector := fun b => congrArg Prod.snd (haddr b)
  refine ⟨fun b c heq hne => ?_, fun b hne => ?_, fun b hb => ?_, fun t a ha => ?_, fun t b hb => ?_⟩
  · rw [haddr, haddr] at heq
    exact h.unique b c heq (hdev b ▸ hne)
  · rw [hdisk, hdev, hsector]
    exact h.addressable b (hdev b ▸ hne)
  · rw [hdev]
    exact h.live b (hlive b hb)
  · rw [hdisk, hasked]
    exact h.searches t a (hlooks t a ha)
  · rw [haddr, hasked]
    exact h.reads t b (hreads t b hb)

theorem dev_ne_of_addressable {havedisk1 : Bool} (h : Addressable havedisk1 dev sector) :
    dev ≠ -1 := by
  rintro rfl
  exact absurd h.1 (by decide)

/-- `bget` returns a buffer for the sector. -/
theorem Named.give {x : Buf D} (h : Named s) (hown : Owned s) (hpc : s.pc t = .scan dev sector)
    (hfree : (s.buf b).busy = false) (hx : x.dev = dev ∧ x.sector = sector)
    (hother : ∀ c, c ≠ b → s.addr c ≠ (dev, sector)) : Named (give s t b x) := by
  obtain ⟨hdev, hsector⟩ := hx
  obtain ⟨haddress, hasked⟩ := h.searches t (dev, sector) (by rw [hpc]; rfl)
  have hself : (Bcache.give s t b x).buf b = { x with busy := true } := Function.update_self ..
  have hbuf : ∀ c, c ≠ b → (Bcache.give s t b x).buf c = s.buf c :=
    fun c hc => Function.update_of_ne hc ..
  have haddr : (Bcache.give s t b x).addr b = (dev, sector) := by
    rw [Cache.addr, hself, ← hdev, ← hsector]
  have haddr' : ∀ c, c ≠ b → (Bcache.give s t b x).addr c = s.addr c := by
    intro c hc
    rw [Cache.addr, hbuf c hc, Cache.addr]
  have hmine : ((Bcache.give s t b x).pc t) = .got b := by
    show (s.goto t (.got b)).pc t = _
    rw [goto_self]
  have hpcs : ∀ u, u ≠ t → (Bcache.give s t b x).pc u = s.pc u := fun u hu => goto_of_ne hu
  refine ⟨fun c d heq hne => ?_, fun c hne => ?_, fun c hc => ?_, fun u a ha => ?_, fun u c hc => ?_⟩
  · by_cases hc : c = b
    · by_cases hd : d = b
      · rw [hc, hd]
      · rw [hc, haddr, haddr' d hd] at heq
        exact absurd heq.symm (hother d hd)
    · by_cases hd : d = b
      · rw [hd, haddr, haddr' c hc] at heq
        exact absurd heq (hother c hc)
      · rw [haddr' c hc, haddr' d hd] at heq
        exact h.unique c d heq (hbuf c hc ▸ hne)
  · by_cases hc : c = b
    · subst hc
      rw [hself]
      show Addressable s.havedisk1 x.dev x.sector
      rw [hdev, hsector]
      exact haddress
    · rw [hbuf c hc] at hne ⊢
      exact h.addressable c hne
  · by_cases hcb : c = b
    · subst hcb
      rw [hself]
      show x.dev ≠ -1
      rw [hdev]
      exact dev_ne_of_addressable haddress
    · rw [hbuf c hcb]
      refine h.live c ?_
      rwa [Live, hbuf c hcb, show (Bcache.give s t b x).owner c = s.owner c from
        Function.update_of_ne hcb ..] at hc
  · by_cases hu : u = t
    · subst hu
      rw [hmine] at ha
      cases ha
    · rw [hpcs u hu] at ha
      exact h.searches u a ha
  · by_cases hu : u = t
    · subst hu
      rw [hmine] at hc
      obtain rfl := Option.some.inj hc
      exact haddr.trans hasked.symm
    · rw [hpcs u hu] at hc
      obtain ⟨y, huse⟩ := use_of_reads hc
      have hne : c ≠ b := by
        rintro rfl
        cases (hown.free hfree).symm.trans (hown.has u c y huse)
      rw [haddr' c hne]
      exact h.reads u c hc

/-- Only the process that makes the step does something else. -/
theorem Named.moves (h : Named s) (haddr : ∀ b, s'.addr b = s.addr b)
    (hdisk : s'.havedisk1 = s.havedisk1) (hlive : ∀ b, Live s' b → Live s b)
    (hasked : s'.asked = s.asked) (hothers : ∀ u, u ≠ t → Moved (s.pc u) (s'.pc u))
    (hlooks : (s'.pc t).looksFor = none ∨ (s'.pc t).looksFor = (s.pc t).looksFor)
    (hreads : (s'.pc t).reads = none ∨ (s'.pc t).reads = (s.pc t).reads) : Named s' := by
  refine h.same haddr hdisk hlive hasked (fun u a ha => ?_) fun u b hb => ?_
  · by_cases hu : u = t
    · subst hu
      rcases hlooks with hnone | hsame
      · cases hnone.symm.trans ha
      · rw [← hsame, ha]
    · rw [← (hothers u hu).looksFor, ha]
  · by_cases hu : u = t
    · subst hu
      rcases hreads with hnone | hsame
      · cases hnone.symm.trans hb
      · rw [← hsame, hb]
    · rw [← (hothers u hu).reads, hb]

theorem enqueue_sectors : (enqueue s t b k).havedisk1 = s.havedisk1 ∧
    (enqueue s t b k).asked = s.asked := by
  unfold enqueue
  dsimp only
  split <;> exact ⟨rfl, rfl⟩

theorem Goes.named (hgo : Goes s t s') (hord : Ordered s) (hown : Owned s) (h : Named s) :
    Named s' := by
  have hothers : ∀ u, u ≠ t → Moved (s.pc u) (s'.pc u) := fun u hu => hgo.others hu
  cases hgo with
  | hit b dev sector hpc hfind hbusy =>
      have hb := List.find?_some hfind
      simp only [holds, decide_eq_true_eq] at hb
      refine h.give hown hpc hbusy hb fun c hc heq => hc ?_
      have haddr : s.addr b = (dev, sector) := by rw [Cache.addr, hb.1, hb.2]
      refine (h.unique b c (haddr.trans heq.symm) ?_).symm
      rw [hb.1]
      exact dev_ne_of_addressable (h.searches t (dev, sector) (by rw [hpc]; rfl)).1
  | miss b dev sector hpc hnone hfind =>
      refine h.give hown hpc (hord.victim hfind).1 ⟨rfl, rfl⟩ fun c _ heq => ?_
      obtain ⟨hdev, hsector⟩ := Prod.mk.inj heq
      exact hord.not_cached hnone c ⟨hdev, hsector⟩
  | full | refused => exact h.same (fun _ => rfl) rfl (fun _ hb => hb) rfl (fun _ _ ha => ha) fun _ _ hb => hb
  | acquire dev sector hpc hlock =>
      refine h.moves (t := t) (fun _ => rfl) rfl (fun _ hb => hb) rfl hothers (.inr ?_) (.inl ?_)
      · rcases hpc with hpc | hpc <;> simp [hpc, Pc.looksFor]
      · simp [Pc.reads]
  | enqueue b k hpc =>
      obtain ⟨hbuf, hown', -⟩ := enqueue_cells (s := s) (t := t) (b := b) (k := k)
      obtain ⟨hdisk, hasked⟩ := enqueue_sectors (s := s) (t := t) (b := b) (k := k)
      refine h.moves (t := t) (fun c => ?_) hdisk (fun c hc => ?_) hasked hothers (.inl ?_) (.inr ?_)
      · rw [Cache.addr, hbuf, Cache.addr]
      · rwa [Live, hbuf, hown'] at hc
      · rw [enqueue_pc, goto_self]
        rfl
      · rw [enqueue_pc, goto_self, hpc]
        cases k <;> rfl
  | move b hpc =>
      have hbuf : ∀ c, (moveToFront s t b).addr c = s.addr c ∧
          ((moveToFront s t b).buf c).valid = (s.buf c).valid := by
        intro c
        show (((s.setBuf b _).buf c).dev, ((s.setBuf b _).buf c).sector) = _ ∧
          ((s.setBuf b _).buf c).valid = _
        by_cases hc : c = b
        · subst hc
          rw [show ∀ x, (s.setBuf c x).buf c = x from fun x => Function.update_self ..]
          exact ⟨rfl, rfl⟩
        · rw [show ∀ x, (s.setBuf b x).buf c = s.buf c from fun x => Function.update_of_ne hc ..]
          exact ⟨rfl, rfl⟩
      refine h.moves (t := t) (fun c => (hbuf c).1) rfl (fun c hc => ?_) rfl hothers (.inl ?_) (.inl ?_)
      · rcases hc with hc | hc
        · by_cases hcb : c = b
          · subst hcb
            exact absurd (Function.update_self ..) hc
          · rw [show (moveToFront s t b).owner c = s.owner c from Function.update_of_ne hcb ..] at hc
            exact .inl hc
        · exact .inr ((hbuf c).2.symm.trans hc)
      · show ((s.goto t (.wake b)).pc t).looksFor = none
        rw [goto_self]
        rfl
      · show ((s.goto t (.wake b)).pc t).reads = none
        rw [goto_self]
        rfl
  | busy b dev sector hpc =>
      refine h.moves (t := t) (fun _ => rfl) rfl (fun _ hb => hb) rfl hothers (.inr ?_) (.inl ?_)
      · simp [hpc, Pc.looksFor]
      · simp [Pc.reads]
  | found b hpc | done b k hpc | remove b hpc | wake b hpc | unlock hpc =>
      refine h.moves (t := t) (fun _ => rfl) rfl (fun _ hb => hb) rfl hothers (.inl ?_) (.inl ?_)
      · simp [Pc.looksFor]
      · simp [Pc.reads]
  | read b hpc =>
      refine h.moves (t := t) (fun _ => rfl) rfl (fun _ hb => hb) rfl hothers (.inl ?_) (.inr ?_)
      · simp [Pc.looksFor]
      · simp [hpc, Pc.reads]
  | checked b k hpc | lock b k hpc | relock b k hpc | doze b k hpc =>
      refine h.moves (t := t) (fun _ => rfl) rfl (fun _ hb => hb) rfl hothers (.inl ?_) (.inr ?_)
      · simp [Pc.looksFor]
      · cases k <;> simp [hpc, Pc.reads]

omit [DecidableEq T] in
theorem Handles.named {ok : Bool} (hh : Handles s ok s') (hown : Owned s) (h : Named s) :
    Named s' := by
  have hlooks : ∀ u a, (s'.pc u).looksFor = some a → (s.pc u).looksFor = some a :=
    fun u a ha => (hh.others u).looksFor ▸ ha
  have hreads : ∀ u b, (s'.pc u).reads = some b → (s.pc u).reads = some b :=
    fun u b hb => (hh.others u).reads ▸ hb
  cases hh with
  | serve b queue data hpc hqueue =>
      obtain ⟨t, k, howner, -⟩ := hown.waits (b := b) (hqueue ▸ List.mem_cons_self)
      have hbuf : ∀ c, c ≠ b → (s.setBuf b { s.buf b with
          valid := true, dirty := false, data := data }).buf c = s.buf c :=
        fun c hc => Function.update_of_ne hc ..
      refine h.same (fun c => ?_) rfl (fun c hc => ?_) rfl hlooks hreads
      · show (((s.setBuf b _).buf c).dev, ((s.setBuf b _).buf c).sector) = _
        by_cases hc : c = b
        · subst hc
          rw [show ∀ x, (s.setBuf c x).buf c = x from fun x => Function.update_self ..]
          rfl
        · rw [hbuf c hc]
          rfl
      · by_cases hcb : c = b
        · subst hcb
          exact .inl fun hnone => (by cases hnone.symm.trans howner)
        · rcases hc with hc | hc
          · exact .inl hc
          · exact .inr ((congrArg Buf.valid (hbuf c hcb)).symm.trans hc)
  | _ => exact h.same (fun _ => rfl) rfl (fun _ hb => hb) rfl hlooks hreads

theorem Named.bread (h : Named s) (haddress : Addressable s.havedisk1 dev sector) :
    Named { s.goto t (.get dev sector) with asked := Function.update s.asked t (dev, sector) } := by
  refine ⟨h.unique, h.addressable, h.live, fun u a ha => ?_, fun u b hb => ?_⟩
  · by_cases hu : u = t
    · subst hu
      change ((s.goto u (.get dev sector)).pc u).looksFor = some a at ha
      rw [goto_self] at ha
      obtain rfl := Option.some.inj ha
      exact ⟨haddress, Function.update_self ..⟩
    · change ((s.goto t (.get dev sector)).pc u).looksFor = some a at ha
      rw [goto_of_ne hu] at ha
      obtain ⟨haddr, hasked⟩ := h.searches u a ha
      exact ⟨haddr, (Function.update_of_ne hu ..).trans hasked⟩
  · by_cases hu : u = t
    · subst hu
      change ((s.goto u (.get dev sector)).pc u).reads = some b at hb
      rw [goto_self] at hb
      cases hb
    · change ((s.goto t (.get dev sector)).pc u).reads = some b at hb
      rw [goto_of_ne hu] at hb
      exact (h.reads u b hb).trans (Function.update_of_ne hu ..).symm

omit [DecidableEq T] in
/-- A write to a buffer that leaves its sector alone. -/
theorem addr_of_update {x : Buf D} (hbuf : s'.buf = Function.update s.buf b x)
    (hx : x.dev = (s.buf b).dev ∧ x.sector = (s.buf b).sector) (c : BufId) :
    s'.addr c = s.addr c := by
  rw [Cache.addr, hbuf]
  by_cases hc : c = b
  · subst hc
    rw [Function.update_self, hx.1, hx.2]
    rfl
  · rw [Function.update_of_ne hc]
    rfl

omit [DecidableEq T] in
theorem live_of_update {x : Buf D} (hbuf : s'.buf = Function.update s.buf b x)
    (hown : s'.owner = s.owner) (hx : x.valid = (s.buf b).valid) (c : BufId) (hc : Live s' c) :
    Live s c := by
  rw [Live, hown, hbuf] at hc
  refine hc.imp_right fun hvalid => ?_
  by_cases hcb : c = b
  · subst hcb
    rwa [Function.update_self, hx] at hvalid
  · rwa [Function.update_of_ne hcb] at hvalid

theorem step_named {a : Event T D} (hord : Ordered s) (hown : Owned s) (h : Named s)
    (hok : Promised s a) (hs : step s a = some s') : Named s' := by
  cases a with
  | bread t dev sector =>
      obtain ⟨-, rfl⟩ := step_bread hs
      exact h.bread hok
  | modify t b data =>
      obtain ⟨-, rfl⟩ := step_modify hs
      have hbuf : (modify s b data).buf = Function.update s.buf b { s.buf b with data := data } := rfl
      exact h.same (addr_of_update hbuf ⟨rfl, rfl⟩) rfl (live_of_update hbuf rfl rfl)
        rfl (fun _ _ ha => ha) fun _ _ hb => hb
  | bwrite t b =>
      obtain ⟨hpc, rfl⟩ := step_bwrite hs
      have hbuf : (bwrite s t b).buf = Function.update s.buf b { s.buf b with dirty := true } := by
        rw [bwrite_eq hown hok hpc]
        rfl
      rw [bwrite_eq hown hok hpc] at hbuf ⊢
      refine h.moves (t := t) (addr_of_update hbuf ⟨rfl, rfl⟩) rfl (live_of_update hbuf rfl rfl) rfl
        (fun u hu => moved_goto hu) (.inl ?_) (.inl ?_)
      · simp [Pc.looksFor]
      · simp [Pc.reads]
  | brelse t b =>
      obtain ⟨hpc, rfl⟩ := step_brelse hs
      rw [brelse_eq hown hok.1 hpc]
      refine h.moves (t := t) (fun _ => rfl) rfl (fun _ hb => hb) rfl (fun u hu => moved_goto hu)
        (.inl ?_) (.inl ?_)
      · simp [Pc.looksFor]
      · simp [Pc.reads]
  | go t => exact (step_go hs).named hord hown h
  | handle ok => exact (step_handle hs).named hown h
  | kill t =>
      obtain rfl := step_kill hs
      have hmoved := moved_kill s t t
      exact h.moves (t := t) (fun _ => rfl) rfl (fun _ hb => hb) rfl (fun u hu => moved_goto hu)
        (.inr hmoved.looksFor) (.inr hmoved.reads)

/-! ## Panics -/

/-- Only `bget` panics, and only when all the buffers are in use. -/
def Sound (s : Cache T D) : Prop :=
  ∀ p, s.panicked = some p → p = .bget ∧ ∀ b, (s.buf b).busy = true

omit [DecidableEq T] in
theorem sound_of_none (h : s.panicked = none) : Sound s := by
  intro p hp
  cases h.symm.trans hp

omit [DecidableEq T] in
/-- The checks of `iderw` succeed. -/
theorem iderw_checked (hown : Owned s) (h : Named s) (hpc : s.pc t = .iderw b k) :
    ¬ ((s.buf b).busy = false ∨ (s.buf b).valid = true ∧ (s.buf b).dirty = false ∨
      (s.buf b).dev ≠ 0 ∧ s.havedisk1 = false) := by
  obtain ⟨howner, hbusy, hpending, -, -⟩ := hown.busy_with (t := t) (b := b) (x := .asked k)
    (by rw [hpc]; rfl)
  rintro (hfree | ⟨hvalid, hdirty⟩ | ⟨hdev, hdisk⟩)
  · exact Bool.false_ne_true (hfree.symm.trans hbusy)
  · exact absurd hpending.not_served (by simp [Buf.served, hvalid, hdirty])
  · have hlive : Live s b := .inl fun hnone => (by cases hnone.symm.trans howner)
    have haddress := h.addressable b (h.live b hlive)
    exact Bool.false_ne_true (hdisk.symm.trans (haddress.2.2 hdev))

theorem enqueue_panicked : (enqueue s t b k).panicked = s.panicked := by
  unfold enqueue
  dsimp only
  split <;> rfl

theorem Goes.sound (hgo : Goes s t s') (hord : Ordered s) (hown : Owned s) (h : Named s)
    (hp : s.panicked = none) : Sound s' := by
  cases hgo with
  | full dev sector hpc hnone hfull =>
      intro p hpanic
      exact ⟨(Option.some.inj hpanic).symm, hord.no_victim hfull⟩
  | refused b k p hpc hrefused => exact absurd hrefused (iderw_checked hown h hpc)
  | enqueue b k hpc => exact sound_of_none (enqueue_panicked.trans hp)
  | _ => exact sound_of_none hp

theorem step_sound {a : Event T D} (hord : Ordered s) (hown : Owned s) (h : Named s)
    (hok : Promised s a) (hs : step s a = some s') : Sound s' := by
  have hp : s.panicked = none := (Option.ite_none_right_eq_some.mp hs).1
  cases a with
  | bread t dev sector =>
      obtain ⟨-, rfl⟩ := step_bread hs
      exact sound_of_none hp
  | modify t b data =>
      obtain ⟨-, rfl⟩ := step_modify hs
      exact sound_of_none hp
  | bwrite t b =>
      obtain ⟨hpc, rfl⟩ := step_bwrite hs
      rw [bwrite_eq hown hok hpc]
      exact sound_of_none hp
  | brelse t b =>
      obtain ⟨hpc, rfl⟩ := step_brelse hs
      rw [brelse_eq hown hok.1 hpc]
      exact sound_of_none hp
  | go t => exact (step_go hs).sound hord hown h hp
  | handle ok => cases step_handle hs <;> exact sound_of_none hp
  | kill t =>
      obtain rfl := step_kill hs
      exact sound_of_none hp

/-! ## Runs -/

structure CacheInv (s : Cache T D) : Prop where
  ordered : Ordered s
  owned : Owned s
  single : Single s
  named : Named s
  sound : Sound s

theorem step_cacheInv {a : Event T D} (h : CacheInv s) (hok : Promised s a)
    (hs : step s a = some s') : CacheInv s' where
  ordered := step_ordered h.ordered hs
  owned := (step_owned ⟨h.owned, h.single⟩ hok hs).1
  single := (step_owned ⟨h.owned, h.single⟩ hok hs).2
  named := step_named h.ordered h.owned h.named hok hs
  sound := step_sound h.ordered h.owned h.named hok hs

variable {data : BufId → D} {disk : Bool × BitVec 28 → D} {havedisk1 : Bool}

omit [DecidableEq T] in
theorem ordered_binit : Ordered (binit data disk havedisk1 : Cache T D) where
  mem := by
    show ∀ b, b ∈ (List.finRange NBUF).foldl (fun l b => b :: l) []
    decide
  past b := b.isLt
  sorted := by
    show ((List.finRange NBUF).foldl (fun l b => b :: l) []).Pairwise fun b c => c.val < b.val
    decide

omit [DecidableEq T] in
theorem cacheInv_binit : CacheInv (binit data disk havedisk1 : Cache T D) where
  ordered := ordered_binit
  owned := ⟨fun _ _ _ hx => (by cases hx), fun b =>
    ⟨fun _ => ⟨rfl, rfl, List.not_mem_nil, rfl⟩, fun _ ht => (by cases ht)⟩⟩
  single := List.nodup_nil
  named := ⟨fun _ _ _ hne => absurd rfl hne, fun _ hne => absurd rfl hne,
    fun _ hlive => (by rcases hlive with h | h; exacts [absurd rfl h, (by cases h)]),
    fun _ _ ha => (by cases ha), fun _ _ hb => (by cases hb)⟩
  sound := sound_of_none rfl

theorem cacheInv_of_run (hrun : Run step Promised (binit data disk havedisk1) s) : CacheInv s :=
  hrun.invariant cacheInv_binit fun _ _ _ h hok hs => step_cacheInv h hok hs

/-- No sector is in two buffers. A buffer is busy exactly while a process has it: one that is in a
call of `bread`, `bwrite` or `brelse` for it, or one that has got it from `bread`, and then the buffer
is valid, is not dirty and is not in the queue of the disk. A process that gets a buffer from `bread`
gets one for the sector that it has asked for. Only `bget` panics, when all the buffers are busy. -/
theorem owners_of_run (hrun : Run step Promised (binit data disk havedisk1) s) :
    (∀ b c, s.addr b = s.addr c → (s.buf b).dev ≠ -1 → b = c) ∧
    (∀ b, (s.buf b).busy = true ↔ ∃ t, s.owner b = some t) ∧
    (∀ t b x, (s.pc t).use = some (b, x) → s.owner b = some t) ∧
    (∀ t b, s.owner b = some t → (s.pc t).useOf b = none →
      (s.buf b).valid = true ∧ (s.buf b).dirty = false ∧ b ∉ s.idequeue) ∧
    (∀ t b, (s.pc t).reads = some b → s.addr b = s.asked t) ∧
    ∀ p, s.panicked = some p → p = .bget ∧ ∀ b, (s.buf b).busy = true := by
  have h := cacheInv_of_run hrun
  refine ⟨h.named.unique, fun b => ⟨fun hbusy => ?_, ?_⟩, h.owned.has, fun t b hown huse => ?_,
    h.named.reads, h.sound⟩
  · cases hown : s.owner b with
    | none => exact absurd (((h.owned.kept b).rests hown).1.symm.trans hbusy) Bool.false_ne_true
    | some t => exact ⟨t, rfl⟩
  · rintro ⟨t, hown⟩
    exact ((h.owned.kept b).fits t hown).1
  · obtain ⟨-, hfits⟩ := (h.owned.kept b).fits t hown
    rw [huse] at hfits
    obtain ⟨hserved, hqueue⟩ := hfits
    rw [Buf.served, Bool.and_eq_true, Bool.not_eq_true'] at hserved
    exact ⟨hserved.1, hserved.2, hqueue⟩

/-- A process reads a sector, another one asks for it and has to wait; the first one changes it, writes
it back and releases it. -/
def sharedSector : List (Event Bool ℕ) := List.flatten [
  [.bread false 0 7], List.replicate 7 (.go false), List.replicate 5 (.handle true),
  [.go false, .go false], [.bread true 0 7, .go true, .go true],
  [.modify false 0 42, .bwrite false 0], List.replicate 4 (.go false),
  List.replicate 5 (.handle true), [.go false, .go false], [.brelse false 0],
  List.replicate 4 (.go false), List.replicate 3 (.go true)]

theorem sharedSector_owners : ∃ s : Cache Bool ℕ,
    play step (sharedSector.take 19) (binit (fun _ => 0) (fun _ => 5) false) = some s ∧
    s.owner 0 = some false ∧ s.pc true = .asleepGet 0 0 7 ∧
    (∀ b, (s.buf b).busy = true ↔ ∃ t, s.owner b = some t) := by
  have hplay : (play step (sharedSector.take 19) (binit (fun _ => 0) (fun _ => 5) false)).map
      (fun s => (s.owner 0, s.pc true)) = some (some false, .asleepGet 0 0 7) := by
    decide +kernel
  obtain ⟨s, hs, hfacts⟩ := Option.map_eq_some_iff.mp hplay
  obtain ⟨hown, hpc⟩ := Prod.mk.inj hfacts
  exact ⟨s, hs, hown, hpc, (owners_of_run (.of_playOk (by decide +kernel) hs)).2.1⟩

/-- `bget` returns a buffer that has the sector already, or goes to sleep when that one is busy. When
no buffer has the sector, it takes the one of those that are not busy whose last `brelse` is the
longest ago, and panics when there is none. No other buffer changes. -/
theorem bget_of_run (hrun : Run step Promised (binit data disk havedisk1) s)
    (hpc : s.pc t = .scan dev sector) (hs : step s (.go t) = some s') :
    (∃ b, s'.pc t = .got b ∧ (s.buf b).busy = false ∧ (∀ c, c ≠ b → s'.buf c = s.buf c) ∧
      ((s.addr b = (dev, sector) ∧ s'.buf b = { s.buf b with busy := true }) ∨
        (∀ c, s.addr c ≠ (dev, sector)) ∧
        s'.buf b = { busy := true, dev := dev, sector := sector, data := (s.buf b).data } ∧
        ∀ c, (s.buf c).busy = false → s.released b ≤ s.released c)) ∨
    (∃ b, s'.pc t = .asleepGet b dev sector ∧ s.addr b = (dev, sector) ∧
      (s.buf b).busy = true ∧ s'.buf = s.buf) ∨
    (s'.panicked = some .bget ∧ (∀ c, s.addr c ≠ (dev, sector) ∧ (s.buf c).busy = true)) := by
  have h := cacheInv_of_run hrun
  have hfound : ∀ {c}, cached s dev sector = some c → s.addr c = (dev, sector) := by
    intro c hfind
    have hc := List.find?_some hfind
    simp only [holds, decide_eq_true_eq] at hc
    rw [Cache.addr, hc.1, hc.2]
  have hmissed : cached s dev sector = none → ∀ c, s.addr c ≠ (dev, sector) := by
    intro hnone c hc
    obtain ⟨hdev, hsector⟩ := Prod.mk.inj hc
    exact h.ordered.not_cached hnone c ⟨hdev, hsector⟩
  cases step_go hs with
  | hit b dev' sector' hpc' hfind hbusy =>
      obtain ⟨rfl, rfl⟩ := Pc.scan.inj (hpc'.symm.trans hpc)
      exact .inl ⟨b, goto_self, hbusy, fun d hd => Function.update_of_ne hd ..,
        .inl ⟨hfound hfind, Function.update_self ..⟩⟩
  | miss b dev' sector' hpc' hnone hfind =>
      obtain ⟨rfl, rfl⟩ := Pc.scan.inj (hpc'.symm.trans hpc)
      obtain ⟨hfree, hfirst⟩ := h.ordered.victim hfind
      exact .inl ⟨b, goto_self, hfree, fun d hd => Function.update_of_ne hd ..,
        .inr ⟨hmissed hnone, Function.update_self .., hfirst⟩⟩
  | busy b dev' sector' hpc' hfind hbusy =>
      obtain ⟨rfl, rfl⟩ := Pc.scan.inj (hpc'.symm.trans hpc)
      exact .inr (.inl ⟨b, goto_self, hfound hfind, hbusy, rfl⟩)
  | full dev' sector' hpc' hnone hfull =>
      obtain ⟨rfl, rfl⟩ := Pc.scan.inj (hpc'.symm.trans hpc)
      exact .inr (.inr ⟨rfl, fun c => ⟨hmissed hnone c, h.ordered.no_victim hfull c⟩⟩)
  | acquire dev' sector' hpc' => rcases hpc' with hpc' | hpc' <;> cases hpc'.symm.trans hpc
  | _ => simp_all

theorem sharedSector_bget : ∃ s s' : Cache Bool ℕ,
    play step (sharedSector.take 17) (binit (fun _ => 0) (fun _ => 5) false) = some s ∧
    step s (.go true) = some s' ∧
    ((∃ b, s'.pc true = .got b ∧ (s.buf b).busy = false ∧ (∀ c, c ≠ b → s'.buf c = s.buf c) ∧
      ((s.addr b = (0, 7) ∧ s'.buf b = { s.buf b with busy := true }) ∨
        (∀ c, s.addr c ≠ (0, 7)) ∧
        s'.buf b = { busy := true, dev := 0, sector := 7, data := (s.buf b).data } ∧
        ∀ c, (s.buf c).busy = false → s.released b ≤ s.released c)) ∨
    (∃ b, s'.pc true = .asleepGet b 0 7 ∧ s.addr b = (0, 7) ∧
      (s.buf b).busy = true ∧ s'.buf = s.buf) ∨
    (s'.panicked = some .bget ∧ (∀ c, s.addr c ≠ (0, 7) ∧ (s.buf c).busy = true))) := by
  have hplay : (play step (sharedSector.take 17) (binit (fun _ => 0) (fun _ => 5) false)).map
      (fun s => (s.pc true, (step s (.go true)).isSome)) = some (.scan 0 7, true) := by
    decide +kernel
  obtain ⟨s, hs, hfacts⟩ := Option.map_eq_some_iff.mp hplay
  obtain ⟨hpc, hsome⟩ := Prod.mk.inj hfacts
  obtain ⟨s', hs'⟩ := Option.isSome_iff_exists.mp hsome
  exact ⟨s, s', hs, hs', bget_of_run (.of_playOk (by decide +kernel) hs) hpc hs'⟩

end IntroToOS.Bcache

import IntroToOS.SharedMemory.Exits

/-! # New address spaces and the invariant

A child of `fork` gets the keys of its parent with the shared pages, and every reference is counted.
`exec` detaches the shared pages of the old image before it is freed; the new one has none.
-/

namespace IntroToOS.SharedMemory
open Lib
set_option autoImplicit false

section
variable {s s' t u : Kernel} {p q np : ProcId} {d kstack : Frame} {ts fs : List Frame}
  {o : Option ProcId}

/-! ## The keys of a child -/

/-- The body of the loop at the end of `fork`. -/
def copyKey (p np : ProcId) (s : Kernel) (i : Key) : Kernel :=
  if (s.proc p).key_addresses i ≠ 0 then
    shm_inc_refcount (s.setProc np { s.proc np with
      key_addresses := Function.update (s.proc np).key_addresses i
        ((s.proc p).key_addresses i) }) i
  else s

/-- A process with other keys. -/
def Proc.withKeys (x : Proc) (a : Key → ℕ) : Proc := { x with key_addresses := a }

theorem Proc.withKeys_self {x : Proc} {a : Key → ℕ} (h : a = x.key_addresses) :
    x.withKeys a = x := by rw [h]; rfl

/-- The keys of `l` have been copied. -/
structure CopiesKeys (p np : ProcId) (l : List Key) (s s' : Kernel) : Prop where
  kend : s'.kend = s.kend
  dir : s'.dir = s.dir
  freelist : s'.freelist = s.freelist
  others : ∀ q, q ≠ np → s'.proc q = s.proc q
  child : s'.proc np = (s.proc np).withKeys fun k =>
    if k ∈ l then (s.proc p).key_addresses k else (s.proc np).key_addresses k
  pages : ∀ k, (s'.spages k).N = (s.spages k).N ∧ (s'.spages k).addr = (s.spages k).addr
  refcount : ∀ k, (s'.spages k).refcount =
    (s.spages k).refcount + if k ∈ l then attachment k (s.proc p) else 0

theorem copyKey_spec {i : Key} (hi : (s.proc np).key_addresses i = 0) :
    CopiesKeys p np [i] s (copyKey p np s i) := by
  unfold copyKey
  by_cases hk : (s.proc p).key_addresses i = 0
  · rw [if_neg (not_not.mpr hk)]
    refine ⟨rfl, rfl, rfl, fun _ _ => rfl, ?_, fun k => ⟨rfl, rfl⟩, fun k => ?_⟩
    · refine (Proc.withKeys_self (funext fun k => ?_)).symm
      by_cases hki : k = i
      · rw [if_pos (by simp [hki]), hki, hi, hk]
      · rw [if_neg (by simp [hki])]
    · by_cases hki : k = i
      · simp [attachment, hki, hk]
      · simp [hki]
  · rw [if_pos hk]
    refine ⟨rfl, rfl, rfl, fun q hq => setProc_of_ne hq, ?_, fun k => ?_, fun k => ?_⟩
    · refine setProc_self.trans (congrArg (Proc.withKeys (s.proc np)) (funext fun k => ?_))
      by_cases hki : k = i
      · rw [if_pos (by simp [hki]), hki, Function.update_self]
      · rw [if_neg (by simp [hki]), Function.update_of_ne hki]
    · by_cases hki : k = i
      · simp [shm_inc_refcount, Kernel.setKey, Kernel.setProc, hki]
      · simp [shm_inc_refcount, Kernel.setKey, Kernel.setProc, hki]
    · by_cases hki : k = i
      · simp [shm_inc_refcount, Kernel.setKey, Kernel.setProc, attachment, hki, hk]
      · simp [shm_inc_refcount, Kernel.setKey, Kernel.setProc, hki]

theorem copyKey_loop {l : List Key} (hne : p ≠ np) (hnodup : l.Nodup)
    (hzero : ∀ k ∈ l, (s.proc np).key_addresses k = 0) :
    CopiesKeys p np l s (l.foldl (copyKey p np) s) := by
  induction l generalizing s with
  | nil =>
      refine ⟨rfl, rfl, rfl, fun _ _ => rfl, ?_, fun k => ⟨rfl, rfl⟩, fun k => ?_⟩
      · exact (Proc.withKeys_self (funext fun k => if_neg List.not_mem_nil)).symm
      · simp
  | cons i l ih =>
      obtain ⟨hi, hnodup⟩ := List.nodup_cons.mp hnodup
      have hone := copyKey_spec (p := p) (hzero i List.mem_cons_self)
      rw [List.foldl_cons]
      generalize copyKey p np s i = t at hone ⊢
      have hkeys : ∀ k, (t.proc np).key_addresses k =
          if k ∈ [i] then (s.proc p).key_addresses k else (s.proc np).key_addresses k := fun k => by
        rw [hone.child]
        rfl
      have hrest := ih (s := t) hnodup fun k hk => by
        have hki : k ≠ i := fun he => hi (he ▸ hk)
        rw [hkeys k, if_neg (by simp [hki])]
        exact hzero k (List.mem_cons_of_mem i hk)
      have hp := hone.others p hne
      exact {
        kend := hrest.kend.trans hone.kend
        dir := hrest.dir.trans hone.dir
        freelist := hrest.freelist.trans hone.freelist
        others := fun q hq => (hrest.others q hq).trans (hone.others q hq)
        child := by
          rw [hrest.child, hp]
          simp only [hkeys]
          rw [hone.child]
          refine congrArg (Proc.withKeys (s.proc np)) (funext fun k => ?_)
          by_cases hk : k ∈ l
          · rw [if_pos hk, if_pos (List.mem_cons_of_mem i hk)]
          · rw [if_neg hk]
            by_cases hki : k = i
            · rw [if_pos (by simp [hki]), if_pos (by simp [hki])]
            · rw [if_neg (by simp [hki]), if_neg (by simp [hki, hk])]
        pages := fun k => ⟨(hrest.pages k).1.trans (hone.pages k).1,
          (hrest.pages k).2.trans (hone.pages k).2⟩
        refcount := fun k => by
          rw [hrest.refcount k, hone.refcount k, hp]
          by_cases hki : k = i
          · simp [hki, hi]
          · simp [hki] }

theorem copyKeys_eq (s : Kernel) (p np : ProcId) : copyKeys s p np =
    let s := (List.finRange MAX_SHARED_KEYS).foldl (copyKey p np) s
    s.setProc np { s.proc np with current_top := (s.proc p).current_top } := by
  unfold copyKeys copyKey
  rfl

/-- The child after the loop. -/
structure Inherits (p np : ProcId) (s s' : Kernel) : Prop where
  kend : s'.kend = s.kend
  dir : s'.dir = s.dir
  freelist : s'.freelist = s.freelist
  others : ∀ q, q ≠ np → s'.proc q = s.proc q
  child : s'.proc np = { s.proc np with
    key_addresses := (s.proc p).key_addresses, current_top := (s.proc p).current_top }
  pages : ∀ k, (s'.spages k).N = (s.spages k).N ∧ (s'.spages k).addr = (s.spages k).addr
  refcount : ∀ k, (s'.spages k).refcount = (s.spages k).refcount + attachment k (s.proc p)

theorem copyKeys_spec (hne : p ≠ np) (hzero : ∀ k, (s.proc np).key_addresses k = 0) :
    Inherits p np s (copyKeys s p np) := by
  have hloop := copyKey_loop (s := s) hne (List.nodup_finRange MAX_SHARED_KEYS)
    fun k _ => hzero k
  rw [copyKeys_eq]
  generalize (List.finRange MAX_SHARED_KEYS).foldl (copyKey p np) s = t at hloop
  have hp := hloop.others p hne
  exact {
    kend := hloop.kend
    dir := hloop.dir
    freelist := hloop.freelist
    others := fun q hq => (setProc_of_ne hq).trans (hloop.others q hq)
    child := by
      refine setProc_self.trans ?_
      rw [hloop.child, hp]
      simp only [List.mem_finRange, if_true]
      rfl
    pages := hloop.pages
    refcount := fun k => by
      refine (hloop.refcount k).trans ?_
      rw [if_pos (List.mem_finRange k)] }

/-! ## `fork` -/

theorem Neat.of_more (h : Neat s) (hinv : Inv s)
    (hN : ∀ k, (s'.spages k).N = (s.spages k).N)
    (hmore : ∀ k, (s.spages k).refcount ≤ (s'.spages k).refcount) : Neat s' := by
  intro k hk
  have h1 := hinv.refcount_nonneg k
  have h2 := hmore k
  rw [hN k]
  exact h k (by omega)

/-- A failed `fork` has changed an unused slot, and may have lost frames. -/
theorem ForkFails.inv (h : Inv s) (hf : ForkFails s t) : Inv t := by
  have hdirs : ∀ q, (s.proc q).state ≠ .UNUSED → t.dir (s.proc q).pgdir = s.dir (s.proc q).pgdir :=
    fun q hq => hf.dir _ (h.pgdir_not_free hq)
  have hkeys : ∀ k, (t.spages k).N = (s.spages k).N ∧ (t.spages k).addr = (s.spages k).addr :=
    fun k => by rw [hf.spages]; exact ⟨rfl, rfl⟩
  cases hfind : findUnused s with
  | none =>
      exact h.lose hf.kend hf.spages (funext fun q => hf.others q (by rw [hfind]; nofun)) hf.dir
        hf.taken
  | some np =>
      have hold := state_of_findUnused hfind
      obtain ⟨hunused, hka⟩ := hf.unused np hfind
      have hidle : ∀ k, (s.proc np).key_addresses k = 0 := h.idle np (by rw [hold]; decide)
      have hzero : ∀ k, (t.proc np).key_addresses k = 0 := fun k => by
        rcases hka with hka | hka
        · rw [hka, hidle k]
        · rw [hka]
      have hothers : ∀ q, q ≠ np → t.proc q = s.proc q := fun q hq =>
        hf.others q fun he => hq (Option.some.inj (hfind.symm.trans he)).symm
      refine h.step (p := np) ⟨hf.kend, hkeys, fun k => ?_, hothers, fun q _ hq => hdirs q hq⟩
        (fun f => ?_) (fun hq => absurd hunused hq) (fun _ _ ho => ho)
        (fun _ hq => absurd hunused hq) (fun _ => hzero) fun k _ hk => absurd (hzero k) hk
      · rw [hf.spages, attachment, attachment, hzero k, hidle k]
      · rw [ownFrames_of_unused hunused, ownFrames_of_unused hold]
        exact Nat.add_le_add_right (hf.taken f) _

theorem ForkMakes.inv (h : Inv s) (hp : (s.proc p).state = .RUNNABLE)
    (hm : ForkMakes s p np t d kstack ts fs) :
    Inv (copyKeys t p np) ∧ (Neat s → Neat (copyKeys t p np)) := by
  have hused : (s.proc p).state ≠ .UNUSED := by rw [hp]; decide
  have hregion := h.region p hused
  have hatt := h.attached p nofun hused
  have hold := state_of_findUnused hm.slot
  have hne : p ≠ np := fun he => hused (he ▸ hold)
  have hidle : ∀ k, (s.proc np).key_addresses k = 0 := h.idle np (by rw [hold]; decide)
  have htp : t.proc p = s.proc p := hm.others p hne
  have hcopy := copyKeys_spec (s := t) hne fun k => by rw [hm.child]; rfl
  generalize copyKeys t p np = u at hcopy
  have hd : d ∈ s.freelist := by
    rw [hm.freelist.mem_iff]
    simp
  have hdirs : ∀ q, (s.proc q).state ≠ .UNUSED → u.dir (s.proc q).pgdir = s.dir (s.proc q).pgdir :=
    fun q hq => by
      rw [hcopy.dir]
      exact hm.dirs _ fun he => h.pgdir_not_free hq (he ▸ hd)
  have hspages : ∀ k, (u.spages k).N = (s.spages k).N ∧ (u.spages k).addr = (s.spages k).addr :=
    fun k => by
      rw [← hm.spages]
      exact hcopy.pages k
  have hrefs : ∀ k, (u.spages k).refcount = (s.spages k).refcount + attachment k (s.proc p) :=
    fun k => by
      rw [hcopy.refcount k, hm.spages, htp]
  have hchild : u.proc np = { newProc s np kstack with
      pgdir := d, sz := (s.proc p).sz, parent := some p, state := .RUNNABLE
      key_addresses := (s.proc p).key_addresses, current_top := (s.proc p).current_top } := by
    rw [hcopy.child, hm.child, htp]
  have hpte : ∀ x, (u.dir d).pte x = if x < pages (s.proc p).sz then fs[x]?
      else if (s.proc p).current_top / PGSIZE ≤ x ∧ x < userPages then
        (s.dir (s.proc p).pgdir).pte x else none := fun x => by
    rw [hcopy.dir, hm.pte x, hregion.div_top]
  have hle := hregion.pages_le
  -- the shared region is that of the parent
  have hshared : ∀ v, (s.proc p).current_top / PGSIZE ≤ v →
      (u.dir d).pte v = (s.dir (s.proc p).pgdir).pte v := by
    intro v hv
    rw [hpte, if_neg (by omega)]
    by_cases hlt : v < userPages
    · exact if_pos ⟨hv, hlt⟩
    · exact (if_neg fun hin => hlt hin.2).trans (hregion.above v (by omega)).symm
  have hgap : ∀ v, pages (s.proc p).sz ≤ v → v < (s.proc p).current_top / PGSIZE →
      (u.dir d).pte v = none := by
    intro v h1 h2
    rw [hpte, if_neg (by omega), if_neg (by omega)]
  have hwin : window (u.dir d).pte 0 ((s.proc p).current_top / PGSIZE) = fs := by
    rw [window_of_le (n := pages (s.proc p).sz) hle fun x h1 h2 => hgap x (by omega) (by omega),
      ← hm.length]
    refine (window_congr fun x _ hx => ?_).trans (window_place (fun _ => none) 0 fs)
    rw [hpte, if_pos (by rw [← hm.length]; omega), place_of_mem (Nat.zero_le x) (by omega),
      Nat.sub_zero]
  refine ⟨h.step (p := np) ⟨hcopy.kend.trans hm.kend, hspages, fun k => ?_,
    fun q hq => (hcopy.others q hq).trans (hm.others q hq), fun q _ hq => hdirs q hq⟩
    (fun f => ?_) (fun _ => ?_) (fun _ _ ho => ho) (fun _ _ => ?_) (fun hs => ?_) fun k h0 hk => ?_,
    fun hneat => hneat.of_more h (fun k => (hspages k).1) fun k => ?_⟩
  · have hnone : attachment k (s.proc np) = 0 := if_neg (not_not.mpr (hidle k))
    have hsame : attachment k (u.proc np) = attachment k (s.proc p) :=
      attachment_congr (by rw [hchild]) k
    rw [hrefs k, hnone, hsame]
    simp
  · have hcount := hm.freelist.count_eq f
    rw [ownFrames_of_unused hold, hcopy.freelist, hchild, ownFrames_of_used (by simp)]
    simp only
    rw [hwin, hcopy.dir, hm.tables, hcount]
    simp only [newProc, List.count_append, List.count_cons, List.count_nil]
    omega
  · rw [hchild]
    exact {
      sz_pos := hregion.sz_pos
      aligned := hregion.aligned
      apart := hregion.apart
      top_le := hregion.top_le
      gap := hgap
      above := fun v hv => by
        have := hregion.top_pages_le
        show (u.dir d).pte v = none
        rw [hshared v (by omega)]
        exact hregion.above v hv
      covered := fun v f hv hf => by
        have hf' : (u.dir d).pte v = some f := hf
        rw [hshared v hv] at hf'
        obtain ⟨k, j, hk, hj, rfl⟩ := hregion.covered v f hv hf'
        exact ⟨k, j, hk, by rw [(hspages k).1]; exact hj, by rw [(hspages k).2]⟩ }
  · rw [hchild]
    exact {
      address := hatt.address
      mapped := fun k j hk hj => by
        have hle' : (s.proc p).current_top / PGSIZE ≤ (s.proc p).key_addresses k / PGSIZE + j :=
          Nat.le_trans (Nat.div_le_div_right (hatt.address k hk).2) (Nat.le_add_right ..)
        rw [(hspages k).1] at hj
        show (u.dir d).pte ((s.proc p).key_addresses k / PGSIZE + j) = some ((u.spages k).addr j)
        rw [hshared _ hle', (hspages k).2]
        exact hatt.mapped k j hk hj }
  · rw [hchild] at hs
    exact absurd rfl hs
  · rw [hchild] at hk
    exact absurd (h.refcount_eq_zero h0 p) hk
  · rw [hrefs k]
    omega

theorem fork_inv (h : Inv s) (hp : (s.proc p).state = .RUNNABLE) :
    Ends (fork s p) (fun r => Inv r.1 ∧ (Neat s → Neat r.1)) fun e => e = .pageNotPresent := by
  have hused : (s.proc p).state ≠ .UNUSED := by rw [hp]; decide
  have hchild := ends_iff.mp (forkChild_spec (h.canFork hused))
  unfold fork
  refine Ends.bind (ends_iff.mpr ⟨hchild.1, fun e he => (hchild.2 e he).1⟩) fun r hr => ?_
  obtain ⟨t, onp⟩ := r
  cases onp with
  | none =>
      refine ⟨ForkFails.inv h hr, fun hneat k hk => ?_⟩
      have hspages : t.spages = s.spages := ForkFails.spages hr
      simp only [hspages] at hk ⊢
      exact hneat k hk
  | some np =>
      obtain ⟨d, kstack, ts, fs, hm⟩ := hr
      exact hm.inv h hp

/-! ## `exec` -/

theorem OutOfFrames.inv (h : Inv s) (hf : OutOfFrames s t) : Inv t :=
  h.lose hf.same.kend hf.same.spages hf.same.proc hf.others fun f => by
    rw [hf.freelist, List.count_nil]
    exact Nat.zero_le _

theorem Returned.inv (h : Inv s) (hr : Returned s t) : Inv t :=
  h.lose hr.same.kend hr.same.spages hr.same.proc hr.others fun f =>
    Nat.le_of_eq (hr.freelist.count_eq f)

theorem Neat.of_spages (h : Neat s) (hspages : s'.spages = s.spages) : Neat s' := by
  intro k hk
  rw [hspages] at hk ⊢
  exact h k hk

/-- A new image in the state `t`, which nobody uses: its frames were free in `s`. -/
structure Fresh (s t : Kernel) (d : Frame) (ts fs : List Frame) : Prop where
  same : SameProcs s t
  others : ∀ f, f ≠ d → t.dir f = s.dir f
  tables : (t.dir d).tables = ts
  pte : (t.dir d).pte = place (fun _ => none) 0 fs
  freelist : s.freelist.Perm (d :: ts ++ fs ++ t.freelist)

theorem NewDir.fresh (h : NewDir ts s d t) (hp : Places d 0 fs t u) : Fresh s u d ts fs where
  same := h.same.trans hp.same
  others f hf := (hp.others f hf).trans (h.others f hf)
  tables := by rw [hp.tables, h.dir]
  pte := by rw [hp.pte, h.dir]
  freelist := by
    rw [h.freelist, List.append_assoc]
    exact hp.freelist.append_left _

theorem Fresh.dir_mem (h : Fresh s t d ts fs) : d ∈ s.freelist := by
  rw [h.freelist.mem_iff]
  simp

theorem Fresh.inv (h : Inv s) (hf : Fresh s t d ts fs) : Inv t := by
  refine h.lose hf.same.kend hf.same.spages hf.same.proc
    (fun f hne => hf.others f fun he => hne (he ▸ hf.dir_mem)) fun f => ?_
  rw [hf.freelist.count_eq f, List.count_append]
  exact Nat.le_add_left ..

theorem Fresh.uses (h : Inv s) (hf : Fresh s t d ts fs) (f : Frame) :
    uses t f + (d :: ts ++ fs).count f = uses s f := by
  have hown : ∀ q, ownFrames t (t.proc q) = ownFrames s (s.proc q) := fun q =>
    ownFrames_congr (congrFun hf.same.proc q) fun hq =>
      hf.others _ fun he => h.pgdir_not_free hq (he ▸ hf.dir_mem)
  have hkeys : ∀ k, keyFrames (t.spages k) = keyFrames (s.spages k) := fun k => by
    rw [hf.same.spages]
  have hchange := uses_change (p := 0) (fun q _ => hown q) hkeys f
  have hcount := hf.freelist.count_eq f
  rw [List.count_append] at hcount
  rw [hown 0] at hchange
  omega

/-- The new image takes the place of the old one. -/
theorem commit_inv {sz : ℕ} (h : Inv s) (hp : (s.proc p).state = .RUNNABLE)
    (hf : Fresh s t d ts fs) (hd : Detached p t u) (hpos : 0 < sz)
    (htop : sz ≤ (s.proc p).current_top) (hlen : fs.length = pages sz) :
    ∃ w, freevm (u.setProc p { u.proc p with pgdir := d, sz }) (u.proc p).pgdir = .ok w ∧
      Inv w ∧ w.spages = u.spages := by
  have hused : (s.proc p).state ≠ .UNUSED := by rw [hp]; decide
  have hregion := h.region p hused
  have htp : t.proc p = s.proc p := by rw [hf.same.proc]
  have hust : (u.proc p).state = .RUNNABLE := by rw [hd.state, htp, hp]
  have huused : (u.proc p).state ≠ .UNUSED := by rw [hust]; decide
  have hpg : (u.proc p).pgdir = (s.proc p).pgdir := by rw [hd.pgdir, htp]
  have hnew : d ≠ (s.proc p).pgdir := fun he => h.pgdir_not_free hused (he ▸ hf.dir_mem)
  have hudir : u.dir d = t.dir d := hd.dirs d (by rw [htp]; exact hnew)
  have huregion := hd.inv.region p huused
  have hsztop : PGROUNDUP sz ≤ (u.proc p).current_top := by
    refine Nat.le_trans (PGROUNDUP_le htop hregion.aligned) ?_
    rw [← htp]
    exact hd.top
  have hszle : pages sz ≤ (u.proc p).current_top / PGSIZE :=
    (Nat.le_div_iff_mul_le (by decide)).mpr hsztop
  obtain ⟨w, hw, hsame, hdirs, hcount⟩ := freevm_own
    (u := u.setProc p { u.proc p with pgdir := d, sz }) hd.inv huused hd.given rfl rfl
  have hwp : w.proc p = { u.proc p with pgdir := d, sz } := by rw [hsame.proc, setProc_self]
  have hwspages : w.spages = u.spages := hsame.spages
  have hwd : w.dir d = t.dir d := (hdirs d (by rw [hpg]; exact hnew)).trans hudir
  have hpte : ∀ v, pages sz ≤ v → (w.dir d).pte v = none := fun v hv => by
    rw [hwd, hf.pte, place_of_not_mem (by omega)]
  have hwin : window (w.dir d).pte 0 ((u.proc p).current_top / PGSIZE) = fs := by
    rw [window_of_le (n := fs.length) (by omega) fun x h1 _ => hpte x (by omega), hwd, hf.pte]
    exact window_place ..
  refine ⟨w, hw, hd.inv.stepTaking (p := p) (d :: ts ++ fs) ⟨hsame.kend, fun k => ?_, fun k => ?_,
    fun q hq => ?_, fun q hq hu => ?_⟩ (fun f => ?_) (fun f hin => ?_) (fun f => ?_) (fun _ => ?_)
    (fun _ _ ho => ho) (fun _ _ => ?_) (fun hs => ?_) fun k _ hk => ?_, hwspages⟩
  · rw [hwspages]
    exact ⟨rfl, rfl⟩
  · rw [hwspages, hwp]
    rfl
  · rw [hsame.proc]
    exact setProc_of_ne hq
  · exact hdirs _ (hd.inv.pgdir_ne hq.symm huused hu)
  · have h1 := hf.uses h f
    have h2 := hd.uses_le f
    have h3 := h.single f
    omega
  · rw [ValidFrame, hd.kend, hf.same.kend]
    exact h.valid_free (hf.freelist.mem_iff.mpr (List.mem_append_left _ hin))
  · have hback := hcount f
    have hfree : (u.setProc p { u.proc p with pgdir := d, sz }).freelist = u.freelist := rfl
    have hown : ownFrames w (w.proc p) = (u.proc p).kstack :: d :: ts ++ fs := by
      rw [hwp, ownFrames_of_used (x := { u.proc p with pgdir := d, sz }) huused]
      simp only
      rw [hwin, hwd, hf.tables]
    rw [hfree] at hback
    rw [hown]
    simp only [List.cons_append, List.count_cons, List.count_nil] at hback ⊢
    omega
  · rw [hwp]
    exact {
      sz_pos := hpos
      aligned := huregion.aligned
      apart := hsztop
      top_le := huregion.top_le
      gap := fun v h1 _ => hpte v h1
      above := fun v hv => hpte v (Nat.le_trans hszle (Nat.le_trans huregion.top_pages_le hv))
      covered := fun v f hv hfv => by
        have hfv' : (w.dir d).pte v = some f := hfv
        rw [hpte v (Nat.le_trans hszle hv)] at hfv'
        cases hfv' }
  · rw [hwp]
    exact ⟨fun k hk => absurd (hd.given k) hk, fun k _ hk => absurd (hd.given k) hk⟩
  · rw [hwp] at hs
    exact absurd hust hs
  · rw [hwp] at hk
    exact absurd (hd.given k) hk

theorem exec_inv {K : KernelStore} {file : Option File} (argv : List (List Byte)) (h : Inv s)
    (hp : (s.proc p).state = .RUNNABLE) (hsafe : ∀ f ∈ file, KernelSafe s p f) :
    Ends (exec K s p file argv) (fun r => Inv r.1 ∧ (Neat s → Neat r.1))
      fun e => LoadStops e ∨ e = .kfree ∧ ¬ Neat s := by
  have hused : (s.proc p).state ≠ .UNUSED := by rw [hp]; decide
  have hregion := h.region p hused
  unfold exec
  cases file with
  | none => exact ⟨h, fun hneat => hneat⟩
  | some file =>
      simp only
      cases helf : readElf file with
      | none => exact ⟨h, fun hneat => hneat⟩
      | some elf =>
          simp only
          cases hset : setupkvm s with
          | mk v od =>
            cases od with
            | none =>
                have hout := setupkvm_none hset
                exact ⟨hout.inv h, fun hneat => hneat.of_spages hout.same.spages⟩
            | some d =>
                obtain ⟨ts, hnew⟩ := setupkvm_some hset
                have hvtop : (v.proc p).current_top = (s.proc p).current_top := by
                  rw [hnew.same.proc]
                have hreach : ¬ ReachesKernel file (v.proc p).current_top v.freelist.length
                    elf.phnum elf.phoff 0 := by
                  rw [hvtop, hnew.length_rest]
                  exact hsafe file rfl elf helf
                have hbuild := ends_iff.mp (buildImage_spec (K := K) hreach
                  (hnew.goodList h.goodList) hnew.pte (by rw [hvtop]; exact hregion.top_le) argv)
                rw [hvtop] at hbuild
                simp only
                refine Ends.bind (ends_iff.mpr ⟨hbuild.1, fun e he => .inl (hbuild.2 e he)⟩)
                  fun r hr => ?_
                obtain ⟨t, osz⟩ := r
                obtain ⟨⟨gs, hrem⟩, himage⟩ := hr
                cases osz with
                | none =>
                    obtain ⟨w, hw, hret⟩ := hnew.giveUp h.goodList hrem.places hrem.length
                    simp only
                    rw [hw, ok_bind]
                    exact ⟨hret.inv h, fun hneat => hneat.of_spages hret.same.spages⟩
                | some sz =>
                    obtain ⟨hpos, htop, fs, himage⟩ := himage sz rfl
                    have hfresh := hnew.fresh himage.places
                    have htp : t.proc p = s.proc p := by rw [hfresh.same.proc]
                    have hdetach := ends_iff.mp (shmdt_inv (hfresh.inv h) (by rw [htp]; exact hused))
                    have hneat : Neat s → Neat t := fun hs => hs.of_spages hfresh.same.spages
                    simp only
                    refine Ends.bind (ends_iff.mpr ⟨hdetach.1, fun e he => ?_⟩) fun u hu => ?_
                    · obtain ⟨rfl, hno⟩ := hdetach.2 e he
                      exact .inr ⟨rfl, fun hs => hno (hneat hs)⟩
                    · obtain ⟨w, hw, hinv, hspages⟩ :=
                        commit_inv h hp hfresh hu hpos htop himage.length
                      rw [hw, ok_bind]
                      exact ⟨hinv, fun hs => (hu.neat (hneat hs)).of_spages hspages⟩

end

end IntroToOS.SharedMemory

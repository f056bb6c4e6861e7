import IntroToOS.SharedMemory.Frames

/-! # New address spaces

What `copyuvm` makes for `fork` and what `exec` makes for a new image: a fresh page directory whose
pages are frames of the free list and, in a child, the shared pages of its parent. When a page
cannot be had, all that was taken is given back; only a failure in `setupkvm` loses frames.
-/

namespace IntroToOS.SharedMemory
open Lib
set_option autoImplicit false

/-- What the routines rely on: `kfree` accepts the frames of the free list, and none is NULL. -/
structure GoodList (s : Kernel) : Prop where
  kend_pos : 0 < s.kend
  valid : ∀ f ∈ s.freelist, ValidFrame s f

/-- All frames are back, and no directory in use has changed. -/
structure Returned (s s' : Kernel) : Prop where
  same : SameProcs s s'
  others : ∀ f, f ∉ s.freelist → s'.dir f = s.dir f
  freelist : s'.freelist.Perm s.freelist

section
variable {s s' s'' t : Kernel} {d f pgdir : Frame} {v n sz : ℕ} {ts fs gs : List Frame}
  {proc : ProcId}

theorem Returned.refl (s : Kernel) : Returned s s := ⟨.refl s, fun _ _ => rfl, .refl _⟩

theorem GoodList.ne_zero (h : GoodList s) (hf : f ∈ s.freelist) : f ≠ 0 := by
  rintro rfl
  exact absurd (h.valid 0 hf).1 (Nat.not_le.mpr h.kend_pos)

theorem GoodList.of_sub (h : GoodList s) (hsame : SameProcs s s')
    (hsub : ∀ f ∈ s'.freelist, f ∈ s.freelist) : GoodList s' where
  kend_pos := by
    rw [hsame.kend]
    exact h.kend_pos
  valid f hf := hsame.valid.mpr (h.valid f (hsub f hf))

theorem Places.mem_freelist (h : Places d v fs s s') (hf : f ∈ s'.freelist) : f ∈ s.freelist :=
  h.freelist.mem_iff.mpr (List.mem_append_right fs hf)

theorem Places.mem_placed (h : Places d v fs s s') (hf : f ∈ fs) : f ∈ s.freelist :=
  h.freelist.mem_iff.mpr (List.mem_append_left _ hf)

theorem Places.goodList (h : Places d v fs s s') (hg : GoodList s) : GoodList s' :=
  hg.of_sub h.same fun _ hf => h.mem_freelist hf

theorem NewDir.goodList (h : NewDir ts s d s') (hg : GoodList s) : GoodList s' := by
  refine hg.of_sub h.same fun f hf => ?_
  rw [h.freelist]
  exact List.mem_append_right _ hf

theorem NewDir.dir_mem (h : NewDir ts s d s') : d ∈ s.freelist := by
  rw [h.freelist]
  exact List.mem_cons_self

theorem NewDir.lt_length (h : NewDir ts s d s') : kmap.length < s.freelist.length := by
  rw [h.freelist, List.length_append, List.length_cons, h.length]
  omega

theorem NewDir.length_rest (h : NewDir ts s d s') :
    s'.freelist.length = s.freelist.length - (kmap.length + 1) := by
  rw [h.freelist, List.length_append, List.length_cons, h.length]
  omega

theorem NewDir.pte (h : NewDir ts s d s') (x : ℕ) : (s'.dir d).pte x = none := by
  rw [h.dir]

/-- A directory under construction is given up. -/
theorem NewDir.giveUp (h : NewDir ts s d s') (hg : GoodList s) (hp : Places d 0 fs s' s'')
    (hlen : fs.length ≤ userPages) : ∃ t, freevm s'' d = .ok t ∧ Returned s t := by
  have hsame := h.same.trans hp.same
  have htables : (s''.dir d).tables = ts := by rw [hp.tables, h.dir]
  have hwin : window (s''.dir d).pte 0 userPages = fs := by
    rw [hp.pte]
    refine (window_of_le hlen fun x h1 _ => ?_).trans (window_place ..)
    rw [place_of_not_mem (by omega)]
    exact h.pte x
  have htaken : s.freelist.Perm (d :: ts ++ fs ++ s''.freelist) := by
    rw [h.freelist, List.append_assoc]
    exact hp.freelist.append_left _
  have hvalid : ∀ f ∈ d :: ts ++ fs, ValidFrame s'' f := fun f hf =>
    hsame.valid.mpr (hg.valid f (htaken.mem_iff.mpr (List.mem_append_left _ hf)))
  obtain ⟨t, ht, hfrees⟩ := freevm_spec (hg.ne_zero h.dir_mem)
    (hvalid d List.mem_cons_self)
    (fun f hf => hvalid f (by rw [htables] at hf; simp [hf]))
    (fun f hf => hvalid f (by rw [hwin] at hf; simp [hf]))
  refine ⟨t, ht, hsame.trans hfrees.same, fun f hf => ?_, ?_⟩
  · have hne : f ≠ d := fun he => hf (he ▸ h.dir_mem)
    rw [hfrees.others f hne, hp.others f hne, h.others f hne]
  · have := hfrees.freelist
    rw [htables, hwin] at this
    exact this.trans htaken.symm

/-! ## `copyuvm` -/

theorem copyPages_spec (pgdir : Frame) (hne : pgdir ≠ d) (hn : v + n ≤ userPages)
    (hnone : ∀ x, v ≤ x → x < v + n → (s.dir d).pte x = none) :
    Ends (copyPages pgdir d (List.range' v n) s)
      (fun r => ∃ fs, Places d v fs s r.1 ∧ fs.length ≤ n ∧ (r.2 = true → fs.length = n))
      fun e => e = .pageNotPresent ∧ ∃ x, (v ≤ x ∧ x < v + n) ∧ (s.dir pgdir).pte x = none := by
  induction n generalizing s v with
  | zero => exact ⟨[], .refl s, Nat.le_refl _, fun _ => rfl⟩
  | succ n ih =>
      rw [List.range'_succ, copyPages]
      cases hpa : (s.dir pgdir).pte v with
      | none => exact ⟨rfl, v, by omega, hpa⟩
      | some pa =>
          cases hfree : s.freelist with
          | nil =>
              rw [kalloc_of_nil hfree]
              exact ⟨[], .refl s, Nat.zero_le _, fun h => by cases h⟩
          | cons f l =>
              rw [kalloc_of_cons hfree]
              obtain ⟨t, ht, hplace, -, -⟩ :=
                mappages_new (s.mem pa) (by omega) (hnone v (Nat.le_refl v) (by omega)) hfree
              simp only
              rw [show (({ s with freelist := l } : Kernel).mem pa) = s.mem pa from rfl, ht, ok_bind]
              have hsrc : ∀ x, (t.dir pgdir).pte x = (s.dir pgdir).pte x := fun x => by
                rw [hplace.others pgdir hne]
              have hrest := ih (s := t) (v := v + 1) (by omega) fun x h1 h2 => by
                rw [hplace.pte_of_lt (by simp only [List.length_singleton]; omega)]
                exact hnone x (by omega) (by omega)
              rw [ends_iff] at hrest ⊢
              refine ⟨fun r hr => ?_, fun e he => ?_⟩
              · obtain ⟨fs, hfs, hlen, hall⟩ := hrest.1 r hr
                refine ⟨f :: fs, hplace.trans hfs, Nat.succ_le_succ hlen, fun h => ?_⟩
                rw [List.length_cons, hall h]
              · obtain ⟨rfl, x, hx, hnone'⟩ := hrest.2 e he
                exact ⟨rfl, x, by omega, by rw [← hsrc, hnone']⟩

/-- Entries of `pgdir` are copied to `d`. -/
structure Shares (pgdir d : Frame) (l : List ℕ) (s s' : Kernel) : Prop where
  same : SameProcs s s'
  others : ∀ f, f ≠ d → s'.dir f = s.dir f
  tables : (s'.dir d).tables = (s.dir d).tables
  pte : ∀ x, (s'.dir d).pte x = if x ∈ l then (s.dir pgdir).pte x else (s.dir d).pte x
  freelist : s'.freelist = s.freelist

theorem sharePages_spec {l : List ℕ} (hne : pgdir ≠ d) (hnodup : l.Nodup)
    (hl : ∀ x ∈ l, x < userPages ∧ (s.dir d).pte x = none) :
    ∃ s', l.foldlM (sharePage pgdir d) s = .ok s' ∧ Shares pgdir d l s s' := by
  induction l generalizing s with
  | nil => exact ⟨s, rfl, .refl s, fun _ _ => rfl, rfl, fun x => by simp, rfl⟩
  | cons v l ih =>
      obtain ⟨hv, hnodup⟩ := List.nodup_cons.mp hnodup
      obtain ⟨hlt, hnone⟩ := hl v List.mem_cons_self
      -- one turn
      have hturn : ∃ t, sharePage pgdir d s v = .ok t ∧ Shares pgdir d [v] s t := by
        unfold sharePage
        cases hpa : (s.dir pgdir).pte v with
        | none =>
            refine ⟨s, rfl, .refl s, fun _ _ => rfl, rfl, fun x => ?_, rfl⟩
            by_cases hx : x = v
            · rw [if_pos (by simp [hx]), hx, hpa, hnone]
            · rw [if_neg (by simp [hx])]
        | some pa =>
            have hok : ¬ (userPages ≤ v ∨ ((s.dir d).pte v).isSome) := by
              rw [hnone]
              rintro (h | h)
              · omega
              · cases h
            refine ⟨_, if_neg hok, ⟨rfl, rfl, rfl, rfl, rfl⟩, fun f hf => ?_, ?_, fun x => ?_, rfl⟩
            · simp [Kernel.setPte, Kernel.setDir, hf]
            · simp [Kernel.setPte, Kernel.setDir]
            · by_cases hx : x = v
              · simp [Kernel.setPte, Kernel.setDir, hx, hpa]
              · simp [Kernel.setPte, Kernel.setDir, hx]
      obtain ⟨t, ht, hone⟩ := hturn
      obtain ⟨u, hu, hrest⟩ := ih (s := t) hnodup fun x hx => by
        have hxv : x ∉ [v] := fun he => hv (List.mem_singleton.mp he ▸ hx)
        rw [hone.pte, if_neg hxv]
        exact hl x (List.mem_cons_of_mem v hx)
      refine ⟨u, ?_, hone.same.trans hrest.same, fun f hf => ?_, ?_, fun x => ?_, ?_⟩
      · rw [List.foldlM_cons, ht]
        exact hu
      · rw [hrest.others f hf, hone.others f hf]
      · rw [hrest.tables, hone.tables]
      · rw [hrest.pte, hone.others pgdir hne, hone.pte]
        by_cases hx : x ∈ l
        · rw [if_pos hx, if_pos (List.mem_cons_of_mem v hx)]
        · rw [if_neg hx]
          by_cases hxv : x = v
          · rw [if_pos (by simp [hxv]), if_pos (by simp [hxv])]
          · rw [if_neg (by simp [hxv]), if_neg (by simp [hxv, hx])]
      · rw [hrest.freelist, hone.freelist]

/-- The address space of a child: copies of the heap pages, and the shared pages themselves. -/
structure CopyOf (s : Kernel) (pgdir : Frame) (sz top : ℕ) (ts fs : List Frame) (d : Frame)
    (s' : Kernel) : Prop where
  same : SameProcs s s'
  others : ∀ f, f ≠ d → s'.dir f = s.dir f
  tables : (s'.dir d).tables = ts
  tables_length : ts.length = kmap.length
  pte : ∀ x, (s'.dir d).pte x = if x < pages sz then fs[x]?
    else if pages top ≤ x ∧ x < userPages then (s.dir pgdir).pte x else none
  length : fs.length = pages sz
  freelist : s.freelist.Perm (d :: ts ++ fs ++ s'.freelist)

/-- How `copyuvm` ends. -/
def CopyEnds (s : Kernel) (pgdir : Frame) (sz top : ℕ) (r : Kernel × Option Frame) : Prop :=
  match r.2 with
  | some d => ∃ ts fs, CopyOf s pgdir sz top ts fs d r.1
  | none => OutOfFrames s r.1 ∨ kmap.length < s.freelist.length ∧ Returned s r.1

theorem copyuvm_spec (pgdir : Frame) (sz : ℕ) (proc : ProcId) (hg : GoodList s) (hpg : pgdir ∉ s.freelist)
    (hsz : pages sz ≤ pages (s.proc proc).current_top)
    (htop : (s.proc proc).current_top ≤ USERTOP) :
    Ends (copyuvm s pgdir sz proc) (CopyEnds s pgdir sz (s.proc proc).current_top)
      fun e => e = .pageNotPresent ∧ kmap.length < s.freelist.length ∧
        ∃ x < pages sz, (s.dir pgdir).pte x = none := by
  have huser := pages_le_user htop
  unfold copyuvm
  cases hset : setupkvm s with
  | mk t od =>
    cases od with
    | none => exact .inl (setupkvm_none hset)
    | some d =>
      obtain ⟨ts, hnew⟩ := setupkvm_some hset
      have hne : pgdir ≠ d := fun he => hpg (he ▸ hnew.dir_mem)
      have hcopy := copyPages_spec (s := t) (v := 0) (n := pages sz) pgdir hne
        (by omega) fun x _ _ => hnew.pte x
      rw [← List.range_eq_range'] at hcopy
      simp only
      rw [ends_iff] at hcopy
      refine Ends.bind (ends_iff.mpr ⟨hcopy.1, fun e he => ?_⟩) fun r hr => ?_
      · obtain ⟨rfl, x, hx, hnone⟩ := hcopy.2 e he
        exact ⟨rfl, hnew.lt_length, x, by omega, by rw [← hnew.others pgdir hne, hnone]⟩
      · obtain ⟨u, copied⟩ := r
        obtain ⟨fs, hp, hlen, hall⟩ := hr
        simp only
        split
        · next hc =>
          have hlen := hall hc
          have hproc : (u.proc proc).current_top = (s.proc proc).current_top := by
            rw [hp.same.proc, hnew.same.proc]
          have hpte : ∀ x, (u.dir d).pte x = if x < pages sz then fs[x]? else none := fun x => by
            rw [hp.pte]
            by_cases hx : x < pages sz
            · rw [if_pos hx, place_of_mem (Nat.zero_le x) (by omega), Nat.sub_zero]
            · rw [if_neg hx, place_of_not_mem (by omega), hnew.pte]
          rw [hproc]
          have hmem : ∀ x, x ∈ (List.range' (pages (s.proc proc).current_top)
              (userPages - pages (s.proc proc).current_top)).reverse ↔
              pages (s.proc proc).current_top ≤ x ∧ x < userPages := fun x => by
            rw [List.mem_reverse, List.mem_range'_1]
            omega
          obtain ⟨w, hw, hshare⟩ := sharePages_spec (s := u) hne
            (List.nodup_reverse.mpr (List.nodup_range' (s := pages (s.proc proc).current_top)
              (n := userPages - pages (s.proc proc).current_top))) fun x hx => by
              rw [hmem] at hx
              exact ⟨hx.2, by rw [hpte, if_neg (by omega)]⟩
          rw [hw]
          refine ⟨ts, fs, ⟨(hnew.same.trans hp.same).trans hshare.same, fun f hf => ?_, ?_,
            hnew.length, fun x => ?_, hlen, ?_⟩⟩
          · rw [hshare.others f hf, hp.others f hf, hnew.others f hf]
          · rw [hshare.tables, hp.tables, hnew.dir]
          · rw [hshare.pte, hpte, hp.others pgdir hne, hnew.others pgdir hne]
            simp only [hmem]
            by_cases hx : x < pages sz
            · have hout : ¬ (pages (s.proc proc).current_top ≤ x ∧ x < userPages) := by omega
              rw [if_neg hout, if_pos hx, if_pos hx]
            · rw [if_neg hx, if_neg hx]
          · show s.freelist.Perm (d :: ts ++ fs ++ w.freelist)
            rw [hnew.freelist, hshare.freelist, List.append_assoc]
            exact hp.freelist.append_left _
        · obtain ⟨w, hw, hret⟩ := hnew.giveUp hg hp (by omega)
          rw [hw]
          exact .inr ⟨hnew.lt_length, hret⟩

/-! ## The image of `exec` -/

namespace ProgHdr

/-- The page that the bytes of the segment from `k * PGSIZE` on are stored to. -/
def page (ph : ProgHdr) (k : ℕ) : ℕ := (ph.va + k * PGSIZE) % 2 ^ 32 / PGSIZE

def part (ph : ProgHdr) (k : ℕ) : ℕ := min (ph.filesz - k * PGSIZE) PGSIZE

/-- What `readi` delivers for them. -/
def bytes (ph : ProgHdr) (file : File) (k : ℕ) : List Byte :=
  file ((ph.offset + k * PGSIZE) % 2 ^ 32) (ph.part k)

/-- The first `n` pages are loaded, none of them above the user part. -/
def Loads (ph : ProgHdr) (file : File) (n : ℕ) : Prop :=
  ∀ k < n, ph.page k < userPages ∧ (ph.bytes file k).length = ph.part k

/-- `loaduvm` stores bytes of the file over a page of the kernel. -/
def Strays (ph : ProgHdr) (file : File) : Prop :=
  ∃ k < pages ph.filesz, ph.Loads file k ∧ userPages ≤ ph.page k ∧ ph.page k / 1024 ∈ kmap ∧
    ph.bytes file k ≠ []

instance (ph : ProgHdr) (file : File) (n : ℕ) : Decidable (ph.Loads file n) :=
  inferInstanceAs (Decidable (∀ k < n, _ ∧ _))

instance (ph : ProgHdr) (file : File) : Decidable (ph.Strays file) :=
  inferInstanceAs (Decidable (∃ k < pages ph.filesz, _ ∧ _))

end ProgHdr

/-- One of the `n` headers from `off` on is of a segment that is stored over the kernel. `exec` gets
there: all segments before it are loaded, `allocuvm` lets it through, since the sum of `va` and `memsz`
is not above `top`, and the `frames` are enough for the pages of the image, which has `sz` bytes so
far. -/
def ReachesKernel (file : File) (top frames : ℕ) : ℕ → ℕ → ℕ → Prop
  | 0, _, _ => False
  | n + 1, off, sz =>
    match readProg file off with
    | none => False
    | some ph =>
      if ph.type ≠ ELF_PROG_LOAD then ReachesKernel file top frames n (off + 32) sz
      else
        let newsz := max sz ((ph.va + ph.memsz) % 2 ^ 32)
        ph.filesz ≤ ph.memsz ∧ (ph.va + ph.memsz) % 2 ^ 32 ≤ top ∧ 0 < newsz ∧
          pages newsz ≤ frames ∧ ph.va % PGSIZE = 0 ∧
          (ph.Strays file ∨
            ph.Loads file (pages ph.filesz) ∧ ReachesKernel file top frames n (off + 32) newsz)

instance ReachesKernel.decidable (file : File) (top frames : ℕ) :
    ∀ n off sz, Decidable (ReachesKernel file top frames n off sz)
  | 0, _, _ => isFalse id
  | n + 1, off, sz =>
    match h : readProg file off with
    | none => isFalse fun hr => by simp only [ReachesKernel, h] at hr
    | some ph =>
      have : ∀ off sz, Decidable (ReachesKernel file top frames n off sz) :=
        ReachesKernel.decidable file top frames n
      decidable_of_iff (if ph.type ≠ ELF_PROG_LOAD then ReachesKernel file top frames n (off + 32) sz
        else ph.filesz ≤ ph.memsz ∧ (ph.va + ph.memsz) % 2 ^ 32 ≤ top ∧
          0 < max sz ((ph.va + ph.memsz) % 2 ^ 32) ∧
          pages (max sz ((ph.va + ph.memsz) % 2 ^ 32)) ≤ frames ∧ ph.va % PGSIZE = 0 ∧
          (ph.Strays file ∨ ph.Loads file (pages ph.filesz) ∧
            ReachesKernel file top frames n (off + 32) (max sz ((ph.va + ph.memsz) % 2 ^ 32))))
        (by simp only [ReachesKernel, h])

/-- An `exec` of the file by `p` stores no bytes of it over the kernel. -/
def KernelSafe (s : Kernel) (p : ProcId) (file : File) : Prop :=
  ∀ elf, readElf file = some elf → ¬ ReachesKernel file (s.proc p).current_top
    (s.freelist.length - (kmap.length + 1)) elf.phnum elf.phoff 0

instance (s : Kernel) (p : ProcId) (file : File) : Decidable (KernelSafe s p file) :=
  match h : readElf file with
  | none => isTrue fun _ he => by rw [h] at he; cases he
  | some elf => decidable_of_iff (¬ ReachesKernel file (s.proc p).current_top
      (s.freelist.length - (kmap.length + 1)) elf.phnum elf.phoff 0)
      ⟨fun hr _ he => by rw [h] at he; cases he; exact hr, fun hs => hs elf h⟩

/-- An executable with one segment, of four bytes in the file. -/
def oneSegment (va memsz : ℕ) : List Byte :=
  wordBytes 0x464c457f ++ List.replicate 24 0 ++ wordBytes 52 ++ List.replicate 12 0 ++
    [1, 0] ++ List.replicate 6 0 ++
    (wordBytes 1 ++ wordBytes 84 ++ wordBytes va ++ wordBytes 0 ++ wordBytes 4 ++
      wordBytes memsz ++ wordBytes 0 ++ wordBytes 0) ++
    wordBytes 7

def fileOf (bytes : List Byte) : File := fun off n => (bytes.drop off).take n

/-- The panics of `loaduvm`. -/
def LoadStops (e : Stop) : Prop := e = .loaduvm ∨ e = .pageFault

variable {K : KernelStore} {file : File}

theorem Restored.of_store (s : Kernel) (f : Frame) (o : ℕ) (bytes : List Byte) :
    Restored s (s.store f o bytes) := ⟨⟨rfl, rfl, rfl, rfl, rfl⟩, rfl, .refl _⟩

theorem Restored.trans (h : Restored s s') (h' : Restored s' s'') : Restored s s'' :=
  ⟨h.same.trans h'.same, h'.dir.trans h.dir, h'.freelist.trans h.freelist⟩

theorem storePage_spec {va : ℕ} {bytes : List Byte}
    (hsafe : ¬ (bytes ≠ [] ∧ userPages ≤ va / PGSIZE ∧ va / PGSIZE / 1024 ∈ kmap)) :
    Ends (storePage K proc d va bytes s)
      (fun t => Restored s t ∧ (va / PGSIZE < userPages ∨ bytes = [])) LoadStops := by
  unfold storePage
  simp only
  split
  · next hv =>
    split
    · exact ⟨.of_store .., .inl hv⟩
    · split
      · exact ⟨.of_store .., .inl hv⟩
      · split
        · exact ⟨.refl s, .inl hv⟩
        · exact .inr rfl
  · next hv =>
    split
    · next hmap =>
      split
      · next hnil => exact ⟨.refl s, .inr hnil⟩
      · next hne => exact absurd ⟨hne, Nat.not_lt.mp hv, hmap⟩ hsafe
    · exact .inl rfl

theorem ProgHdr.part_pos {ph : ProgHdr} {k : ℕ} (h : k < pages ph.filesz) : 0 < ph.part k := by
  have hlt : k < (ph.filesz + 4096 - 1) / 4096 := h
  show 0 < min (ph.filesz - k * 4096) 4096
  omega

theorem loadPages_spec {ph : ProgHdr} {k m : ℕ} (hkm : k + m = pages ph.filesz)
    (hsafe : ¬ ph.Strays file) (hloads : ph.Loads file k) :
    Ends (loadPages K proc d file ph.va ph.offset ph.filesz (List.range' k m) s)
      (fun r => Restored s r.1 ∧ (r.2 = true → ph.Loads file (pages ph.filesz))) LoadStops := by
  induction m generalizing k s with
  | zero =>
      obtain rfl : k = pages ph.filesz := by omega
      exact ⟨.refl s, fun _ => hloads⟩
  | succ m ih =>
      have hk : k < pages ph.filesz := by omega
      have hpart := ProgHdr.part_pos hk
      rw [List.range'_succ]
      unfold loadPages
      have hquiet : ¬ (ph.bytes file k ≠ [] ∧ userPages ≤ ph.page k ∧ ph.page k / 1024 ∈ kmap) :=
        fun h => hsafe ⟨k, hk, hloads, h.2.1, h.2.2, h.1⟩
      refine Ends.bind (storePage_spec hquiet) fun t ht => ?_
      · split
        · next hfull =>
          have hfull : (ph.bytes file k).length = ph.part k := hfull
          have hpage : ph.page k < userPages := by
            refine ht.2.resolve_right fun hnil => ?_
            rw [show ph.bytes file k = [] from hnil] at hfull
            exact absurd hfull (Nat.ne_of_lt hpart)
          have hnext : ph.Loads file (k + 1) := fun j hj => by
            rcases Nat.lt_succ_iff_lt_or_eq.mp hj with hj | rfl
            · exact hloads j hj
            · exact ⟨hpage, hfull⟩
          exact (ih (by omega) hnext).mono fun r hr => ⟨ht.1.trans hr.1, hr.2⟩
        · exact ⟨ht.1, fun h => Bool.noConfusion h⟩

theorem loaduvm_spec {ph : ProgHdr} (hsafe : ¬ (ph.va % PGSIZE = 0 ∧ ph.Strays file)) :
    Ends (loaduvm K s proc d file ph.va ph.offset ph.filesz)
      (fun r => Restored s r.1 ∧
        (r.2 = true → ph.va % PGSIZE = 0 ∧ ph.Loads file (pages ph.filesz))) LoadStops := by
  unfold loaduvm
  split
  · exact .inl rfl
  · next hva =>
    have hva := not_not.mp hva
    rw [List.range_eq_range']
    have hloads : ph.Loads file 0 := fun k hk => absurd hk (Nat.not_lt_zero k)
    exact (loadPages_spec (Nat.zero_add _) (fun hstray => hsafe ⟨hva, hstray⟩) hloads).mono
      fun r hr => ⟨hr.1, fun h => ⟨hva, hr.2 h⟩⟩

/-- The image so far: the pages below `sz` are there. -/
structure Image (s : Kernel) (d : Frame) (sz : ℕ) (s' : Kernel) (fs : List Frame) : Prop where
  places : Places d 0 fs s s'
  length : fs.length = pages sz
  le : sz ≤ USERTOP

/-- What is left of an image when `exec` goes to `bad`. -/
structure Remains (s : Kernel) (d : Frame) (s' : Kernel) (fs : List Frame) : Prop where
  places : Places d 0 fs s s'
  length : fs.length ≤ userPages

theorem Image.remains (h : Image s d sz s' fs) : Remains s d s' fs :=
  ⟨h.places, by rw [h.length]; exact pages_le_user h.le⟩

/-- `allocuvm` on an image. -/
theorem Image.alloc (h : Image s d sz s' fs) (proc : ProcId) (newsz : ℕ) (hg : GoodList s)
    (hd : ∀ x, (s.dir d).pte x = none) (htop : (s.proc proc).current_top ≤ USERTOP) :
    ∃ t r, allocuvm s' proc d sz newsz = .ok (t, r) ∧ (∃ gs, Remains s d t gs) ∧
      (r ≠ 0 → ∃ gs, Image s d r t gs) ∧
      (r ≠ 0 → r = max sz newsz ∧ newsz ≤ (s.proc proc).current_top) := by
  have hproc : s'.proc proc = s.proc proc := by rw [h.places.same.proc]
  obtain ⟨t, r, hr, hal⟩ := allocuvm_spec (s := s') proc d sz newsz (by rw [hproc]; exact htop)
    (fun x h1 _ => by
      rw [h.places.pte_of_lt (by rw [h.length]; omega)]
      exact hd x)
    (h.places.goodList hg).valid
  refine ⟨t, r, hr, ?_⟩
  cases hal with
  | refused _ hres =>
      refine ⟨⟨fs, h.places.restored hres, h.remains.length⟩, fun h0 => absurd rfl h0,
        fun h0 => absurd rfl h0⟩
  | smaller hlt hnew =>
      rw [hproc] at hnew
      exact ⟨⟨fs, h.remains⟩, fun _ => ⟨fs, h⟩, fun _ => ⟨(Nat.max_eq_left hlt.le).symm, hnew⟩⟩
  | grown _ hle hnew hlen hp hzero =>
      rw [hproc] at hnew
      have hmono := pages_mono hle
      have himage : ∃ gs, Image s d newsz t gs := by
        refine ⟨_, h.places.trans (by rw [h.length, Nat.zero_add]; exact hp), ?_,
          Nat.le_trans hnew htop⟩
        rw [List.length_append, List.length_take, h.length]
        omega
      obtain ⟨gs, hgs⟩ := himage
      exact ⟨⟨gs, hgs.remains⟩, fun _ => ⟨gs, hgs⟩,
        fun _ => ⟨(Nat.max_eq_right hle).symm, hnew⟩⟩

theorem Image.pages_le (h : Image s d sz s' fs) : pages sz ≤ s.freelist.length := by
  rw [← h.length, h.places.freelist.length_eq, List.length_append]
  exact Nat.le_add_right ..

theorem loadSegments_spec {off : ℕ}
    (hsafe : ¬ ReachesKernel file (s.proc proc).current_top s.freelist.length n off sz)
    (hg : GoodList s) (hd : ∀ x, (s.dir d).pte x = none)
    (htop : (s.proc proc).current_top ≤ USERTOP) (h : Image s d sz s' fs) :
    Ends (loadSegments K proc d file n off s' sz)
      (fun r => (∃ gs, Remains s d r.1 gs) ∧ ∀ sz', r.2 = some sz' → ∃ gs, Image s d sz' r.1 gs)
      LoadStops := by
  induction n generalizing s' sz fs off with
  | zero => exact ⟨⟨fs, h.remains⟩, fun sz' hsz => ⟨fs, Option.some.inj hsz ▸ h⟩⟩
  | succ n ih =>
      have hbad : ∀ {t : Kernel} {gs : List Frame}, Remains s d t gs →
          (∃ gs, Remains s d t gs) ∧
            ∀ sz', (none : Option ℕ) = some sz' → ∃ gs, Image s d sz' t gs :=
        fun hr => ⟨⟨_, hr⟩, fun _ hsz => by cases hsz⟩
      unfold loadSegments
      rw [ReachesKernel] at hsafe
      cases hph : readProg file off with
      | none => exact hbad h.remains
      | some ph =>
          rw [hph] at hsafe
          simp only at hsafe ⊢
          by_cases hload : ph.type ≠ ELF_PROG_LOAD
          · rw [if_pos hload] at hsafe ⊢
            exact ih hsafe h
          · rw [if_neg hload] at hsafe ⊢
            split
            · exact hbad h.remains
            · next hsize =>
              obtain ⟨t, r, hr, ⟨gs, hrem⟩, himage, hval⟩ := h.alloc proc
                ((ph.va + ph.memsz) % 2 ^ 32) hg hd htop
              rw [hr, ok_bind]
              simp only
              split
              · exact hbad hrem
              · next hr0 =>
                obtain ⟨gs, himage⟩ := himage hr0
                obtain ⟨hrv, hnew⟩ := hval hr0
                rw [← hrv] at hsafe
                have hreach : ph.va % PGSIZE = 0 → ¬ (ph.Strays file ∨
                    ph.Loads file (pages ph.filesz) ∧ ReachesKernel file (s.proc proc).current_top
                      s.freelist.length n (off + 32) r) := fun hva hor =>
                  hsafe ⟨Nat.not_lt.mp hsize, hnew, Nat.pos_of_ne_zero hr0, himage.pages_le, hva, hor⟩
                refine Ends.bind (loaduvm_spec fun hstray => hreach hstray.1 (.inl hstray.2))
                  fun r' hr' => ?_
                obtain ⟨u, loaded⟩ := r'
                obtain ⟨hu, hloads⟩ := hr'
                have hu : Image s d r u gs := ⟨himage.places.restored hu, himage.length, himage.le⟩
                simp only
                split
                · next hl =>
                  obtain ⟨hva, hloads⟩ := hloads hl
                  exact ih (fun hlater => hreach hva (.inr ⟨hloads, hlater⟩)) hu
                · exact hbad hu.remains

/-! ## The stack of the image -/

theorem copyout_restored (fuel : ℕ) (s : Kernel) (va : ℕ) (p : List Byte) :
    Restored s (copyout d fuel s va p).1 := by
  induction fuel generalizing s va p with
  | zero => exact .refl s
  | succ fuel ih =>
      unfold copyout
      split
      · exact .refl s
      · split
        · exact .refl s
        · exact (Restored.of_store ..).trans (ih ..)

theorem pushArgs_restored (argv : List (List Byte)) (s : Kernel) (sp : ℕ) (args : List ℕ) :
    Restored s (pushArgs d argv s sp args).1 := by
  induction argv generalizing s sp args with
  | nil => exact .refl s
  | cons arg argv ih =>
      unfold pushArgs
      split
      · exact .refl s
      · have hcopy := copyout_restored (d := d) (arg.length + 1) s
          (sub32 sp (arg.length + 1) / 4 * 4) (arg ++ [0])
        simp only
        split
        · next heq => rwa [heq] at hcopy
        · next heq =>
          rw [heq] at hcopy
          exact hcopy.trans (ih ..)

theorem pushStack_restored (argv : List (List Byte)) (s : Kernel) (sz : ℕ) :
    Restored s (pushStack d argv s sz).1 := by
  have hargs := pushArgs_restored (d := d) argv s sz []
  unfold pushStack
  split
  · next heq => rwa [heq] at hargs
  · next heq =>
    rw [heq] at hargs
    exact hargs.trans (copyout_restored ..)

/-- What `buildImage` leaves behind, and what it returns. -/
def ImageEnds (s : Kernel) (d : Frame) (top : ℕ) (r : Kernel × Option ℕ) : Prop :=
  (∃ fs, Remains s d r.1 fs) ∧
    ∀ sz, r.2 = some sz → 0 < sz ∧ sz ≤ top ∧ ∃ fs, Image s d sz r.1 fs

theorem pages_PGROUNDUP (sz : ℕ) : pages (PGROUNDUP sz) = pages sz := by
  show (pages sz * 4096 + 4096 - 1) / 4096 = pages sz
  omega

theorem buildImage_spec {elf : ElfHdr} (hsafe : ¬ ReachesKernel file (s.proc proc).current_top
      s.freelist.length elf.phnum elf.phoff 0) (hg : GoodList s) (hd : ∀ x, (s.dir d).pte x = none)
    (htop : (s.proc proc).current_top ≤ USERTOP) (argv : List (List Byte)) :
    Ends (buildImage K s proc d file elf argv) (ImageEnds s d (s.proc proc).current_top)
      LoadStops := by
  have hbad : ∀ {t : Kernel} {gs : List Frame}, Remains s d t gs →
      ImageEnds s d (s.proc proc).current_top (t, none) :=
    fun hr => ⟨⟨_, hr⟩, fun _ hsz => by cases hsz⟩
  have hzero : Image s d 0 s [] := ⟨.refl s, rfl, Nat.zero_le _⟩
  unfold buildImage
  refine Ends.bind (loadSegments_spec hsafe hg hd htop hzero) fun r hr => ?_
  obtain ⟨t, osz⟩ := r
  obtain ⟨⟨gs, hrem⟩, himage⟩ := hr
  cases osz with
  | none => exact hbad hrem
  | some sz =>
      obtain ⟨gs, himage⟩ := himage sz rfl
      have hround : Image s d (PGROUNDUP sz) t gs := by
        refine ⟨himage.places, by rw [pages_PGROUNDUP]; exact himage.length, ?_⟩
        exact Nat.mul_le_mul_right PGSIZE (pages_le_user himage.le)
      obtain ⟨u, r, hr, ⟨hs, hrem⟩, hgrown, hval⟩ := hround.alloc proc
        (PGROUNDUP sz + PGSIZE) hg hd htop
      simp only
      rw [hr, ok_bind]
      simp only
      split
      · exact hbad hrem
      · next hr0 =>
        obtain ⟨hs, hgrown⟩ := hgrown hr0
        obtain ⟨hrv, htopv⟩ := hval hr0
        rw [Nat.max_eq_right (Nat.le_add_right ..)] at hrv
        have hpush := pushStack_restored (d := d) argv u r
        split
        · next heq =>
          rw [heq] at hpush
          exact hbad (Image.remains ⟨hgrown.places.restored hpush, hgrown.length, hgrown.le⟩)
        · next heq =>
          rw [heq] at hpush
          have hw : Image s d r _ hs := ⟨hgrown.places.restored hpush, hgrown.length, hgrown.le⟩
          exact ⟨⟨hs, hw.remains⟩, fun sz' hsz => by
            obtain rfl : r = sz' := Option.some.inj hsz
            exact ⟨Nat.pos_of_ne_zero hr0, by rw [hrv]; exact htopv, hs, hw⟩⟩

end

end IntroToOS.SharedMemory

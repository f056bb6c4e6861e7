import IntroToOS.Lib.Tally
import IntroToOS.SharedMemory.Growproc

/-! # The invariant of the system

`uses s f` counts the places that hold the frame `f`: the free list, the memory of a process and the
table of shared pages. No call ever adds a use, so that no frame has two. `Region` says how an
address space is laid out, `Attached` that the shared pages of a process are where its table says.
While a process detaches its pages the second does not hold of it, which is why the invariant has
an exception (`InvBut`).
-/

namespace IntroToOS.SharedMemory
open Lib
set_option autoImplicit false

/-! ## Frames in use -/

/-- The frames of a process: stack, page directory, page tables and heap. -/
def ownFrames (s : Kernel) (x : Proc) : List Frame :=
  if x.state = .UNUSED then []
  else x.kstack :: x.pgdir :: (s.dir x.pgdir).tables ++
    window (s.dir x.pgdir).pte 0 (x.current_top / PGSIZE)

/-- The pages of a key. -/
def keySlots (x : KeysPages) : ℕ → Option Frame := fun j =>
  if x.addr j = 0 then none else some (x.addr j)

def keyFrames (x : KeysPages) : List Frame := window (keySlots x) 0 MAX_SHARED_PAGES_PER_KEY

def uses (s : Kernel) (f : Frame) : ℕ :=
  s.freelist.count f + tally (List.count f) (fun p => ownFrames s (s.proc p)) +
    tally (List.count f) (fun k => keyFrames (s.spages k))

/-- Whether a process has the pages of a key. -/
def attachment (k : Key) (x : Proc) : ℕ := if x.key_addresses k ≠ 0 then 1 else 0

/-! ## Address spaces -/

/-- The heap, a gap, and the shared region with pages of attached keys only. -/
structure Region (s : Kernel) (x : Proc) : Prop where
  sz_pos : 0 < x.sz
  aligned : PGSIZE ∣ x.current_top
  apart : PGROUNDUP x.sz ≤ x.current_top
  top_le : x.current_top ≤ USERTOP
  gap : ∀ v, pages x.sz ≤ v → v < x.current_top / PGSIZE → (s.dir x.pgdir).pte v = none
  above : ∀ v, userPages ≤ v → (s.dir x.pgdir).pte v = none
  covered : ∀ v f, x.current_top / PGSIZE ≤ v → (s.dir x.pgdir).pte v = some f →
    ∃ k j, x.key_addresses k ≠ 0 ∧ j < (s.spages k).N ∧ f = (s.spages k).addr j

/-- The pages of every attached key, in order, at its address. -/
structure Attached (s : Kernel) (x : Proc) : Prop where
  address : ∀ k, x.key_addresses k ≠ 0 → PGSIZE ∣ x.key_addresses k ∧
    x.current_top ≤ x.key_addresses k
  mapped : ∀ k j, x.key_addresses k ≠ 0 → j < (s.spages k).N →
    (s.dir x.pgdir).pte (x.key_addresses k / PGSIZE + j) = some ((s.spages k).addr j)

/-- The invariant, but for the attachments of the process `o`. -/
structure InvBut (o : Option ProcId) (s : Kernel) : Prop where
  kend_pos : 0 < s.kend
  single : ∀ f, uses s f ≤ 1
  valid : ∀ f, 0 < uses s f → ValidFrame s f
  region : ∀ p, (s.proc p).state ≠ .UNUSED → Region s (s.proc p)
  attached : ∀ p, o ≠ some p → (s.proc p).state ≠ .UNUSED → Attached s (s.proc p)
  idle : ∀ p, (s.proc p).state ≠ .RUNNABLE → ∀ k, (s.proc p).key_addresses k = 0
  counted : ∀ k, (s.spages k).refcount = tally (attachment k) s.proc
  bound : ∀ k, (s.spages k).N ≤ MAX_SHARED_PAGES_PER_KEY
  full : ∀ k, (s.spages k).refcount ≠ 0 → ∀ j < (s.spages k).N, (s.spages k).addr j ≠ 0

abbrev Inv : Kernel → Prop := InvBut none

/-- No key has pages that nobody uses. -/
def Neat (s : Kernel) : Prop := ∀ k, (s.spages k).refcount = 0 → (s.spages k).N = 0

section
variable {s s' : Kernel} {p q : ProcId} {k : Key} {f : Frame} {x y : Proc} {o : Option ProcId}

/-! ## Where a frame is -/

theorem count_own_le (s : Kernel) (p : ProcId) (f : Frame) :
    (ownFrames s (s.proc p)).count f ≤ uses s f := by
  have := le_tally (List.count f) (fun p => ownFrames s (s.proc p)) p
  unfold uses
  omega

theorem count_key_le (s : Kernel) (k : Key) (f : Frame) :
    (keyFrames (s.spages k)).count f ≤ uses s f := by
  have := le_tally (List.count f) (fun k => keyFrames (s.spages k)) k
  unfold uses
  omega

theorem count_free_le (s : Kernel) (f : Frame) : s.freelist.count f ≤ uses s f := by
  unfold uses
  omega

theorem ownFrames_of_used (h : x.state ≠ .UNUSED) : ownFrames s x =
    x.kstack :: x.pgdir :: (s.dir x.pgdir).tables ++
      window (s.dir x.pgdir).pte 0 (x.current_top / PGSIZE) := if_neg h

theorem ownFrames_of_unused (h : x.state = .UNUSED) : ownFrames s x = [] := if_pos h

theorem pgdir_mem_own (h : x.state ≠ .UNUSED) : x.pgdir ∈ ownFrames s x := by
  rw [ownFrames_of_used h]
  simp

theorem kstack_mem_own (h : x.state ≠ .UNUSED) : x.kstack ∈ ownFrames s x := by
  rw [ownFrames_of_used h]
  simp

theorem table_mem_own (h : x.state ≠ .UNUSED) (hf : f ∈ (s.dir x.pgdir).tables) :
    f ∈ ownFrames s x := by
  rw [ownFrames_of_used h]
  simp [hf]

theorem heap_mem_own (h : x.state ≠ .UNUSED) {v : ℕ} (hv : v < x.current_top / PGSIZE)
    (hf : (s.dir x.pgdir).pte v = some f) : f ∈ ownFrames s x := by
  rw [ownFrames_of_used h]
  refine List.mem_append_right _ (mem_window.mpr ⟨v, ⟨Nat.zero_le v, ?_⟩, hf⟩)
  omega

theorem mem_keyFrames {z : KeysPages} {j : ℕ} (hj : j < MAX_SHARED_PAGES_PER_KEY)
    (hf : z.addr j ≠ 0) : z.addr j ∈ keyFrames z :=
  mem_window.mpr ⟨j, ⟨Nat.zero_le j, by omega⟩, if_neg hf⟩

/-- What `ownFrames` looks at. -/
theorem ownFrames_congr (hproc : s'.proc q = s.proc q)
    (hdir : (s.proc q).state ≠ .UNUSED →
      s'.dir (s.proc q).pgdir = s.dir (s.proc q).pgdir) :
    ownFrames s' (s'.proc q) = ownFrames s (s.proc q) := by
  rw [hproc]
  by_cases hu : (s.proc q).state = .UNUSED
  · rw [ownFrames_of_unused hu, ownFrames_of_unused hu]
  · rw [ownFrames_of_used hu, ownFrames_of_used hu, hdir hu]

namespace InvBut

theorem free_not_own (h : InvBut o s) (hf : f ∈ s.freelist) : f ∉ ownFrames s (s.proc p) := by
  intro hown
  have h1 := List.count_pos_iff.mpr hf
  have h2 := List.count_pos_iff.mpr hown
  have h3 := le_tally (List.count f) (fun p => ownFrames s (s.proc p)) p
  have h4 := h.single f
  unfold uses at h4
  omega

theorem free_not_key (h : InvBut o s) (hf : f ∈ s.freelist) : f ∉ keyFrames (s.spages k) := by
  intro hkey
  have h1 := List.count_pos_iff.mpr hf
  have h2 := List.count_pos_iff.mpr hkey
  have h3 := le_tally (List.count f) (fun k => keyFrames (s.spages k)) k
  have h4 := h.single f
  unfold uses at h4
  omega

theorem valid_free (h : InvBut o s) (hf : f ∈ s.freelist) : ValidFrame s f :=
  h.valid f (Nat.lt_of_lt_of_le (List.count_pos_iff.mpr hf) (count_free_le s f))

theorem valid_own (h : InvBut o s) (hf : f ∈ ownFrames s (s.proc p)) : ValidFrame s f :=
  h.valid f (Nat.lt_of_lt_of_le (List.count_pos_iff.mpr hf) (count_own_le s p f))

theorem valid_key (h : InvBut o s) (hf : f ∈ keyFrames (s.spages k)) : ValidFrame s f :=
  h.valid f (Nat.lt_of_lt_of_le (List.count_pos_iff.mpr hf) (count_key_le s k f))

theorem goodList (h : InvBut o s) : GoodList s := ⟨h.kend_pos, fun _ hf => h.valid_free hf⟩

theorem ne_zero (h : InvBut o s) (hf : ValidFrame s f) : f ≠ 0 := by
  rintro rfl
  exact absurd hf.1 (Nat.not_le.mpr h.kend_pos)

/-- Two processes have nothing in common but shared pages. -/
theorem own_disjoint (h : InvBut o s) (hne : p ≠ q) (hp : f ∈ ownFrames s (s.proc p)) :
    f ∉ ownFrames s (s.proc q) := by
  intro hq
  have h1 := List.count_pos_iff.mpr hp
  have h2 := List.count_pos_iff.mpr hq
  have h3 := add_le_tally (List.count f) (fun p => ownFrames s (s.proc p)) hne
  have h4 := h.single f
  unfold uses at h4
  omega

theorem pgdir_ne (h : InvBut o s) (hne : p ≠ q) (hp : (s.proc p).state ≠ .UNUSED)
    (hq : (s.proc q).state ≠ .UNUSED) : (s.proc q).pgdir ≠ (s.proc p).pgdir := fun he =>
  h.own_disjoint hne (pgdir_mem_own hp) (he ▸ pgdir_mem_own hq)

theorem pgdir_not_free (h : InvBut o s) (hp : (s.proc p).state ≠ .UNUSED) :
    (s.proc p).pgdir ∉ s.freelist := fun hf => h.free_not_own hf (pgdir_mem_own hp)

theorem refcount_eq_zero (h : InvBut o s) (h0 : (s.spages k).refcount = 0) (p : ProcId) :
    (s.proc p).key_addresses k = 0 := by
  have h1 := le_tally (attachment k) s.proc p
  have h2 := h.counted k
  by_contra hne
  rw [attachment, if_pos hne] at h1
  omega

theorem refcount_nonneg (h : InvBut o s) (k : Key) : 0 ≤ (s.spages k).refcount := by
  rw [h.counted k]
  exact Int.natCast_nonneg _

end InvBut

theorem Region.pages_le (h : Region s x) : pages x.sz ≤ x.current_top / PGSIZE := by
  rw [Nat.le_div_iff_mul_le (by decide)]
  exact h.apart

theorem Region.top_pages_le (h : Region s x) : x.current_top / PGSIZE ≤ userPages :=
  Nat.div_le_div_right h.top_le

theorem Region.div_top (h : Region s x) : pages x.current_top = x.current_top / PGSIZE := by
  obtain ⟨n, hn⟩ := h.aligned
  rw [hn]
  show (4096 * n + 4096 - 1) / 4096 = 4096 * n / 4096
  omega

/-- Reachable processes can fork, and all `growproc` asks for beyond this is a complete heap. -/
theorem InvBut.canFork (h : InvBut o s) (hp : (s.proc p).state ≠ .UNUSED) : CanFork s p where
  good := h.goodList
  used := hp
  pgdir := h.pgdir_not_free hp
  sz := by
    rw [(h.region p hp).div_top]
    exact (h.region p hp).pages_le
  top := (h.region p hp).top_le

end

end IntroToOS.SharedMemory

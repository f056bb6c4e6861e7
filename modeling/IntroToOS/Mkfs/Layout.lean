import IntroToOS.Mkfs.Tool
import IntroToOS.Fscheck.Accept
import Mathlib.Data.List.GetD

/-! # What a disk under construction holds

`Files` are the files as lists of bytes. `Layout` says how a disk holds them: the blocks in use
are those from 29 on to `freeblock`, each at one position of one inode (`owns`, `place`), all other
address words are zero, and so is the disk from `freeblock` on. The changes that `mkfs` makes one
by one keep it: taking a block, writing behind the end of a file, setting a size, making an inode.
-/

namespace IntroToOS.Mkfs
open Lib
open Fscheck (Image Position dinode positions n_blocks inodeType inodeSize inodeNlink)
set_option autoImplicit false

structure Files where
  kind : ℕ → ℕ
  size : ℕ → ℕ
  bytes : ℕ → List Byte
  next : ℕ

/-- Where the address word of a position is, given the indirect block. -/
def loc (place : ℕ → Position → ℕ) (i : ℕ) : Position → ℕ
  | .indirect => dinode i + 60
  | .data k => if k < 12 then dinode i + 12 + 4 * k else 512 * place i .indirect + 4 * (k - 12)

/-- The positions that have an address word: those beyond 12 once there is an indirect block. -/
def HasWord (owns : ℕ → Position → Prop) (i : ℕ) : Position → Prop
  | .indirect => True
  | .data k => k < 12 ∨ k < 140 ∧ owns i .indirect

structure Layout (s : Disk) (f : Files) (owns : ℕ → Position → Prop) (place : ℕ → Position → ℕ) :
    Prop where
  shape : ∀ i p, owns i p → i < 200 ∧ HasWord owns i p
  inRange : ∀ i p, owns i p → 29 ≤ place i p ∧ place i p < s.freeblock
  inj : ∀ i p j q, owns i p → owns j q → place i p = place j q → i = j ∧ p = q
  onto : ∀ b, 29 ≤ b → b < s.freeblock → ∃ i p, owns i p ∧ place i p = b
  word : ∀ i p, owns i p → u32 s.img (loc place i p) = BitVec.ofNat 32 (place i p)
  zero : ∀ i p, i < 200 → ¬ owns i p → HasWord owns i p → u32 s.img (loc place i p) = 0
  data : ∀ i k j, owns i (.data k) → j < 512 →
    s.img (512 * place i (.data k) + j) = (f.bytes i).getD (512 * k + j) 0
  fresh : ∀ x, 512 * s.freeblock ≤ x → x < 512 * 1024 → s.img x = 0
  used : s.usedblocks = s.freeblock
  low : 29 ≤ s.freeblock
  high : s.freeblock ≤ 1024
  kind : ∀ i < 200, inodeType s.img i = f.kind i
  nlink : ∀ i < 200, f.kind i ≠ 0 → inodeNlink s.img i = 1
  size : ∀ i < 200, inodeSize s.img i = f.size i
  super : Fscheck.ninodes s.img = 200
  next : s.freeinode = f.next
  unborn : ∀ i, f.next ≤ i → f.kind i = 0 ∧ f.bytes i = [] ∧ f.size i = 0

/-! ## Where things are -/

section
variable {s : Disk} {f : Files} {owns : ℕ → Position → Prop} {place : ℕ → Position → ℕ}
  {i j : ℕ} {p q : Position}

theorem dinode_eq (i : ℕ) : dinode i = 1024 + 64 * i := rfl

theorem HasWord.mono {owns' : ℕ → Position → Prop} (h : HasWord owns i p)
    (hle : owns i .indirect → owns' i .indirect) : HasWord owns' i p := by
  cases p with
  | indirect => exact trivial
  | data k => exact h.imp_right fun h => ⟨h.1, hle h.2⟩

/-- An address word lies in its inode or in the inode's indirect block. -/
theorem HasWord.loc_cases (hp : HasWord owns i p) (place : ℕ → Position → ℕ) :
    dinode i + 12 ≤ loc place i p ∧ loc place i p + 4 ≤ dinode i + 64 ∨
      owns i .indirect ∧ 512 * place i .indirect ≤ loc place i p ∧
        loc place i p + 4 ≤ 512 * place i .indirect + 512 := by
  cases p with
  | indirect =>
      have hloc : loc place i .indirect = dinode i + 60 := rfl
      exact .inl ⟨by omega, by omega⟩
  | data k =>
      rw [loc]
      split
      · exact .inl ⟨by omega, by omega⟩
      · rcases hp with hp | ⟨hk, hind⟩
        · omega
        · exact .inr ⟨hind, by omega, by omega⟩

/-- Different positions of one inode have different words. -/
theorem Layout.loc_disjoint_same (h : Layout s f owns place) (hi : i < 200)
    (hp : HasWord owns i p) (hq : HasWord owns i q) (hne : p ≠ q) :
    loc place i p + 4 ≤ loc place i q ∨ loc place i q + 4 ≤ loc place i p := by
  have hdi := dinode_eq i
  have hfar : ∀ k, HasWord owns i (.data k) → ¬ k < 12 → 29 ≤ place i .indirect := by
    intro k hk h12
    exact (h.inRange i _ (hk.resolve_left h12).2).1
  cases p with
  | indirect =>
      cases q with
      | indirect => exact absurd rfl hne
      | data l =>
          have := hfar l hq
          simp only [loc]
          split <;> omega
  | data k =>
      have := hfar k hp
      cases q with
      | indirect =>
          simp only [loc]
          split <;> omega
      | data l =>
          have := hfar l hq
          have hkl : k ≠ l := fun he => hne (by rw [he])
          simp only [loc]
          split <;> split <;> omega

/-- Different positions have different words. -/
theorem Layout.loc_disjoint (h : Layout s f owns place) (hi : i < 200) (hj : j < 200)
    (hp : HasWord owns i p) (hq : HasWord owns j q) (hne : ¬ (j = i ∧ q = p)) :
    loc place i p + 4 ≤ loc place j q ∨ loc place j q + 4 ≤ loc place i p := by
  have hdi := dinode_eq i
  have hdj := dinode_eq j
  by_cases hij : i = j
  · subst hij
    exact h.loc_disjoint_same hi hp hq fun he => hne ⟨rfl, he.symm⟩
  · rcases hp.loc_cases place with ⟨hi1, hi2⟩ | ⟨hoi, hi1, hi2⟩
    · rcases hq.loc_cases place with ⟨hj1, hj2⟩ | ⟨hoj, hj1, hj2⟩
      · omega
      · have := (h.inRange j _ hoj).1
        omega
    · rcases hq.loc_cases place with ⟨hj1, hj2⟩ | ⟨hoj, hj1, hj2⟩
      · have := (h.inRange i _ hoi).1
        omega
      · have : place i .indirect ≠ place j .indirect := fun he => hij (h.inj _ _ _ _ hoi hoj he).1
        omega

/-- An address word is in no data block. -/
theorem Layout.loc_off_block (h : Layout s f owns place) (hi : i < 200) (hp : HasWord owns i p)
    {k : ℕ} (hk : owns j (.data k)) :
    loc place i p + 4 ≤ 512 * place j (.data k) ∨ 512 * place j (.data k) + 512 ≤ loc place i p := by
  have hdi := dinode_eq i
  have hlow := (h.inRange j _ hk).1
  rcases hp.loc_cases place with ⟨h1, h2⟩ | ⟨hind, h1, h2⟩
  · omega
  · have : place i .indirect ≠ place j (.data k) :=
      fun he => nomatch (h.inj _ _ _ _ hind hk he).2
    omega

/-- An address word lies in the inode table behind the first fields of an inode, or in a block
that is in use. -/
theorem Layout.loc_region (h : Layout s f owns place) (hp : HasWord owns i p) :
    dinode i + 12 ≤ loc place i p ∧ loc place i p + 4 ≤ dinode i + 64 ∨
      14848 ≤ loc place i p ∧ loc place i p + 4 ≤ 512 * s.freeblock := by
  rcases hp.loc_cases place with h' | ⟨hind, h1, h2⟩
  · exact .inl h'
  · have := h.inRange i _ hind
    exact .inr ⟨by omega, by omega⟩

/-! ## Reads that a write leaves alone -/

theorem u32_putU32_ofNat {g : ℕ → Byte} {x v : ℕ} (hv : v < 2 ^ 32) :
    (u32 (putU32 g x (BitVec.ofNat 32 v)) x).toNat = v := by
  rw [u32_putU32, BitVec.toNat_ofNat, Nat.mod_eq_of_lt hv]

theorem u32_eq_zero {g : ℕ → Byte} {x : ℕ} (h : ∀ k < 4, g (x + k) = 0) : u32 g x = 0 := by
  have : u32 g x = u32 (fun _ => 0) x := u32_congr fun k hk => h k hk
  rw [this]
  exact (by decide : (0#8 ++ 0#8 ++ 0#8 ++ 0#8 : BitVec 32) = 0)

/-- The fields of the inodes in front of the addresses are unchanged. -/
structure SameHeads (img img' : Image) : Prop where
  head : ∀ i < 200, ∀ k < 12, img' (dinode i + k) = img (dinode i + k)
  super : ∀ x, 512 ≤ x → x < 1024 → img' x = img x

theorem SameHeads.type {img img' : Image} (h : SameHeads img img') (hi : i < 200) :
    inodeType img' i = inodeType img i := by
  have : u16 img' (dinode i) = u16 img (dinode i) := u16_congr fun k hk => h.head i hi k (by omega)
  rw [inodeType, inodeType, this]

theorem SameHeads.nlink {img img' : Image} (h : SameHeads img img') (hi : i < 200) :
    inodeNlink img' i = inodeNlink img i := by
  have : u16 img' (dinode i + 6) = u16 img (dinode i + 6) :=
    u16_congr fun k hk => by rw [Nat.add_assoc]; exact h.head i hi (6 + k) (by omega)
  rw [inodeNlink, inodeNlink, this]

theorem SameHeads.size {img img' : Image} (h : SameHeads img img') (hi : i < 200) :
    inodeSize img' i = inodeSize img i := by
  have : u32 img' (dinode i + 8) = u32 img (dinode i + 8) :=
    u32_congr fun k hk => by rw [Nat.add_assoc]; exact h.head i hi (8 + k) (by omega)
  rw [inodeSize, inodeSize, this]

theorem SameHeads.ninodes {img img' : Image} (h : SameHeads img img') :
    Fscheck.ninodes img' = Fscheck.ninodes img := by
  have : u32 img' 520 = u32 img 520 := u32_congr fun k hk => h.super (520 + k) (by omega) (by omega)
  exact congrArg BitVec.toNat this

/-! ## Taking a block -/

/-- Position `p` of inode `i` gets the first free block. -/
def takeBlock (s : Disk) (place : ℕ → Position → ℕ) (i : ℕ) (p : Position) : Disk :=
  { s.take with img := putU32 s.img (loc place i p) (BitVec.ofNat 32 s.freeblock) }

def ownsToo (owns : ℕ → Position → Prop) (i : ℕ) (p : Position) : ℕ → Position → Prop :=
  fun j q => owns j q ∨ j = i ∧ q = p

def placeToo (s : Disk) (place : ℕ → Position → ℕ) (i : ℕ) (p : Position) : ℕ → Position → ℕ :=
  fun j q => if j = i ∧ q = p then s.freeblock else place j q

theorem placeToo_new : placeToo s place i p i p = s.freeblock := if_pos ⟨rfl, rfl⟩

theorem placeToo_old (h : ¬ (j = i ∧ q = p)) : placeToo s place i p j q = place j q := if_neg h

/-- The words that there were before have not moved. -/
theorem HasWord.loc_placeToo (hq : HasWord owns j q) (hp : ¬ owns i p) : loc (placeToo s place i p) j q = loc place j q := by
  cases q with
  | indirect => rfl
  | data k =>
      simp only [loc]
      split
      · rfl
      · next h12 =>
        have hind := (hq.resolve_left h12).2
        rw [placeToo_old]
        rintro ⟨rfl, rfl⟩
        exact hp hind

/-- A new indirect block is empty. -/
theorem Layout.zero_of_new (h : Layout s f owns place) (hi : i < 200) (hp : ¬ owns i p)
    (hword : HasWord owns i p) (hj : j < 200) (hq : HasWord (ownsToo owns i p) j q)
    (hq' : ¬ HasWord owns j q) (hroom : s.freeblock < 1024) :
    u32 (Mkfs.takeBlock s place i p).img (loc (placeToo s place i p) j q) = 0 := by
  cases q with
  | indirect => exact absurd trivial hq'
  | data k =>
      obtain hk | ⟨hk, hind | ⟨rfl, rfl⟩⟩ := hq
      · exact absurd (.inl hk) hq'
      · exact absurd (.inr ⟨hk, hind⟩) hq'
      · have h12 : ¬ k < 12 := fun hlt => hq' (.inl hlt)
        have hregion := h.loc_region hword
        have hdi := dinode_eq j
        have hlow := h.low
        rw [loc, if_neg h12, placeToo_new]
        refine u32_eq_zero fun x hx => ?_
        refine (putU32_of_not_mem _ _ (by omega)).trans (h.fresh _ (by omega) (by omega))

theorem Layout.takeBlock (h : Layout s f owns place) (hi : i < 200) (hp : ¬ owns i p)
    (hword : HasWord owns i p) (hroom : s.freeblock < 1024)
    (hlen : ∀ k, p = .data k → (f.bytes i).length ≤ 512 * k) :
    Layout (takeBlock s place i p) f (ownsToo owns i p) (placeToo s place i p) := by
  have hlow := h.low
  have hregion := h.loc_region hword
  have hdi := dinode_eq i
  have hmono : ∀ j q, HasWord owns j q → HasWord (ownsToo owns i p) j q :=
    fun j q hq => hq.mono .inl
  have hput : ∀ x, x < loc place i p ∨ loc place i p + 4 ≤ x →
      (Mkfs.takeBlock s place i p).img x = s.img x := fun x hx => putU32_of_not_mem _ _ hx
  have hheads : SameHeads s.img (Mkfs.takeBlock s place i p).img := by
    refine ⟨fun j hj k hk => hput _ ?_, fun x h1 h2 => hput x ?_⟩
    · have := dinode_eq j
      omega
    · omega
  have hold : ∀ j q, owns j q → ¬ (j = i ∧ q = p) := by
    rintro j q hq ⟨rfl, rfl⟩
    exact hp hq
  refine ⟨?_, ?_, ?_, ?_, ?_, ?_, ?_, ?_, ?_, ?_, ?_, ?_, ?_, ?_, ?_, ?_, ?_⟩
  · rintro j q (hq | ⟨rfl, rfl⟩)
    · exact ⟨(h.shape j q hq).1, hmono j q (h.shape j q hq).2⟩
    · exact ⟨hi, hmono j q hword⟩
  · rintro j q (hq | ⟨rfl, rfl⟩)
    · rw [placeToo_old (hold j q hq)]
      have := h.inRange j q hq
      exact ⟨this.1, Nat.lt_succ_of_lt this.2⟩
    · rw [placeToo_new]
      exact ⟨hlow, Nat.lt_succ_self _⟩
  · rintro j q j' q' (hq | ⟨rfl, rfl⟩) (hq' | ⟨rfl, rfl⟩) he
    · rw [placeToo_old (hold j q hq), placeToo_old (hold j' q' hq')] at he
      exact h.inj j q j' q' hq hq' he
    · rw [placeToo_old (hold j q hq), placeToo_new] at he
      exact absurd he (Nat.ne_of_lt (h.inRange j q hq).2)
    · rw [placeToo_old (hold j' q' hq'), placeToo_new] at he
      exact absurd he.symm (Nat.ne_of_lt (h.inRange j' q' hq').2)
    · exact ⟨rfl, rfl⟩
  · intro b hb hlt
    rcases Nat.lt_or_eq_of_le (Nat.le_of_lt_succ hlt) with hlt | rfl
    · obtain ⟨j, q, hq, rfl⟩ := h.onto b hb hlt
      exact ⟨j, q, .inl hq, placeToo_old (hold j q hq)⟩
    · exact ⟨i, p, .inr ⟨rfl, rfl⟩, placeToo_new⟩
  · rintro j q (hq | ⟨rfl, rfl⟩)
    · obtain ⟨hj, hw⟩ := h.shape j q hq
      rw [placeToo_old (hold j q hq), hw.loc_placeToo hp, ← h.word j q hq]
      exact u32_putU32_of_disjoint _ _ (h.loc_disjoint hi hj hword hw (hold j q hq)).symm
    · rw [placeToo_new, hword.loc_placeToo hp]
      exact u32_putU32 _ _ _
  · intro j q hj hno hw
    have hne : ¬ (j = i ∧ q = p) := fun he => hno (.inr he)
    by_cases hw' : HasWord owns j q
    · rw [hw'.loc_placeToo hp, ← h.zero j q hj (fun hq => hno (.inl hq)) hw']
      exact u32_putU32_of_disjoint _ _ (h.loc_disjoint hi hj hword hw' hne).symm
    · exact h.zero_of_new hi hp hword hj hw hw' hroom
  · rintro j k x (hk | ⟨rfl, rfl⟩) hx
    · rw [placeToo_old (hold j _ hk), hput _ (by have := h.loc_off_block hi hword hk; omega)]
      exact h.data j k x hk hx
    · rw [placeToo_new, hput _ (by omega), h.fresh _ (by omega) (by omega),
        List.getD_eq_default _ _ (by have := hlen k rfl; omega)]
  · intro x hx hlt
    have hx' : 512 * (s.freeblock + 1) ≤ x := hx
    rw [hput x (by omega)]
    exact h.fresh x (by omega) hlt
  · exact congrArg (· + 1) h.used
  · exact Nat.le_succ_of_le hlow
  · exact hroom
  · exact fun j hj => (hheads.type hj).trans (h.kind j hj)
  · exact fun j hj hk => (hheads.nlink hj).trans (h.nlink j hj hk)
  · exact fun j hj => (hheads.size hj).trans (h.size j hj)
  · exact hheads.ninodes.trans h.super
  · exact h.next
  · exact h.unborn

/-! ## Writing behind the end -/

def Files.append (f : Files) (i : ℕ) (p : List Byte) : Files :=
  { f with bytes := Function.update f.bytes i (f.bytes i ++ p) }

theorem append_bytes_self (f : Files) (i : ℕ) (p : List Byte) :
    (f.append i p).bytes i = f.bytes i ++ p := Function.update_self i _ _

theorem append_bytes_of_ne (f : Files) (p : List Byte) (h : j ≠ i) :
    (f.append i p).bytes j = f.bytes j := Function.update_of_ne h _ _

/-- `p` is written into block `k` of a file, behind the bytes that the file has. -/
theorem Layout.append (h : Layout s f owns place) {k o : ℕ} {p : List Byte} {img' : Image}
    (hk : owns i (.data k)) (hlen : (f.bytes i).length = 512 * k + o) (ho : o + p.length ≤ 512)
    (hborn : i < f.next)
    (hin : ∀ x < p.length, img' (512 * place i (.data k) + o + x) = p.getD x 0)
    (hout : ∀ x, x < 512 * place i (.data k) + o ∨ 512 * place i (.data k) + o + p.length ≤ x →
      img' x = s.img x) :
    Layout { s with img := img' } (f.append i p) owns place := by
  have hrange := h.inRange i _ hk
  have hoff : ∀ x, x < 512 * place i (.data k) ∨ 512 * place i (.data k) + 512 ≤ x →
      img' x = s.img x := fun x hx => hout x (by omega)
  have hheads : SameHeads s.img img' := by
    refine ⟨fun j hj x hx => hoff _ ?_, fun x h1 h2 => hoff x (by omega)⟩
    have := dinode_eq j
    omega
  have hwords : ∀ j q, j < 200 → HasWord owns j q →
      u32 img' (loc place j q) = u32 s.img (loc place j q) := by
    intro j q hj hq
    refine u32_congr fun x hx => hoff _ ?_
    have := h.loc_off_block hj hq hk
    omega
  refine ⟨h.shape, h.inRange, h.inj, h.onto, ?_, ?_, ?_, ?_, h.used, h.low, h.high, ?_, ?_, ?_, ?_,
    h.next, ?_⟩
  · intro j q hq
    exact (hwords j q (h.shape j q hq).1 (h.shape j q hq).2).trans (h.word j q hq)
  · intro j q hj hno hq
    exact (hwords j q hj hq).trans (h.zero j q hj hno hq)
  · intro j l x hl hx
    have hold := h.data j l x hl hx
    show img' _ = _
    by_cases hj : j = i
    · subst hj
      rw [append_bytes_self]
      by_cases hlk : l = k
      · subst hlk
        by_cases hlo : x < o
        · rw [List.getD_append _ _ _ _ (by omega), ← hold]
          exact hout _ (by omega)
        · rw [List.getD_append_right _ _ _ _ (by omega), hlen]
          by_cases hhi : x < o + p.length
          · have := hin (x - o) (by omega)
            rw [show 512 * place j (.data l) + o + (x - o) = 512 * place j (.data l) + x by omega]
              at this
            rw [show 512 * l + x - (512 * l + o) = x - o by omega]
            exact this
          · rw [List.getD_eq_default _ _ (by omega), hout _ (by omega), hold]
            exact List.getD_eq_default _ _ (by omega)
      · have hne : place j (.data l) ≠ place j (.data k) := fun he => by
          have := (h.inj _ _ _ _ hl hk he).2
          exact hlk (Position.data.inj this)
        rw [hoff _ (by omega), hold]
        by_cases hlt : l < k
        · rw [List.getD_append _ _ _ _ (by omega)]
        · rw [List.getD_append_right _ _ _ _ (by omega),
            List.getD_eq_default (l := p) _ (by omega)]
          exact List.getD_eq_default _ _ (by omega)
    · have hne : place j (.data l) ≠ place i (.data k) := fun he => hj (h.inj _ _ _ _ hl hk he).1
      rw [append_bytes_of_ne f p hj, hoff _ (by omega)]
      exact hold
  · intro x hx hlt
    have hx' : 512 * s.freeblock ≤ x := hx
    exact (hoff x (by omega)).trans (h.fresh x hx hlt)
  · exact fun j hj => (hheads.type hj).trans (h.kind j hj)
  · exact fun j hj hk => (hheads.nlink hj).trans (h.nlink j hj hk)
  · exact fun j hj => (hheads.size hj).trans (h.size j hj)
  · exact hheads.ninodes.trans h.super
  · intro j hj
    have hji : j ≠ i := by
      have hj' : f.next ≤ j := hj
      omega
    obtain ⟨h1, h2, h3⟩ := h.unborn j hj
    exact ⟨h1, (append_bytes_of_ne f p hji).trans h2, h3⟩

/-! ## Sizes and inodes -/

def Files.setSize (f : Files) (i n : ℕ) : Files := { f with size := Function.update f.size i n }

theorem setSize_size_self (f : Files) (i n : ℕ) : (f.setSize i n).size i = n :=
  Function.update_self i _ _

theorem setSize_size_of_ne (f : Files) (n : ℕ) {i j : ℕ} (h : j ≠ i) :
    (f.setSize i n).size j = f.size j := Function.update_of_ne h _ _

theorem Layout.setSize (h : Layout s f owns place) (hi : i < 200) (hborn : i < f.next) {n : ℕ}
    (hn : n < 2 ^ 32) :
    Layout { s with img := putU32 s.img (dinode i + 8) (BitVec.ofNat 32 n) } (f.setSize i n) owns
      place := by
  have hlow := h.low
  have hdi := dinode_eq i
  have hput : ∀ x, x < dinode i + 8 ∨ dinode i + 12 ≤ x →
      putU32 s.img (dinode i + 8) (BitVec.ofNat 32 n) x = s.img x :=
    fun x hx => putU32_of_not_mem _ _ (by omega)
  have hwords : ∀ j q, j < 200 → HasWord owns j q →
      u32 (putU32 s.img (dinode i + 8) (BitVec.ofNat 32 n)) (loc place j q) =
        u32 s.img (loc place j q) := by
    intro j q hj hq
    have hdj := dinode_eq j
    have := h.loc_region hq
    refine u32_putU32_of_disjoint _ _ (by omega)
  have hhalf : ∀ x, x + 2 ≤ dinode i + 8 ∨ dinode i + 12 ≤ x →
      u16 (putU32 s.img (dinode i + 8) (BitVec.ofNat 32 n)) x = u16 s.img x :=
    fun x hx => u16_congr fun k hk => hput _ (by omega)
  refine ⟨h.shape, h.inRange, h.inj, h.onto, ?_, ?_, ?_, ?_, h.used, h.low, h.high, ?_, ?_, ?_, ?_,
    h.next, ?_⟩
  · intro j q hq
    exact (hwords j q (h.shape j q hq).1 (h.shape j q hq).2).trans (h.word j q hq)
  · intro j q hj hno hq
    exact (hwords j q hj hq).trans (h.zero j q hj hno hq)
  · intro j k x hk hx
    have := h.inRange j _ hk
    exact (hput _ (by omega)).trans (h.data j k x hk hx)
  · intro x hx hlt
    have hx' : 512 * s.freeblock ≤ x := hx
    exact (hput x (by omega)).trans (h.fresh x hx hlt)
  · intro j hj
    have hdj := dinode_eq j
    exact (congrArg BitVec.toNat (hhalf (dinode j) (by omega))).trans (h.kind j hj)
  · intro j hj hk
    have hdj := dinode_eq j
    exact (congrArg BitVec.toNat (hhalf (dinode j + 6) (by omega))).trans (h.nlink j hj hk)
  · intro j hj
    have hdj := dinode_eq j
    by_cases hji : j = i
    · subst hji
      exact (u32_putU32_ofNat hn).trans (setSize_size_self f j n).symm
    · refine (congrArg BitVec.toNat (u32_putU32_of_disjoint s.img _ ?_)).trans
        ((h.size j hj).trans (setSize_size_of_ne f n hji).symm)
      omega
  · refine (congrArg BitVec.toNat (u32_putU32_of_disjoint s.img _ ?_)).trans h.super
    show 520 + 4 ≤ dinode i + 8 ∨ dinode i + 8 + 4 ≤ 520
    omega
  · intro j hj
    have hj' : f.next ≤ j := hj
    obtain ⟨h1, h2, h3⟩ := h.unborn j hj'
    exact ⟨h1, h2, (setSize_size_of_ne f n (by omega)).trans h3⟩

/-- An inode of kind `type` is made. -/
def Files.create (f : Files) (type : ℕ) : Files :=
  { f with kind := Function.update f.kind f.next type, next := f.next + 1 }

theorem create_kind_self (f : Files) (type : ℕ) : (f.create type).kind f.next = type :=
  Function.update_self f.next _ _

theorem create_kind_of_ne (f : Files) (type : ℕ) {j : ℕ} (h : j ≠ f.next) :
    (f.create type).kind j = f.kind j := Function.update_of_ne h _ _

/-- The inode that `ialloc` writes. -/
def newInode (type : ℕ) : ℕ → Byte :=
  putU32 (putU16 (putU16 (fun _ => 0) 0 (BitVec.ofNat 16 type)) 6 1) 8 0

theorem newInode_zero {type k : ℕ} (hk : 8 ≤ k) : newInode type k = 0 := by
  unfold newInode putU32
  split
  · next h =>
    have : k = 8 ∨ k = 9 ∨ k = 10 ∨ k = 11 := by omega
    rcases this with rfl | rfl | rfl | rfl <;> rfl
  · rw [putU16_of_not_mem _ _ (by omega), putU16_of_not_mem _ _ (by omega)]

theorem u16_newInode {type : ℕ} (htype : type < 2 ^ 16) :
    (u16 (newInode type) 0).toNat = type ∧ (u16 (newInode type) 6).toNat = 1 := by
  have hfar : ∀ x, x + 2 ≤ 8 → u16 (newInode type) x =
      u16 (putU16 (putU16 (fun _ => 0) 0 (BitVec.ofNat 16 type)) 6 1) x :=
    fun x hx => u16_congr fun k hk => putU32_of_not_mem _ _ (by omega)
  constructor
  · rw [hfar 0 (by omega)]
    have : u16 (putU16 (putU16 (fun _ => 0) 0 (BitVec.ofNat 16 type)) 6 1) 0 =
        u16 (putU16 (fun _ => 0) 0 (BitVec.ofNat 16 type)) 0 :=
      u16_congr fun k hk => putU16_of_not_mem _ _ (by omega)
    rw [this, u16_putU16, BitVec.toNat_ofNat, Nat.mod_eq_of_lt htype]
  · rw [hfar 6 (by omega), u16_putU16]
    rfl

theorem Layout.create (h : Layout s f owns place) {type : ℕ} (hnext : f.next < 200)
    (htype : type < 2 ^ 16) (hno : ∀ p, ¬ owns f.next p) {img' : Image}
    (hin : ∀ k < 64, img' (dinode f.next + k) = newInode type k)
    (hout : ∀ x, x < dinode f.next ∨ dinode f.next + 64 ≤ x → img' x = s.img x) :
    Layout { s with img := img', freeinode := s.freeinode + 1 } (f.create type) owns place := by
  have hlow := h.low
  have hdn := dinode_eq f.next
  have hwords : ∀ j q, j ≠ f.next → HasWord owns j q →
      u32 img' (loc place j q) = u32 s.img (loc place j q) := by
    intro j q hj hq
    have hdj := dinode_eq j
    have := h.loc_region hq
    exact u32_congr fun x hx => hout _ (by omega)
  have hhalf : ∀ j ≠ f.next, ∀ k, k + 2 ≤ 64 → u16 img' (dinode j + k) = u16 s.img (dinode j + k) := by
    intro j hj k hk
    have hdj := dinode_eq j
    exact u16_congr fun x hx => hout _ (by omega)
  have hnew : ∀ k, k + 2 ≤ 64 → u16 img' (dinode f.next + k) = u16 (newInode type) k :=
    fun k hk => u16_congr fun x hx => by rw [Nat.add_assoc]; exact hin (k + x) (by omega)
  obtain ⟨htype', hlink⟩ := u16_newInode htype
  refine ⟨h.shape, h.inRange, h.inj, h.onto, ?_, ?_, ?_, ?_, h.used, h.low, h.high, ?_, ?_, ?_, ?_,
    congrArg (· + 1) h.next, ?_⟩
  · intro j q hq
    have hj : j ≠ f.next := by
      rintro rfl
      exact hno q hq
    exact (hwords j q hj (h.shape j q hq).2).trans (h.word j q hq)
  · intro j q hj hnot hq
    by_cases hjn : j = f.next
    · subst hjn
      refine u32_eq_zero fun x hx => ?_
      have hzero : ∀ k, 8 ≤ k → k < 64 → img' (dinode f.next + k) = 0 :=
        fun k h8 h64 => (hin k h64).trans (newInode_zero h8)
      rcases hq.loc_cases place with ⟨h1, h2⟩ | ⟨hind, -⟩
      · have := hzero (loc place f.next q + x - dinode f.next) (by omega) (by omega)
        rwa [show dinode f.next + (loc place f.next q + x - dinode f.next) =
          loc place f.next q + x by omega] at this
      · exact absurd hind (hno _)
    · exact (hwords j q hjn hq).trans (h.zero j q hj hnot hq)
  · intro j k x hk hx
    have := h.inRange j _ hk
    exact (hout _ (by omega)).trans (h.data j k x hk hx)
  · intro x hx hlt
    have hx' : 512 * s.freeblock ≤ x := hx
    exact (hout x (by omega)).trans (h.fresh x hx hlt)
  · intro j hj
    by_cases hjn : j = f.next
    · subst hjn
      have : u16 img' (dinode f.next) = u16 (newInode type) 0 := hnew 0 (by omega)
      exact (congrArg BitVec.toNat this).trans
        (htype'.trans (create_kind_self f type).symm)
    · exact (congrArg BitVec.toNat (hhalf j hjn 0 (by omega))).trans
        ((h.kind j hj).trans (create_kind_of_ne f type hjn).symm)
  · intro j hj hk
    by_cases hjn : j = f.next
    · subst hjn
      exact (congrArg BitVec.toNat (hnew 6 (by omega))).trans hlink
    · refine (congrArg BitVec.toNat (hhalf j hjn 6 (by omega))).trans (h.nlink j hj ?_)
      rwa [create_kind_of_ne f type hjn] at hk
  · intro j hj
    have hdj := dinode_eq j
    by_cases hjn : j = f.next
    · subst hjn
      have hzero : u32 img' (dinode f.next + 8) = 0 := u32_eq_zero fun x hx => by
        rw [Nat.add_assoc, hin (8 + x) (by omega), newInode_zero (by omega)]
      exact (congrArg BitVec.toNat hzero).trans (h.unborn f.next (Nat.le_refl _)).2.2.symm
    · have : u32 img' (dinode j + 8) = u32 s.img (dinode j + 8) :=
        u32_congr fun x hx => hout _ (by omega)
      exact (congrArg BitVec.toNat this).trans (h.size j hj)
  · have : u32 img' 520 = u32 s.img 520 := u32_congr fun x hx => hout _ (by omega)
    exact (congrArg BitVec.toNat this).trans h.super
  · intro j hj
    have hj' : f.next + 1 ≤ j := hj
    obtain ⟨h1, h2, h3⟩ := h.unborn j (by omega)
    exact ⟨(create_kind_of_ne f type (by omega)).trans h1, h2, h3⟩

end

end IntroToOS.Mkfs

import IntroToOS.CheckedFs.Corruption
import IntroToOS.Lib.Memory

/-! # `exec` of a checked file

Translated from `Project5b/xv6/kernel/exec.c` with `setupkvm`, `allocuvm`, `loaduvm` and `copyout` of
`vm.c`. The file has been found and locked. The local variables `elf` and `ph` hold what was on the
kernel stack before until `readi` has overwritten it, so that this is an argument (`Stack`).

The result of every `readi` is recorded. When the sum `ph.va + ph.memsz` wraps, a segment is loaded
where `allocuvm` has not allocated anything: over pages of the kernel, or, where an entry of the page
table is empty, from address 0 on, where the first page of the caller is. What becomes of the kernel and
of the caller then is not in the source, but decided by where the linker has put its variables. So
`strayed` only records that bytes have been stored there, and the outcome of such a run is `stray`.
-/

namespace IntroToOS.CheckedFs.Exec
open Lib
set_option autoImplicit false

abbrev PGSIZE : ℕ := 4096
abbrev USERTOP : ℕ := 0xA0000
abbrev MAXARG : ℕ := 32

def pages (sz : ℕ) : ℕ := (sz + PGSIZE - 1) / PGSIZE

def PGROUNDUP (sz : ℕ) : ℕ := pages sz * PGSIZE

/-- `a - b` in `uint`. -/
def sub32 (a b : ℕ) : ℕ := (a + (2 ^ 32 - b % 2 ^ 32)) % 2 ^ 32

/-- An `int` that is compared with a `uint`. -/
def toUint (x : ℤ) : ℕ := (x % 2 ^ 32).toNat

/-! ## State -/

/-- The user pages of a page directory. -/
abbrev Image := ℕ → Option (ℕ → Byte)

/-- The calling process; `eip` and `esp` are those of its trap frame. -/
structure Proc where
  pgdir : Image
  sz : ℕ
  name : List Byte
  eip : ℕ
  esp : ℕ

/-- What was at the addresses of `elf` and `ph`. -/
structure Stack where
  elf : ℕ → Byte
  ph : ℕ → Byte

/-- `free` counts the free frames, `pgdir` is the image that is being built. -/
structure Machine where
  fs : Fs
  ip : Inode
  free : ℕ
  pgdir : Image := fun _ => none
  reads : List ℤ := []
  strayed : Bool := false

inductive Stop
  | bad
  | panic
  deriving DecidableEq

abbrev Run (α : Type) := Except (Stop × Machine) α

/-- A call of `readi`. -/
def read (m : Machine) (off n : ℕ) : Run ((ℤ × List Byte) × Machine) :=
  match readi m.fs m.ip off n with
  | .ok (fs, ip, ret, dst) => .ok ((ret, dst), { m with fs, ip, reads := m.reads ++ [ret] })
  | .error e => .error (.panic, { m with fs := e.fs })

/-! ## Headers -/

abbrev ELF_MAGIC : BitVec 32 := 0x464C457F
abbrev ELF_PROG_LOAD : ℕ := 1

structure ElfHdr where
  magic : BitVec 32
  entry : ℕ
  phoff : ℕ
  phnum : ℕ

/-- The fields of a `struct elfhdr`, which has 52 bytes. -/
def elfhdr (mem : ℕ → Byte) : ElfHdr where
  magic := u32 mem 0
  entry := (u32 mem 24).toNat
  phoff := (u32 mem 28).toNat
  phnum := (u16 mem 44).toNat

structure ProgHdr where
  type : ℕ
  offset : ℕ
  va : ℕ
  filesz : ℕ
  memsz : ℕ

/-- The fields of a `struct proghdr`, which has 32 bytes. -/
def proghdr (mem : ℕ → Byte) : ProgHdr where
  type := (u32 mem 0).toNat
  offset := (u32 mem 4).toNat
  va := (u32 mem 8).toNat
  filesz := (u32 mem 16).toNat
  memsz := (u32 mem 20).toNat

/-! ## Address space -/

/-- The page tables of the kernel's part, as indices into the directory. -/
def kmap : List ℕ := List.range 4 ++ List.range' 1016 8

/-- The directory and the page tables take a frame each. When one is missing, the others are lost. -/
def setupkvm (m : Machine) : Run (Unit × Machine) :=
  if m.free < 1 + kmap.length then .error (.bad, { m with free := 0 })
  else .ok ((), { m with free := m.free - (1 + kmap.length), pgdir := fun _ => none })

/-- `n` zeroed pages from page `v` on; `none` when the memory runs out. -/
def growPages : ℕ → ℕ → Machine → Option Machine
  | 0, _, m => some m
  | n + 1, v, m =>
    if m.free = 0 then none
    else growPages n (v + 1)
      { m with free := m.free - 1, pgdir := Function.update m.pgdir v (some fun _ => 0) }

/-- The new size, 0 on error. No page from `PGROUNDUP(oldsz)` on is mapped; what has been allocated
before the memory runs out is given back. -/
def allocuvm (m : Machine) (oldsz newsz : ℕ) : ℕ × Machine :=
  if USERTOP < newsz then (0, m)
  else if newsz < oldsz then (oldsz, m)
  else
    match growPages (pages newsz - pages oldsz) (pages oldsz) m with
    | none => (0, m)
    | some m => (newsz, m)

/-- Where `readi` stores what it delivers for page `v`. -/
def storePage (m : Machine) (v : ℕ) (bytes : List Byte) : Machine :=
  match m.pgdir v with
  | some page => { m with pgdir := Function.update m.pgdir v (some (storeAt page 0 bytes)) }
  | none => { m with strayed := m.strayed || bytes ≠ [] }

/-- The loop of `loaduvm`, over the multiples of `PGSIZE` below `sz`. The page tables of the kernel's
part are there from the beginning. -/
def loadPages (va offset sz : ℕ) : List ℕ → Machine → Run (Unit × Machine)
  | [], m => .ok ((), m)
  | k :: l, m =>
    let i := k * PGSIZE
    let v := (va + i) % 2 ^ 32 / PGSIZE
    if (m.pgdir v).isNone ∧ v / 1024 ∉ kmap then .error (.panic, m)
    else do
      let n := min (sz - i) PGSIZE
      let ((ret, bytes), m) ← read m ((offset + i) % 2 ^ 32) n
      let m := storePage m v bytes
      if toUint ret ≠ n then .error (.bad, m) else loadPages va offset sz l m

def loaduvm (m : Machine) (va offset sz : ℕ) : Run (Unit × Machine) :=
  if va % PGSIZE ≠ 0 then .error (.panic, m)
  else loadPages va offset sz (List.range (pages sz)) m

/-- The loop of `exec` over the `n` program headers from `off` on, with what `ph` holds. -/
def loadSegments : ℕ → ℕ → (ℕ → Byte) → ℕ → Machine → Run (ℕ × Machine)
  | 0, _, _, sz, m => .ok (sz, m)
  | n + 1, off, mem, sz, m => do
    let ((ret, bytes), m) ← read m (off % 2 ^ 32) 32
    let mem := storeAt mem 0 bytes
    let ph := proghdr mem
    if toUint ret ≠ 32 then .error (.bad, m)
    else if ph.type ≠ ELF_PROG_LOAD then loadSegments n (off + 32) mem sz m
    else if ph.memsz < ph.filesz then .error (.bad, m)
    else
      let (sz, m) := allocuvm m sz ((ph.va + ph.memsz) % 2 ^ 32)
      if sz = 0 then .error (.bad, m)
      else do
        let ((), m) ← loaduvm m ph.va ph.offset ph.filesz
        loadSegments n (off + 32) mem sz m

/-! ## The stack -/

/-- Every turn of the loop copies at least one byte. -/
def copyout : ℕ → Image → ℕ → List Byte → Option Image
  | 0, pgdir, _, _ => some pgdir
  | fuel + 1, pgdir, va, p =>
    if p = [] then some pgdir
    else
      match pgdir (va / PGSIZE) with
      | none => none
      | some page =>
        let n := min (PGSIZE - va % PGSIZE) p.length
        copyout fuel (Function.update pgdir (va / PGSIZE)
          (some (storeAt page (va % PGSIZE) (p.take n)))) ((va / PGSIZE + 1) * PGSIZE) (p.drop n)

/-- Push the argument strings; `args` are the addresses of those pushed so far. -/
def pushArgs : List (List Byte) → Image → ℕ → List ℕ → Option (Image × ℕ × List ℕ)
  | [], pgdir, sp, args => some (pgdir, sp, args)
  | arg :: argv, pgdir, sp, args =>
    if MAXARG ≤ args.length then none
    else
      let sp := sub32 sp (arg.length + 1) / 4 * 4
      match copyout (arg.length + 1) pgdir sp (arg ++ [0]) with
      | none => none
      | some pgdir => pushArgs argv pgdir sp (args ++ [sp])

/-- The arguments, a fake return address, `argc` and `argv`. -/
def pushStack (pgdir : Image) (argv : List (List Byte)) (sz : ℕ) : Option (Image × ℕ) :=
  match pushArgs argv pgdir sz [] with
  | none => none
  | some (pgdir, sp, args) =>
    let argc := args.length
    let ustack := [0xffffffff, argc, sub32 sp ((argc + 1) * 4)] ++ args ++ [0]
    let sp := sub32 sp ((3 + argc + 1) * 4)
    (copyout (4 * ustack.length) pgdir sp (ustack.flatMap fun w => le32 (.ofNat 32 w))).map (·, sp)

/-- One page at the next page boundary, with the arguments. -/
def makeStack (argv : List (List Byte)) (sz : ℕ) (m : Machine) :
    Run ((ℕ × ℕ) × Machine) :=
  let (sz, m) := allocuvm m (PGROUNDUP sz) (PGROUNDUP sz + PGSIZE)
  if sz = 0 then .error (.bad, m)
  else
    match pushStack m.pgdir argv sz with
    | none => .error (.bad, m)
    | some (pgdir, sp) => .ok ((sz, sp), { m with pgdir })

/-! ## `exec` -/

/-- What the result depends on besides the file and the old contents of the stack. -/
structure Env where
  proc : Proc
  free : ℕ
  path : List Byte
  argv : List (List Byte)

/-- The part behind the last slash. -/
def lastName (path : List Byte) : List Byte := (path.reverse.takeWhile (· ≠ 47)).reverse

/-- The part of `exec` before the commit. The result of `readi` is compared as a `uint`. -/
def build (argv : List (List Byte)) (stack : Stack) (m : Machine) :
    Run ((ElfHdr × ℕ × ℕ) × Machine) := do
  let ((ret, bytes), m) ← read m 0 52
  let elf := elfhdr (storeAt stack.elf 0 bytes)
  if toUint ret < 52 then .error (.bad, m)
  else if elf.magic ≠ ELF_MAGIC then .error (.bad, m)
  else do
    let ((), m) ← setupkvm m
    let (sz, m) ← loadSegments elf.phnum elf.phoff stack.ph 0 m
    let ((sz, sp), m) ← makeStack argv sz m
    .ok ((elf, sz, sp), m)

inductive Outcome
  | returned (ret : ℤ) (proc : Proc)
  | panic
  | stray

def Machine.outcome (m : Machine) (outcome : Outcome) : Outcome :=
  if m.strayed then .stray else outcome

/-- The outcome, with what the calls of `readi` have returned. -/
def exec (env : Env) (s : Fs) (ip : Inode) (stack : Stack) : Outcome × List ℤ :=
  match build env.argv stack { fs := s, ip, free := env.free } with
  | .ok ((elf, sz, sp), m) =>
    (m.outcome (.returned 0
      { pgdir := m.pgdir, sz, name := (lastName env.path).take 15, eip := elf.entry, esp := sp }),
      m.reads)
  | .error (.bad, m) => (m.outcome (.returned (-1) env.proc), m.reads)
  | .error (.panic, m) => (m.outcome .panic, m.reads)

/-! ## What `readi` delivers -/

section
variable {s t : Fs} {ip jp : Inode} {bn b off n left : ℕ} {ret : ℤ} {dst dst' : List Byte}

theorem bmap_type (h : bmap s ip bn = .ok (t, jp, b)) : jp.type = ip.type := by
  unfold bmap at h
  split at h
  · split at h
    · obtain ⟨⟨_, _⟩, -, h⟩ := bind_eq_ok.mp h
      obtain ⟨-, rfl, -⟩ := by simpa only [Except.ok.injEq, Prod.mk.injEq] using h
      rfl
    · obtain ⟨-, rfl, -⟩ := by simpa only [Except.ok.injEq, Prod.mk.injEq] using h
      rfl
  · split at h
    · obtain ⟨⟨_, iq⟩, hind, h⟩ := bind_eq_ok.mp h
      have hiq : iq.type = ip.type := by
        unfold bmapIndirect at hind
        split at hind
        · obtain ⟨⟨_, _⟩, -, hind⟩ := bind_eq_ok.mp hind
          obtain ⟨-, rfl⟩ := Prod.mk.inj (Except.ok.inj hind)
          rfl
        · obtain ⟨-, rfl⟩ := Prod.mk.inj (Except.ok.inj hind)
          rfl
      simp only at h
      split at h
      · obtain ⟨⟨_, _⟩, -, h⟩ := bind_eq_ok.mp h
        obtain ⟨-, rfl, -⟩ := by simpa only [Except.ok.injEq, Prod.mk.injEq] using h
        exact hiq
      · obtain ⟨-, rfl, -⟩ := by simpa only [Except.ok.injEq, Prod.mk.injEq] using h
        exact hiq
    · cases h

theorem readLoop_delivers {fuel : ℕ} {good : Bool} (hfuel : left ≤ fuel)
    (h : readLoop fuel s ip off left dst = .ok (t, jp, good, dst')) :
    jp.type = ip.type ∧ (good = true → dst'.length = dst.length + left) := by
  induction fuel generalizing s ip off left dst with
  | zero =>
      obtain ⟨-, rfl, rfl, rfl⟩ := by simpa only [readLoop, Except.ok.injEq, Prod.mk.injEq] using h
      exact ⟨rfl, fun _ => by omega⟩
  | succ fuel ih =>
      unfold readLoop at h
      split at h
      · obtain ⟨-, rfl, rfl, rfl⟩ := by simpa only [Except.ok.injEq, Prod.mk.injEq] using h
        exact ⟨rfl, fun _ => by omega⟩
      · next hl =>
        obtain ⟨⟨u, iq, c⟩, hb, h⟩ := bind_eq_ok.mp h
        obtain ⟨good', -, h⟩ := bind_eq_ok.mp h
        have htype := bmap_type hb
        have hpos := chunk_pos off (Nat.pos_of_ne_zero hl)
        have hle := chunk_le off left
        split at h
        · obtain ⟨hkeep, hlen⟩ := ih (by omega) h
          refine ⟨hkeep.trans htype, fun hgood => ?_⟩
          rw [hlen hgood, List.length_append, List.length_map, List.length_range]
          omega
        · obtain ⟨-, rfl, rfl, -⟩ := by simpa only [Except.ok.injEq, Prod.mk.injEq] using h
          exact ⟨htype, fun hgood => Bool.noConfusion hgood⟩

/-- What `readi` says it has delivered, it has. -/
theorem readi_delivers (hc : ip.type = T_CHECKED) (h : readi s ip off n = .ok (t, jp, ret, dst)) :
    jp.type = T_CHECKED ∧ (ret = -1 ∨ ret = dst.length) := by
  by_cases hok : ip.size < off ∨ wraps off n
  · have hdev : ip.type ≠ T_DEV := by
      rw [hc]
      decide
    rw [readi, if_neg hdev, if_pos hok] at h
    obtain ⟨-, rfl, rfl, -⟩ := by simpa only [Except.ok.injEq, Prod.mk.injEq] using h
    exact ⟨hc, .inl rfl⟩
  · rw [readi_checked hc hok] at h
    obtain ⟨⟨u, iq, good, d⟩, hloop, h⟩ := bind_eq_ok.mp h
    obtain ⟨htype, hlen⟩ := readLoop_delivers (Nat.le_refl _) hloop
    dsimp only at h
    split at h
    · next hgood =>
      obtain ⟨-, rfl, rfl, rfl⟩ := by simpa only [Except.ok.injEq, Prod.mk.injEq] using h
      have hd := hlen hgood
      rw [List.length_nil, Nat.zero_add] at hd
      exact ⟨htype.trans hc, .inr (congrArg Nat.cast hd.symm)⟩
    · obtain ⟨-, rfl, rfl, -⟩ := by simpa only [Except.ok.injEq, Prod.mk.injEq] using h
      exact ⟨htype.trans hc, .inl rfl⟩

theorem readi_le (hc : ip.type = T_CHECKED) (h : readi s ip off n = .ok (t, jp, ret, dst)) :
    ret ≤ n := by
  by_cases hok : ip.size < off ∨ wraps off n
  · have hdev : ip.type ≠ T_DEV := by
      rw [hc]
      decide
    rw [readi, if_neg hdev, if_pos hok] at h
    obtain ⟨-, -, rfl, -⟩ := by simpa only [Except.ok.injEq, Prod.mk.injEq] using h
    omega
  · rw [readi_checked hc hok] at h
    obtain ⟨⟨u, iq, good, d⟩, -, h⟩ := bind_eq_ok.mp h
    have hclip : clipRead ip.size off n ≤ n := by
      rw [clipRead, if_neg hok]
      split <;> omega
    dsimp only at h
    split at h
    · obtain ⟨-, -, rfl, -⟩ := by simpa only [Except.ok.injEq, Prod.mk.injEq] using h
      omega
    · obtain ⟨-, -, rfl, -⟩ := by simpa only [Except.ok.injEq, Prod.mk.injEq] using h
      omega

/-- A read from the first block alone. -/
theorem readi_first (hc : ip.type = T_CHECKED) (hsize : 0 < ip.size) (hn : 0 < n) (hmax : n ≤ BSIZE) :
    readi s ip 0 n = (do
      let (t, jp, b) ← bmap s ip 0
      if calculate_checksum (t.block b) BSIZE = CH_GET_CHECKSUM (jp.addrs 0) then
        .ok (t, jp, (min n ip.size : ℕ), (List.range (min n ip.size)).map (t.block b))
      else .ok (t, jp, -1, [])) := by
  have hwraps : ¬ wraps 0 n := Nat.not_lt_zero _
  have hok : ¬ (ip.size < 0 ∨ wraps 0 n) := by
    rintro (hlt | hw)
    · exact Nat.not_lt_zero _ hlt
    · exact hwraps hw
  have hclip : clipRead ip.size 0 n = min n ip.size := by
    rw [clipRead, if_neg hok]
    split <;> omega
  obtain ⟨k, hk⟩ : ∃ k, min n ip.size = k + 1 := ⟨min n ip.size - 1, by omega⟩
  have hle : k + 1 ≤ BSIZE := by omega
  have hchunk : chunk 0 (k + 1) = k + 1 := Nat.min_eq_left hle
  rw [readi_checked hc hok, hclip, hk, readLoop, if_neg (Nat.succ_ne_zero k), Nat.zero_div]
  cases hb : bmap s ip 0 with
  | error e => rfl
  | ok p =>
      obtain ⟨t, jp, b⟩ := p
      have hcheck : checkBlock t jp b 0 =
          .ok (decide (calculate_checksum (t.block b) BSIZE = CH_GET_CHECKSUM (jp.addrs 0))) := by
        rw [checkBlock, if_pos ((bmap_type hb).trans hc)]
        rfl
      simp only [ok_bind, hcheck, hchunk, Nat.sub_self]
      by_cases hsum : calculate_checksum (t.block b) BSIZE = CH_GET_CHECKSUM (jp.addrs 0)
      · have hdone : ∀ d, readLoop k t jp (0 + (k + 1)) 0 d = .ok (t, jp, true, d) := by
          intro d
          cases k <;> rfl
        simp only [hsum, decide_true, if_true, List.nil_append, Nat.zero_mod, Nat.zero_add] at hdone ⊢
        rw [hdone]
        rfl
      · simp only [hsum, decide_false, if_false, Bool.false_eq_true, ok_bind]

end

/-! ## Runs -/

/-- No read has failed so far. -/
structure Good (m : Machine) : Prop where
  checked : m.ip.type = T_CHECKED
  reads : -1 ∉ m.reads

/-- A read has failed only where the run has gone to `bad`. -/
inductive Ends {α : Type} : Run (α × Machine) → Prop
  | ok {a : α} {m : Machine} (h : Good m) : Ends (.ok (a, m))
  | error {stop : Stop} {m : Machine} (h : -1 ∈ m.reads → stop = .bad) : Ends (.error (stop, m))

/-- A part of a run that reads nothing. -/
inductive Quiet {α : Type} : Run (α × Machine) → Prop
  | ok {a : α} {m : Machine} (h : Good m) : Quiet (.ok (a, m))
  | error {stop : Stop} {m : Machine} (h : Good m) : Quiet (.error (stop, m))

section
variable {α β : Type} {m t : Machine} {off n sz : ℕ} {ret : ℤ} {bytes : List Byte}

theorem Quiet.ends {x : Run (α × Machine)} (hx : Quiet x) : Ends x := by
  cases hx with
  | ok h => exact .ok h
  | error h => exact .error fun hin => absurd hin h.reads

theorem Quiet.bind {x : Run (α × Machine)} {f : α × Machine → Run (β × Machine)} (hx : Quiet x)
    (hf : ∀ a t, Good t → Quiet (f (a, t))) : Quiet (x >>= f) := by
  cases hx with
  | error h => exact .error h
  | ok h => exact hf _ _ h

theorem Good.ends_error (h : Good m) (stop : Stop) : Ends (.error (stop, m) : Run (α × Machine)) :=
  .error fun hin => absurd hin h.reads

theorem Ends.bind {x : Run (α × Machine)} {f : α × Machine → Run (β × Machine)} (hx : Ends x)
    (hf : ∀ a t, Good t → Ends (f (a, t))) : Ends (x >>= f) := by
  cases hx with
  | error h => exact .error h
  | ok h => exact hf _ _ h

theorem read_cases (h : m.ip.type = T_CHECKED) (off n : ℕ) :
    (∃ t, read m off n = .error (.panic, t) ∧ t.reads = m.reads) ∨
      ∃ ret bytes t, read m off n = .ok ((ret, bytes), t) ∧ t.ip.type = T_CHECKED ∧
        t.reads = m.reads ++ [ret] ∧ (ret = -1 ∨ ret = bytes.length) := by
  cases hr : readi m.fs m.ip off n with
  | error e => exact .inl ⟨{ m with fs := e.fs }, by rw [read, hr], rfl⟩
  | ok p =>
      obtain ⟨fs, ip, ret, dst⟩ := p
      obtain ⟨htype, hret⟩ := readi_delivers h hr
      exact .inr ⟨ret, dst, { m with fs, ip, reads := m.reads ++ [ret] }, by rw [read, hr], htype, rfl, hret⟩

theorem toUint_natCast_le (k : ℕ) : toUint k ≤ k := by
  unfold toUint
  omega

/-- A failed read is not taken for one that has delivered `n` bytes. -/
theorem delivered_of_toUint (hret : ret = -1 ∨ ret = bytes.length) (hn : toUint ret = n)
    (hmax : n ≤ PGSIZE) : ret ≠ -1 ∧ n ≤ bytes.length := by
  rcases hret with rfl | rfl
  · have hall : toUint (-1) = 2 ^ 32 - 1 := rfl
    have hpage : PGSIZE = 4096 := rfl
    omega
  · refine ⟨by omega, ?_⟩
    rw [← hn]
    exact toUint_natCast_le _

theorem Good.push (h : Good m) (htype : t.ip.type = T_CHECKED) (hreads : t.reads = m.reads ++ [ret])
    (hret : ret ≠ -1) : Good t where
  checked := htype
  reads := by
    rw [hreads]
    intro hin
    rcases List.mem_append.mp hin with hin | hin
    · exact h.reads hin
    · exact hret (List.mem_singleton.mp hin).symm

theorem Ends.read {f : (ℤ × List Byte) × Machine → Run (β × Machine)} (h : Good m) (off n : ℕ)
    (hf : ∀ ret bytes (t : Machine), t.ip.type = T_CHECKED → t.reads = m.reads ++ [ret] →
      (ret = -1 ∨ ret = bytes.length) → Ends (f ((ret, bytes), t))) : Ends (read m off n >>= f) := by
  rcases read_cases h.checked off n with ⟨t, hr, hreads⟩ | ⟨ret, bytes, t, hr, htype, hreads, hret⟩
  · rw [hr]
    refine .error fun hin => ?_
    rw [hreads] at hin
    exact absurd hin h.reads
  · rw [hr]
    exact hf ret bytes t htype hreads hret

theorem growPages_good {v : ℕ} (h : Good m) (hg : growPages n v m = some t) : Good t := by
  induction n generalizing v m with
  | zero =>
      obtain rfl := Option.some.inj hg
      exact h
  | succ n ih =>
      unfold growPages at hg
      split at hg
      · cases hg
      · refine ih ?_ hg
        exact ⟨h.checked, h.reads⟩

theorem allocuvm_good (h : Good m) (oldsz newsz : ℕ) : Good (allocuvm m oldsz newsz).2 := by
  unfold allocuvm
  split
  · exact h
  · split
    · exact h
    · split
      · exact h
      · next hg => exact growPages_good h hg

theorem setupkvm_quiet (h : Good m) : Quiet (setupkvm m) := by
  unfold setupkvm
  split
  · exact .error ⟨h.checked, h.reads⟩
  · exact .ok ⟨h.checked, h.reads⟩

theorem storePage_reads (m : Machine) (v : ℕ) (bytes : List Byte) :
    (storePage m v bytes).reads = m.reads := by
  unfold storePage
  split <;> rfl

theorem storePage_good (h : Good m) (v : ℕ) (bytes : List Byte) : Good (storePage m v bytes) := by
  unfold storePage
  split
  · exact ⟨h.checked, h.reads⟩
  · exact ⟨h.checked, h.reads⟩

theorem loadPages_ends (h : Good m) (va offset sz : ℕ) (l : List ℕ) :
    Ends (loadPages va offset sz l m) := by
  induction l generalizing m with
  | nil => exact .ok h
  | cons k l ih =>
      unfold loadPages
      dsimp only
      split
      · exact h.ends_error _
      · refine Ends.read h _ _ fun ret bytes t htype hreads hret => ?_
        dsimp only
        split
        · exact .error fun _ => rfl
        · next hn =>
          have hmin : min (sz - k * PGSIZE) PGSIZE ≤ PGSIZE := Nat.min_le_right ..
          obtain ⟨hne, -⟩ := delivered_of_toUint hret (Decidable.not_not.mp hn) hmin
          exact ih (storePage_good (h.push htype hreads hne) ..)

theorem loaduvm_ends (h : Good m) (va offset sz : ℕ) : Ends (loaduvm m va offset sz) := by
  unfold loaduvm
  split
  · exact h.ends_error _
  · exact loadPages_ends h va offset sz _

theorem loadSegments_ends (h : Good m) (n off : ℕ) (mem : ℕ → Byte) (sz : ℕ) :
    Ends (loadSegments n off mem sz m) := by
  induction n generalizing off mem sz m with
  | zero => exact .ok h
  | succ n ih =>
      unfold loadSegments
      refine Ends.read h _ _ fun ret bytes t htype hreads hret => ?_
      dsimp only
      split
      · exact .error fun _ => rfl
      · next hn =>
        obtain ⟨hne, -⟩ := delivered_of_toUint hret (Decidable.not_not.mp hn) (by decide)
        have hgood := h.push htype hreads hne
        split
        · exact ih hgood _ _ _
        · split
          · exact hgood.ends_error _
          · have halloc := allocuvm_good hgood sz
              (((proghdr (storeAt mem 0 bytes)).va + (proghdr (storeAt mem 0 bytes)).memsz) % 2 ^ 32)
            split
            · exact halloc.ends_error _
            · exact (loaduvm_ends halloc _ _ _).bind fun _ u hu => ih hu _ _ _

theorem makeStack_quiet (h : Good m) (argv : List (List Byte)) (sz : ℕ) :
    Quiet (makeStack argv sz m) := by
  have halloc := allocuvm_good h (PGROUNDUP sz) (PGROUNDUP sz + PGSIZE)
  unfold makeStack
  generalize allocuvm m (PGROUNDUP sz) (PGROUNDUP sz + PGSIZE) = r at halloc ⊢
  obtain ⟨sz, t⟩ := r
  dsimp only
  split
  · exact .error halloc
  · split
    · exact .error halloc
    · exact .ok ⟨halloc.checked, halloc.reads⟩

end

/-! ## Old contents of the stack -/

section
variable {α β : Type} {m : Machine} {mem mem' : ℕ → Byte} {bytes : List Byte} {sz n off : ℕ}

/-- Below the length of what has been delivered, nothing of the old contents is left. -/
theorem storeAt_old {x : ℕ} (hx : x < bytes.length) : storeAt mem 0 bytes x = storeAt mem' 0 bytes x := by
  have hget := List.getElem?_eq_getElem hx
  have h := storeAt_same mem 0 hget
  have h' := storeAt_same mem' 0 hget
  rw [Nat.zero_add] at h h'
  rw [h, h']

theorem u32_old {x : ℕ} (hx : x + 4 ≤ bytes.length) :
    u32 (storeAt mem 0 bytes) x = u32 (storeAt mem' 0 bytes) x :=
  u32_congr fun k hk => storeAt_old (by omega)

theorem elfhdr_old (mem mem' : ℕ → Byte) (h : 52 ≤ bytes.length) :
    elfhdr (storeAt mem 0 bytes) = elfhdr (storeAt mem' 0 bytes) := by
  have hword : ∀ x, x + 4 ≤ 52 → u32 (storeAt mem 0 bytes) x = u32 (storeAt mem' 0 bytes) x :=
    fun x hx => u32_old (by omega)
  have hhalf : u16 (storeAt mem 0 bytes) 44 = u16 (storeAt mem' 0 bytes) 44 :=
    u16_congr fun k hk => storeAt_old (by omega)
  simp only [elfhdr, hword 0 (by omega), hword 24 (by omega), hword 28 (by omega), hhalf]

theorem proghdr_old (mem mem' : ℕ → Byte) (h : 32 ≤ bytes.length) :
    proghdr (storeAt mem 0 bytes) = proghdr (storeAt mem' 0 bytes) := by
  have hword : ∀ x, x + 4 ≤ 32 → u32 (storeAt mem 0 bytes) x = u32 (storeAt mem' 0 bytes) x :=
    fun x hx => u32_old (by omega)
  simp only [proghdr, hword 0 (by omega), hword 4 (by omega), hword 8 (by omega),
    hword 16 (by omega), hword 20 (by omega)]

theorem Ends.bind_congr {x : Run (α × Machine)} {f g : α × Machine → Run (β × Machine)} (hx : Ends x)
    (hfg : ∀ a t, Good t → f (a, t) = g (a, t)) : (x >>= f) = (x >>= g) := by
  cases hx with
  | error => rfl
  | ok h => exact hfg _ _ h

/-- The loop does not depend on what `ph` holds at first. -/
theorem loadSegments_old (h : Good m) : loadSegments n off mem sz m = loadSegments n off mem' sz m := by
  induction n generalizing off mem mem' sz m with
  | zero => rfl
  | succ n ih =>
      unfold loadSegments
      rcases read_cases h.checked (off % 2 ^ 32) 32 with
        ⟨t, hr, -⟩ | ⟨ret, bytes, t, hr, htype, hreads, hret⟩
      · rw [hr, error_bind, error_bind]
      · rw [hr]
        simp only [ok_bind]
        refine ite_congr rfl (fun _ => rfl) fun hn => ?_
        obtain ⟨hne, hlen⟩ := delivered_of_toUint hret (Decidable.not_not.mp hn) (by decide)
        have hgood := h.push htype hreads hne
        rw [proghdr_old mem mem' hlen]
        generalize proghdr (storeAt mem' 0 bytes) = ph
        refine ite_congr rfl (fun _ => ih hgood) fun _ => ite_congr rfl (fun _ => rfl) fun _ => ?_
        have halloc := allocuvm_good hgood sz ((ph.va + ph.memsz) % 2 ^ 32)
        refine ite_congr rfl (fun _ => rfl) fun _ => ?_
        exact (loaduvm_ends halloc _ _ _).bind_congr fun _ u hu => ih hu

end

end IntroToOS.CheckedFs.Exec

import IntroToOS.Threads.Kernel
import IntroToOS.Lib.Bytes

/-! # The arguments of `clone`

`sys_clone` as the system call finds it: the arguments lie on the user stack, `argptr` checks them
against the size of the caller, and `thread_fork` writes two words to the top of the new stack.
Translated from `Project4b/xv6/kernel/syscall.c` and `proc.c`; addresses are `uint`.
-/

namespace IntroToOS.Threads
open Lib
set_option autoImplicit false

abbrev Word := BitVec 32

def KSTACKSIZE : Word := 4096

/-- The user memory of a process. -/
abbrev Memory := Word → Byte

def Memory.int (mem : Memory) (addr : Word) : Word :=
  mem (addr + 3) ++ mem (addr + 2) ++ mem (addr + 1) ++ mem addr

/-- The registers that `thread_fork` sets. -/
structure Trapframe where
  eax : Word
  eip : Word
  esp : Word
  ebp : Word
  deriving DecidableEq

/-- `thread_t`, as `sys_clone` fills it in. -/
structure ThreadInfo where
  func : Word
  arg : Word
  stack : Word
  deriving DecidableEq

/-! ## Fetching arguments -/

/-- Fetch the int at `addr` of a process of `sz` bytes. -/
def fetchint (sz : ℕ) (mem : Memory) (addr : Word) : Option Word :=
  if sz ≤ addr.toNat ∨ sz < (addr + 4).toNat then none else some (mem.int addr)

/-- Fetch the nth 32-bit system call argument. -/
def argint (sz : ℕ) (mem : Memory) (tf : Trapframe) (n : ℕ) : Option Word :=
  fetchint sz mem (tf.esp + 4 + 4 * BitVec.ofNat 32 n)

/-- Fetch the nth argument as a pointer to a block of memory of `size` bytes. -/
def argptr (sz : ℕ) (mem : Memory) (tf : Trapframe) (n : ℕ) (size : Word) : Option Word :=
  match argint sz mem tf n with
  | none => none
  | some i => if sz ≤ i.toNat ∨ sz < (i + size).toNat then none else some i

/-- The arguments of `sys_clone`; `sizeof(thread_func_t)` is 4 and `sizeof(void)` is 1. -/
def cloneArgs (sz : ℕ) (mem : Memory) (tf : Trapframe) : Option ThreadInfo := do
  let func ← argptr sz mem tf 0 4
  let arg ← argptr sz mem tf 1 1
  let stack ← argptr sz mem tf 2 1
  some ⟨func, arg, stack⟩

/-! ## The new thread -/

/-- A word that the kernel stores in user memory. -/
structure Store where
  addr : Word
  value : Word
  deriving DecidableEq

/-- The trap frame of the thread, and the stores that `thread_fork` makes on the way. -/
def threadFrame (tf : Trapframe) (tinfo : ThreadInfo) : Trapframe × List Store :=
  let tf := { tf with
    eip := tinfo.func, esp := tinfo.stack + KSTACKSIZE, ebp := tinfo.stack + KSTACKSIZE }
  let tf := { tf with esp := tf.esp - 4 }
  let arg : Store := ⟨tf.esp, tinfo.arg⟩
  let tf := { tf with esp := tf.esp - 4 }
  let ret : Store := ⟨tf.esp, 0xffffffff⟩
  ({ tf with eax := 0 }, [arg, ret])

structure Cloned where
  kernel : Kernel
  reply : Reply
  /-- The trap frame of the thread, when there is one. -/
  frame : Option Trapframe := none
  stores : List Store := []

def sys_clone (s : Kernel) (p : ProcId) (kstack : Bool) (mem : Memory) (tf : Trapframe) : Cloned :=
  match cloneArgs (s.proc p).sz mem tf with
  | none => { kernel := s, reply := { ret := some (-1) } }
  | some tinfo =>
    let r := thread_fork s p kstack tinfo.stack.toNat
    match (allocproc s kstack).2 with
    | none => { kernel := r.1, reply := r.2 }
    | some _ =>
      let (frame, stores) := threadFrame tf tinfo
      { kernel := r.1, reply := r.2, frame := some frame, stores }

/-! ## Where the stores go -/

section
variable {s : Kernel} {p : ProcId} {kstack : Bool} {mem : Memory} {tf : Trapframe}
  {tinfo : ThreadInfo} {sz n : ℕ} {size a : Word}

theorem argptr_lt (h : argptr sz mem tf n size = some a) : a.toNat < sz := by
  unfold argptr at h
  cases harg : argint sz mem tf n with
  | none =>
      rw [harg] at h
      cases h
  | some i =>
      simp only [harg] at h
      split at h
      · cases h
      · next hok =>
        obtain rfl := Option.some.inj h
        omega

/-- The stack pointer that the checks let pass lies in the memory of the caller. -/
theorem stack_lt_of_cloneArgs (h : cloneArgs sz mem tf = some tinfo) : tinfo.stack.toNat < sz := by
  obtain ⟨func, -, h⟩ := Option.bind_eq_some_iff.mp h
  obtain ⟨arg, -, h⟩ := Option.bind_eq_some_iff.mp h
  obtain ⟨stack, hstack, h⟩ := Option.bind_eq_some_iff.mp h
  obtain rfl := Option.some.inj h
  exact argptr_lt hstack

/-- All four bytes of the word lie below the size. -/
def Store.Below (w : Store) (sz : ℕ) : Prop :=
  ∀ i < 4, (w.addr + BitVec.ofNat 32 i).toNat < sz

theorem toNat_add_ofNat (a : Word) (i : ℕ) :
    (a + BitVec.ofNat 32 i).toNat = (a.toNat + i) % 2 ^ 32 := by
  rw [BitVec.toNat_add, BitVec.toNat_ofNat, Nat.add_mod_mod]

/-- The two words are the eight bytes at the end of a kernel stack's worth of memory. -/
theorem stores_below_iff (tf : Trapframe) (tinfo : ThreadInfo) (sz : ℕ) :
    (∀ w ∈ (threadFrame tf tinfo).2, w.Below sz) ↔
      ∀ i < 8, (tinfo.stack.toNat + 4088 + i) % 2 ^ 32 < sz := by
  have harg : tinfo.stack + KSTACKSIZE - 4 = tinfo.stack + BitVec.ofNat 32 4092 := by
    rw [KSTACKSIZE, BitVec.sub_eq_add_neg, BitVec.add_assoc]
    rfl
  have hret : tinfo.stack + KSTACKSIZE - 4 - 4 = tinfo.stack + BitVec.ofNat 32 4088 := by
    rw [KSTACKSIZE, BitVec.sub_eq_add_neg, BitVec.sub_eq_add_neg, BitVec.add_assoc,
      BitVec.add_assoc]
    rfl
  have hmem : (∀ w ∈ (threadFrame tf tinfo).2, w.Below sz) ↔
      (Store.mk (tinfo.stack + BitVec.ofNat 32 4092) tinfo.arg).Below sz ∧
        (Store.mk (tinfo.stack + BitVec.ofNat 32 4088) 0xffffffff).Below sz := by
    rw [← harg, ← hret]
    simp [threadFrame]
  rw [hmem]
  simp only [Store.Below, toNat_add_ofNat, Nat.mod_add_mod]
  constructor
  · rintro ⟨h1, h2⟩ i hi
    by_cases hlt : i < 4
    · exact h2 i hlt
    · have := h1 (i - 4) (by omega)
      rwa [show tinfo.stack.toNat + 4092 + (i - 4) = tinfo.stack.toNat + 4088 + i by omega] at this
  · intro h
    refine ⟨fun i hi => ?_, fun i hi => h i (by omega)⟩
    have := h (4 + i) (by omega)
    rwa [show tinfo.stack.toNat + 4088 + (4 + i) = tinfo.stack.toNat + 4092 + i by omega] at this

/-- The new stack reaches to the end of the caller's memory at most, or all of the two words lie
behind the end of the address space, where it starts again. -/
theorem below_iff_room {stack : Word} (hstack : stack.toNat < sz) (hsz : sz < 2 ^ 32) :
    (∀ i < 8, (stack.toNat + 4088 + i) % 2 ^ 32 < sz) ↔
      stack.toNat + KSTACKSIZE.toNat ≤ sz ∨ 2 ^ 32 ≤ stack.toNat + KSTACKSIZE.toNat - 8 := by
  have hk : KSTACKSIZE.toNat = 4096 := rfl
  rw [hk]
  constructor
  · intro h
    by_cases hwrap : 2 ^ 32 ≤ stack.toNat + 4088
    · exact .inr (by omega)
    · -- the last byte before the end of the address space, or the last one of the stack
      by_cases hend : stack.toNat + 4095 < 2 ^ 32
      · have := h 7 (by omega)
        exact .inl (by omega)
      · have := h (2 ^ 32 - 1 - (stack.toNat + 4088)) (by omega)
        omega
  · rintro (h | h) i hi <;> omega

/-- With arguments that `sys_clone` accepts, the words it stores lie below the caller's size if and
only if no thread is made or the new stack has room. -/
theorem clone_stores_below_iff (hsz : (s.proc p).sz < 2 ^ 32)
    (hargs : cloneArgs (s.proc p).sz mem tf = some tinfo) :
    (∀ w ∈ (sys_clone s p kstack mem tf).stores, w.Below (s.proc p).sz) ↔
      (allocproc s kstack).2 = none ∨
        tinfo.stack.toNat + KSTACKSIZE.toNat ≤ (s.proc p).sz ∨
        2 ^ 32 ≤ tinfo.stack.toNat + KSTACKSIZE.toNat - 8 := by
  have hiff := (stores_below_iff tf tinfo (s.proc p).sz).trans
    (below_iff_room (stack_lt_of_cloneArgs hargs) hsz)
  unfold sys_clone
  simp only [hargs]
  cases halloc : (allocproc s kstack).2 with
  | none => simp
  | some q => simpa using hiff

end

/-- A process of four pages, and a stack of arguments in its first page. -/
def fourPages : Kernel := Kernel.setProc {} 0 { state := .RUNNING, pid := 1, sz := 0x4000 }

def callerFrame : Trapframe := ⟨0, 0, 0x100, 0⟩

/-- The third argument is `stack`, the others are 0. -/
def argsMemory (stack : Word) : Memory := fun a =>
  if 0x10c ≤ a ∧ a < 0x110 then stack.extractLsb' (8 * (a - 0x10c).toNat) 8 else 0

/-- The last page as a stack. -/
theorem fourPages_stores_below :
    cloneArgs (fourPages.proc 0).sz (argsMemory 0x3000) callerFrame = some ⟨0, 0, 0x3000⟩ ∧
      ∀ w ∈ (sys_clone fourPages 0 true (argsMemory 0x3000) callerFrame).stores, w.Below 0x4000 := by
  have hargs : cloneArgs (fourPages.proc 0).sz (argsMemory 0x3000) callerFrame =
      some ⟨0, 0, 0x3000⟩ := by decide
  exact ⟨hargs, (clone_stores_below_iff (by decide) hargs).mpr (.inr (.inl (by decide)))⟩

/-- Four bytes further up, the argument is stored behind the end of the caller's memory. -/
theorem fourPages_store_outside :
    cloneArgs (fourPages.proc 0).sz (argsMemory 0x3004) callerFrame = some ⟨0, 0, 0x3004⟩ ∧
      (sys_clone fourPages 0 true (argsMemory 0x3004) callerFrame).stores =
        [⟨0x4000, 0⟩, ⟨0x3ffc, 0xffffffff⟩] ∧
      ¬ ∀ w ∈ (sys_clone fourPages 0 true (argsMemory 0x3004) callerFrame).stores,
        w.Below (fourPages.proc 0).sz := by
  have hstores : (sys_clone fourPages 0 true (argsMemory 0x3004) callerFrame).stores =
      [⟨0x4000, 0⟩, ⟨0x3ffc, 0xffffffff⟩] := by decide
  refine ⟨by decide, hstores, fun h => ?_⟩
  rw [hstores] at h
  have := h ⟨0x4000, 0⟩ (List.mem_cons_self ..) 0 (by decide)
  exact absurd this (by decide)

end IntroToOS.Threads

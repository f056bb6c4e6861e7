import IntroToOS.SharedMemory.Reachable

/-! # Attachments that fail

For a key that nobody has, `attach_pages_to_process` sets `N` before it looks for room, and a failed
`kalloc` leaves the pages it has got. Later `sys_shmdt` of any process finds the key without
references and passes its missing pages to `kfree`.
-/

namespace IntroToOS.SharedMemory
open Lib
set_option autoImplicit false

section
variable {s t : Kernel} {p : ProcId} {key : Key} {n : ℕ} {K : KernelStore}

/-- An attachment that fails for a key that nobody has, sets the number of its pages. -/
theorem attach_crowded (h : Inv s) (hn : n ≤ MAX_SHARED_PAGES_PER_KEY) (hno : ¬ Roomy s p key n) :
    ∃ t, attach_pages_to_process s p key n = .ok (t, -1) ∧ (t.spages key).N = n := by
  unfold Roomy at hno
  push Not at hno
  obtain ⟨h0, hcrowded⟩ := hno
  have hset := KeyStep.of_setN h0 hn
  have hsetN : ((setN s key n).spages key).N = n := by simp [setN, Kernel.setKey]
  unfold attach_pages_to_process
  rw [if_pos h0]
  simp only
  by_cases hroom : NoRoom ((setN s key n).proc p) n
  · exact ⟨_, if_pos hroom, hsetN⟩
  · have hlen : ¬ n ≤ (setN s key n).freelist.length := Nat.not_le.mpr (hcrowded hroom)
    obtain ⟨u, hu, -, -, hN, -, -⟩ := allocShared_spec (s := setN s key n) (n := n) (i := 0)
      (h.rekey hset).goodList hset.refcount hset.bound
    rw [decide_eq_false hlen] at hu
    refine ⟨u, ?_, hN.trans hsetN⟩
    rw [if_neg hroom, hu]

/-- A failed attachment leaves everything as it was exactly when the key has its pages already, or
there is room and memory for them. -/
theorem attach_unchanged_iff (h : Inv s) (hneat : Neat s) (hp : (s.proc p).state = .RUNNABLE)
    (h1 : 1 ≤ n) (hn : n ≤ MAX_SHARED_PAGES_PER_KEY) :
    (∀ t, attach_pages_to_process s p key n = .ok (t, -1) → t = s) ↔ Roomy s p key n := by
  constructor
  · intro hsame
    by_contra hno
    obtain ⟨t, ht, hN⟩ := attach_crowded h hn hno
    have hzero := hneat key (by
      unfold Roomy at hno
      push Not at hno
      exact hno.1)
    rw [hsame t ht] at hN
    omega
  · intro hroomy t ht
    obtain ⟨r, hr, -, hroom⟩ := attach_inv key h hp hn
    obtain rfl : r = (t, -1) := Except.ok.inj (hr.symm.trans ht)
    exact (hroom hroomy).1 rfl

/-- In a run whose attachments all have room and memory when they need them, a failed attachment
changes nothing and no process passes NULL to `kfree`. -/
theorem attach_of_run {kend cpus : ℕ} {initcode : List Byte} (hk : 0 < kend)
    (hboot : boot kend cpus initcode = .ok s)
    (hrun : Run (step K) (fun s a => SafeCall s a.1 a.2 ∧ RoomyStep s a.1 a.2) s t) :
    (∀ p key n, (t.proc p).state = .RUNNABLE → 1 ≤ n → n ≤ MAX_SHARED_PAGES_PER_KEY →
      ((∀ u, attach_pages_to_process t p key n = .ok (u, -1) → u = t) ↔ Roomy t p key n)) ∧
    ∀ p, (t.proc p).state = .RUNNABLE → exit t p ≠ .error .kfree ∧
      ∀ file argv, (∀ f ∈ file, KernelSafe t p f) → exec K t p file argv ≠ .error .kfree := by
  obtain ⟨hinv0, hneat0⟩ := boot_inv hk hboot
  obtain ⟨hinv, hneat⟩ := neat_of_run hinv0 hneat0 hrun
  refine ⟨fun p key n hp h1 hn => attach_unchanged_iff hinv hneat hp h1 hn, fun p hp => ?_⟩
  have hstops : ∀ c, SafeCall t p c → call K t p c ≠ .error .kfree := fun c hc he =>
    ((ends_iff.mp (call_inv hinv hp hc)).2 _ he).2 hneat rfl
  exact ⟨hstops .exit trivial, fun file argv hfile => hstops (.exec file argv) hfile⟩

end

/-- The first process attaches two pages and may then fail to attach them elsewhere. -/
theorem attach_of_first : ∃ s t, boot 277 1 [] = .ok s ∧ (t.spages 0).refcount = 1 ∧
    (∀ p key n, (t.proc p).state = .RUNNABLE → 1 ≤ n → n ≤ MAX_SHARED_PAGES_PER_KEY →
      ((∀ u, attach_pages_to_process t p key n = .ok (u, -1) → u = t) ↔ Roomy t p key n)) ∧
    ∀ p, (t.proc p).state = .RUNNABLE → exit t p ≠ .error .kfree ∧
      ∀ file argv, (∀ f ∈ file, KernelSafe t p f) →
        exec (fun _ _ s => s) t p file argv ≠ .error .kfree := by
  have hrun : (boot 277 1 []).toOption.bind (fun s =>
      (step (fun _ _ s => s) s (0, .shmgetat 0 2)).map fun t =>
        (decide (Roomy s 0 0 2), (t.spages 0).refcount)) = some (true, 1) := by decide +kernel
  obtain ⟨s, hs, hrun⟩ := Option.bind_eq_some_iff.mp hrun
  obtain ⟨t, ht, hrun⟩ := Option.map_eq_some_iff.mp hrun
  obtain ⟨hroomy, href⟩ := Prod.mk.inj hrun
  have hroom : RoomyCall s 0 0 2 := fun k hk _ _ => by
    have hk0 : k = 0 := Fin.ext (Int.natCast_eq_zero.mp hk)
    exact hk0 ▸ of_decide_eq_true hroomy
  exact ⟨s, t, toOption_eq_some.mp hs, href, attach_of_run (by decide) (toOption_eq_some.mp hs)
    (.single (0, .shmgetat 0 2) ⟨trivial, hroom⟩ ht)⟩

/-- A child grows until there is room for two pages only, and asks for three: the call fails, the
table says that the key has three pages, and `exit` of the child panics. -/
theorem failed_attach_panics : ∃ s t u, boot 277 1 [] = .ok s ∧
    play (step fun _ _ s => s) [(0, .fork), (1, .sbrk 0x9d000#32)] s = some t ∧
    attach_pages_to_process t 1 0 3 = .ok (u, -1) ∧ (t.spages 0).N = 0 ∧ (u.spages 0).N = 3 ∧
    u ≠ t ∧ exit u 1 = .error .kfree := by
  have hrun : (boot 277 1 []).toOption.bind (fun s =>
      (play (step fun _ _ s => s) [(0, .fork), (1, .sbrk 0x9d000#32)] s).bind fun t =>
        (attach_pages_to_process t 1 0 3).toOption.map fun r =>
          (r.2, (t.spages 0).N, (r.1.spages 0).N,
            match exit r.1 1 with
            | .ok _ => none
            | .error e => some e)) = some (-1, 0, 3, some .kfree) := by decide +kernel
  obtain ⟨s, hs, hrun⟩ := Option.bind_eq_some_iff.mp hrun
  obtain ⟨t, ht, hrun⟩ := Option.bind_eq_some_iff.mp hrun
  obtain ⟨⟨u, ret⟩, hu, hrun⟩ := Option.map_eq_some_iff.mp hrun
  obtain ⟨hret, hrun⟩ := Prod.mk.inj hrun
  obtain ⟨hN, hrun⟩ := Prod.mk.inj hrun
  obtain ⟨hN', hexit⟩ := Prod.mk.inj hrun
  simp only at hret hN' hexit
  subst hret
  refine ⟨s, t, u, toOption_eq_some.mp hs, ht, toOption_eq_some.mp hu, hN, hN', fun he => ?_, ?_⟩
  · rw [he, hN] at hN'
    exact absurd hN' (by decide)
  · cases he : exit u 1 with
    | ok r =>
        rw [he] at hexit
        cases hexit
    | error e =>
        rw [he] at hexit
        rw [Option.some.inj hexit]

end IntroToOS.SharedMemory

import IntroToOS.Console.Lines
import IntroToOS.Lib.Logs

/-! # The readers of the console

What the readers take, in the order in which they take it, is what has been typed, as the screen shows
it, and a process sleeps only when there is nothing to read (`console_of_run`). In every state the
buffer behaves as the two lists do (`lines_of_run`).
-/

namespace IntroToOS.Console
open Lib
set_option autoImplicit false

variable {T : Type} [DecidableEq T] {s s' : State T} {t u : T} {n : ℤ} {dst : List Byte} {pc : Pc}

/-! ## The readers -/

/-- What a process has copied in its call. -/
def Pc.copied : Pc → List Byte
  | .asleep _ dst | .woken _ dst => dst
  | .out | .enter _ => []

/-- What has been taken for a call that has returned. -/
def Reply.got : Reply → List Byte
  | .copied _ dst | .interrupted _ dst => dst
  | .eof _ => [ctrl 'D']

def gotBy (t : T) (l : List (T × Reply)) : List Byte := (ofProc t l).flatMap Reply.got

theorem gotBy_append {l l' : List (T × Reply)} : gotBy t (l ++ l') = gotBy t l ++ gotBy t l' := by
  rw [gotBy, ofProc_append, List.flatMap_append, ← gotBy, ← gotBy]

theorem gotBy_tag_self {l : List Reply} :
    gotBy t (l.map fun r => (t, r)) = l.flatMap Reply.got := by
  rw [gotBy, ofProc_tag_self]

theorem gotBy_tag_of_ne {l : List Reply} (h : u ≠ t) : gotBy u (l.map fun r => (t, r)) = [] := by
  rw [gotBy, ofProc_tag_of_ne h]
  rfl

def Reply.Good : Reply → Prop
  | .copied n dst => Line n dst
  | .eof n => 0 < n
  | .interrupted n dst => Part n dst

structure ConsoleInv (s : State T) : Prop where
  typed : Typed s
  asleep : ∀ t n dst, s.pc t = .asleep n dst → s.given = []
  copying : ∀ t n dst, s.pc t = .asleep n dst ∨ s.pc t = .woken n dst → Part n dst
  reader : ∀ t, ofProc t s.taken = gotBy t s.replies ++ (s.pc t).copied
  replies : ∀ x ∈ s.replies, x.2.Good

/-- A process that does not make the step is woken at most. -/
def Moved (pc pc' : Pc) : Prop := pc' = pc ∨ ∃ n dst, pc = .asleep n dst ∧ pc' = .woken n dst

theorem Moved.copied {pc pc' : Pc} (h : Moved pc pc') : pc'.copied = pc.copied := by
  rcases h with rfl | ⟨n, dst, rfl, rfl⟩
  · rfl
  · rfl

theorem moved_killPc (pc : Pc) : Moved pc (killPc pc) := by
  cases pc with
  | asleep n dst => exact .inr ⟨n, dst, rfl, rfl⟩
  | _ => exact .inl rfl

theorem killPc_ne_asleep : killPc pc ≠ .asleep n dst := by
  cases pc <;> simp [killPc]

omit [DecidableEq T] in
theorem wakeup_pc (s : State T) (t : T) : s.wakeup.pc t = killPc (s.pc t) := rfl

@[simp] theorem goto_self : (s.goto t pc).pc t = pc := Function.update_self ..

theorem goto_of_ne (h : u ≠ t) : (s.goto t pc).pc u = s.pc u := Function.update_of_ne h ..

/-- A step in which processes are woken at most, and all those that sleep if there is something to
read. -/
theorem ConsoleInv.moves (h : ConsoleInv s) (htyped : Typed s') (htaken : s'.taken = s.taken)
    (hreplies : s'.replies = s.replies) (hpc : ∀ t, Moved (s.pc t) (s'.pc t))
    (hasleep : ∀ t n dst, s'.pc t = .asleep n dst → s'.given = []) : ConsoleInv s' := by
  refine ⟨htyped, hasleep, fun t n dst ht => ?_, fun t => ?_, by rw [hreplies]; exact h.replies⟩
  · rcases hpc t with heq | ⟨m, copied, hold, hnew⟩
    · exact h.copying t n dst (heq ▸ ht)
    · rcases ht with ht | ht
      · cases hnew.symm.trans ht
      · obtain ⟨rfl, rfl⟩ := Pc.woken.inj (hnew.symm.trans ht)
        exact h.copying t m copied (.inl hold)
  · rw [htaken, hreplies, (hpc t).copied]
    exact h.reader t

theorem ConsoleInv.key (h : ConsoleInv s) (c : Byte) : ConsoleInv (key s c) := by
  obtain ⟨htyped, -, hkeeps, hwakes⟩ := key_spec h.typed c
  have hnobody : ∀ t n dst, s.wakeup.pc t ≠ .asleep n dst := by
    intro t n dst
    rw [wakeup_pc]
    exact killPc_ne_asleep
  rcases hwakes with hpc | ⟨hpc, hgiven⟩
  · refine h.moves htyped hkeeps.taken hkeeps.replies (fun t => hpc ▸ moved_killPc (s.pc t)) ?_
    intro t n dst ht
    exact absurd (hpc ▸ ht) (hnobody t n dst)
  · refine h.moves htyped hkeeps.taken hkeeps.replies (fun t => .inl (by rw [hpc])) ?_
    intro t n dst ht
    rw [hgiven]
    exact h.asleep t n dst (hpc ▸ ht)

theorem ConsoleInv.consoleintr (h : ConsoleInv s) (getc : List Byte) :
    ConsoleInv (consoleintr s getc) := by
  induction getc generalizing s with
  | nil => exact h
  | cons c getc ih => exact ih (h.key c)

/-- A step of one process, which takes `l` and returns `rs`. -/
theorem ConsoleInv.turn (h : ConsoleInv s) (l : List Byte) (rs : List Reply)
    (htyped : Typed s') (hothers : ∀ u, u ≠ t → s'.pc u = s.pc u)
    (hgiven : s.given = [] → s'.given = [])
    (hasleep : ∀ n dst, s'.pc t = .asleep n dst → s'.given = [])
    (hcopying : ∀ n dst, s'.pc t = .asleep n dst ∨ s'.pc t = .woken n dst → Part n dst)
    (htaken : s'.taken = s.taken ++ l.map fun c => (t, c))
    (hreplies : s'.replies = s.replies ++ rs.map fun r => (t, r))
    (hgot : (s.pc t).copied ++ l = rs.flatMap Reply.got ++ (s'.pc t).copied)
    (hgood : ∀ r ∈ rs, r.Good) : ConsoleInv s' where
  typed := htyped
  asleep u n dst hu := by
    by_cases hut : u = t
    · subst hut
      exact hasleep n dst hu
    · exact hgiven (h.asleep u n dst ((hothers u hut).symm.trans hu))
  copying u n dst hu := by
    by_cases hut : u = t
    · subst hut
      exact hcopying n dst hu
    · rw [hothers u hut] at hu
      exact h.copying u n dst hu
  reader u := by
    rw [htaken, hreplies, ofProc_append, gotBy_append, h.reader u]
    by_cases hut : u = t
    · subst hut
      rw [ofProc_tag_self, gotBy_tag_self, List.append_assoc, hgot, List.append_assoc]
    · rw [hothers u hut, ofProc_tag_of_ne hut, gotBy_tag_of_ne hut, List.append_nil, List.append_nil]
  replies x hx := by
    rw [hreplies] at hx
    rcases List.mem_append.mp hx with hx | hx
    · exact h.replies x hx
    · obtain ⟨r, hr, rfl⟩ := List.mem_map.mp hx
      exact hgood r hr

/-- A call that returns. -/
theorem ConsoleInv.leave {k : ℕ} {r : Reply} (h : ConsoleInv s) (hk : k ≤ s.waiting)
    (hgot : (s.pc t).copied ++ s.given.take k = r.got) (hgood : r.Good) :
    ConsoleInv ((s.takes t k).leave t r) := by
  have hmine : ((s.takes t k).leave t r).pc t = .out := goto_self
  refine h.turn (t := t) (s.given.take k) [r] ((h.typed.takes (t := t) hk).same rfl rfl rfl rfl)
    (fun u hu => goto_of_ne hu) (fun hnil => ?_) (fun n dst ht => ?_) (fun n dst ht => ?_) rfl rfl
    ?_ fun r' hr => ?_
  · exact (takes_given (t := t) hk).trans (by rw [hnil, List.drop_nil])
  · cases hmine.symm.trans ht
  · rcases ht with ht | ht <;> cases hmine.symm.trans ht
  · rw [hgot, hmine, List.flatMap_singleton]
    exact (List.append_nil _).symm
  · rw [List.mem_singleton.mp hr]
    exact hgood

theorem ConsoleInv.doze {k : ℕ} (h : ConsoleInv s) (hk : k ≤ s.waiting)
    (hgot : (s.pc t).copied ++ s.given.take k = dst) (hrest : s.given.drop k = [])
    (hpart : Part n dst) : ConsoleInv ((s.takes t k).goto t (.asleep n dst)) := by
  have hmine : ((s.takes t k).goto t (.asleep n dst)).pc t = .asleep n dst := goto_self
  have hgiven : (s.takes t k).given = [] := (takes_given hk).trans hrest
  refine h.turn (t := t) (s.given.take k) [] ((h.typed.takes (t := t) hk).same rfl rfl rfl rfl)
    (fun u hu => goto_of_ne hu) (fun _ => hgiven) (fun _ _ _ => hgiven) (fun m d hd => ?_) rfl
    (List.append_nil _).symm ?_ fun r hr => ?_
  · rw [hmine] at hd
    rcases hd with hd | hd
    · obtain ⟨rfl, rfl⟩ := Pc.asleep.inj hd
      exact hpart
    · cases hd
  · rw [hgot, hmine]
    rfl
  · cases hr

/-- How a turn of `consoleread` ends. -/
def Ends (s s' : State T) (t : T) (n : ℤ) : Outcome → Prop
  | .copied dst => s'.pc t = .out ∧ s'.replies = s.replies ++ [(t, .copied n dst)]
  | .eof => s'.pc t = .out ∧ s'.replies = s.replies ++ [(t, .eof n)]
  | .waits dst => if s.killed t then
      s'.pc t = .out ∧ s'.replies = s.replies ++ [(t, .interrupted n dst)]
    else s'.pc t = .asleep n dst ∧ s'.replies = s.replies

/-- One turn of `consoleread`. -/
theorem ConsoleInv.read (h : ConsoleInv s) (hdst : (s.pc t).copied = dst)
    (hfits : (dst.length : ℤ) ≤ max n 0) (hinner : ∀ c ∈ dst, Inner c)
    (hs : s' = consoleread (s.waiting + 1) s t n dst) :
    ConsoleInv s' ∧ s'.lines = ⟨(readLine n dst s.given).2, s.edit⟩ ∧
      Ends s s' t n (readLine n dst s.given).1 := by
  have hfair := readLine_fair n dst s.given hfits hinner
  obtain ⟨hgot, hdrop⟩ := readLine_split n dst s.given
  rw [length_given] at hgot hdrop
  rw [consoleread_eq (Nat.lt_succ_self _)] at hs
  generalize hk : s.waiting - (readLine n dst s.given).2.length = k at hgot hdrop hs
  have hle : k ≤ s.waiting := hk ▸ Nat.sub_le ..
  have hgiven := takes_given (t := t) hle
  rw [hdrop] at hgiven
  have hlines : (s.takes t k).lines = ⟨(readLine n dst s.given).2, s.edit⟩ :=
    congrArg (fun l => Lines.mk l s.edit) hgiven
  cases hout : (readLine n dst s.given).1 with
  | copied d =>
      rw [hout] at hfair hgot hs
      rw [← hdst] at hgot
      subst hs
      exact ⟨h.leave hle hgot hfair.1, hlines, goto_self, rfl⟩
  | eof =>
      rw [hout] at hfair hgot hs
      rw [← hdst] at hgot
      subst hs
      exact ⟨h.leave hle hgot hfair, hlines, goto_self, rfl⟩
  | waits d =>
      rw [hout] at hfair hgot hs
      rw [← hdst] at hgot
      obtain ⟨hpart, hrest⟩ := hfair
      by_cases hkilled : s.killed t = true
      · have hs' : s' = (s.takes t k).leave t (.interrupted n d) := hs.trans (if_pos hkilled)
        subst hs'
        refine ⟨h.leave hle hgot hpart, hlines, ?_⟩
        rw [Ends, if_pos hkilled]
        exact ⟨goto_self, rfl⟩
      · have hs' : s' = (s.takes t k).goto t (.asleep n d) := hs.trans (if_neg hkilled)
        subst hs'
        refine ⟨h.doze hle hgot (hdrop.trans hrest) hpart, hlines, ?_⟩
        rw [Ends, if_neg hkilled]
        exact ⟨goto_self, rfl⟩

/-- A call of `consoleread` in progress, that has copied `dst`. -/
def Reads (s : State T) (t : T) (n : ℤ) (dst : List Byte) : Prop :=
  s.pc t = .enter n ∧ dst = [] ∨ s.pc t = .woken n dst

theorem ConsoleInv.reads (h : ConsoleInv s) (hreads : Reads s t n dst) :
    (s.pc t).copied = dst ∧ (dst.length : ℤ) ≤ max n 0 ∧ ∀ c ∈ dst, Inner c := by
  rcases hreads with ⟨hpc, rfl⟩ | hpc
  · exact ⟨by rw [hpc]; rfl, Int.le_max_right n 0, fun c hc => (by cases hc)⟩
  · have hpart := h.copying t n dst (.inr hpc)
    exact ⟨by rw [hpc]; rfl, hpart.line.fits, hpart.inner⟩

/-! ## Runs -/

theorem step_go (hreads : Reads s t n dst) :
    step s (.go t) = some (consoleread (s.waiting + 1) s t n dst) := by
  rcases hreads with ⟨hpc, rfl⟩ | hpc
  · simp only [step, hpc]
  · simp only [step, hpc]

theorem go_cases (hs : step s (.go t) = some s') : ∃ n dst, Reads s t n dst ∧
    s' = consoleread (s.waiting + 1) s t n dst := by
  simp only [step] at hs
  split at hs
  · next n hpc => exact ⟨n, [], .inl ⟨hpc, rfl⟩, (Option.some.inj hs).symm⟩
  · next n dst hpc => exact ⟨n, dst, .inr hpc, (Option.some.inj hs).symm⟩
  all_goals cases hs

theorem step_console {a : Event T} (h : ConsoleInv s) (hs : step s a = some s') : ConsoleInv s' := by
  cases a with
  | intr getc =>
      obtain rfl := Option.some.inj hs
      exact h.consoleintr getc
  | read t n =>
      obtain ⟨hpc, hs⟩ := Option.ite_none_right_eq_some.mp hs
      obtain rfl := Option.some.inj hs
      have hmine : (s.goto t (.enter n)).pc t = .enter n := goto_self
      refine h.turn (t := t) [] [] (h.typed.same rfl rfl rfl rfl) (fun u hu => goto_of_ne hu)
        (fun hnil => hnil) (fun m d hd => ?_) (fun m d hd => ?_) (List.append_nil _).symm
        (List.append_nil _).symm ?_ fun r hr => ?_
      · cases hmine.symm.trans hd
      · rcases hd with hd | hd <;> cases hmine.symm.trans hd
      · rw [hpc, hmine]
        rfl
      · cases hr
  | go t =>
      obtain ⟨n, dst, hreads, hs'⟩ := go_cases hs
      obtain ⟨hdst, hfits, hinner⟩ := h.reads hreads
      exact (h.read hdst hfits hinner hs').1
  | kill t =>
      obtain rfl := Option.some.inj hs
      have hpc : ∀ u, Moved (s.pc u) ((kill s t).pc u) := by
        intro u
        show Moved _ ((s.goto t (killPc (s.pc t))).pc u)
        by_cases hu : u = t
        · subst hu
          rw [goto_self]
          exact moved_killPc _
        · exact .inl (goto_of_ne hu)
      refine h.moves (h.typed.same rfl rfl rfl rfl) rfl rfl hpc fun u n dst hu => ?_
      rcases hpc u with heq | ⟨m, d, -, hwoken⟩
      · exact h.asleep u n dst (heq ▸ hu)
      · cases hwoken.symm.trans hu

theorem consoleInv_init (buf : ℕ → Byte) : ConsoleInv (State.init buf : State T) := by
  have hwaiting : (State.init buf : State T).waiting = 0 := by
    show ((0 : BitVec 32) - 0).toNat = 0
    decide
  have hediting : (State.init buf : State T).editing = 0 := by
    show ((0 : BitVec 32) - 0).toNat = 0
    decide
  have hgiven : (State.init buf : State T).given = [] := by rw [State.given, hwaiting]; rfl
  have hedit : (State.init buf : State T).edit = [] := by rw [State.edit, hediting]; rfl
  refine ⟨⟨⟨by omega, fun _ => hediting, fun c hc => ?_⟩, by rw [hgiven]; rfl, by rw [hedit]; rfl⟩,
    fun _ _ _ _ => hgiven, fun t n dst ht => ?_, fun t => rfl, fun x hx => ?_⟩
  · rw [hedit] at hc
    cases hc
  · rcases ht with ht | ht <;> cases ht
  · cases hx

variable {buf : ℕ → Byte}

theorem consoleInv_of_run (hrun : Run step (fun _ _ => True) (State.init buf) s) : ConsoleInv s :=
  hrun.invariant (consoleInv_init buf) fun _ _ _ h _ hs => step_console h hs

/-- The buffer with its counters is the two lists: an interrupt edits them as it should, and a turn of
`consoleread` takes what it should. -/
theorem lines_of_run (hrun : Run step (fun _ _ => True) (State.init buf) s) :
    (∀ getc, (consoleintr s getc).lines = getc.foldl Lines.key s.lines) ∧
    ∀ t n dst s', Reads s t n dst → step s (.go t) = some s' →
      s'.lines = ⟨(readLine n dst s.lines.given).2, s.lines.edit⟩ ∧
      Ends s s' t n (readLine n dst s.lines.given).1 ∧
      (readLine n dst s.lines.given).1.Fair n (readLine n dst s.lines.given).2 := by
  have h := consoleInv_of_run hrun
  refine ⟨consoleintr_lines h.typed, fun t n dst s' hreads hs => ?_⟩
  obtain ⟨hdst, hfits, hinner⟩ := h.reads hreads
  have hs' := Option.some.inj (hs.symm.trans (step_go hreads))
  obtain ⟨-, hlines, hends⟩ := h.read hdst hfits hinner hs'
  exact ⟨hlines, hends, readLine_fair n dst s.given hfits hinner⟩

/-- What the readers have taken, in that order, and what has been given to them and not been taken is
what has been typed; with the line that is being edited it is what the screen shows. The processes get
what they take, in lines, and sleep only when there is nothing to take. -/
theorem console_of_run (hrun : Run step (fun _ _ => True) (State.init buf) s) :
    s.history = s.taken.map Prod.snd ++ s.lines.given ∧
    render s.screen = s.history ++ s.lines.edit ∧
    s.lines.given.length + s.lines.edit.length ≤ INPUT_BUF ∧
    (∀ c ∈ s.lines.edit, Inner c) ∧
    (∀ t, ofProc t s.taken = gotBy t s.replies ++ (s.pc t).copied) ∧
    (∀ x ∈ s.replies, x.2.Good) ∧
    ∀ t n dst, s.pc t = .asleep n dst → s.lines.given = [] := by
  have h := consoleInv_of_run hrun
  have hroom : s.given.length + s.edit.length ≤ INPUT_BUF := by
    rw [length_given, length_edit]
    exact h.typed.bounded.room
  exact ⟨h.typed.history, h.typed.screen, hroom, h.typed.bounded.inner, h.reader, h.replies, h.asleep⟩

/-- A reader goes to sleep, a line is typed with a mistake in it, and a second line is begun. -/
def typedLine : List (Event Bool) :=
  [.read false 10, .go false, .intr ([0x61, 0x62, ctrl 'H', 0x63] ++ [carriageReturn, 0x64]),
    .go false, .read true 5]

theorem typedLine_console : ∃ s, play step typedLine (State.init fun _ => 0) = some s ∧
    s.taken.map Prod.snd = [0x61, 0x63, newline] ∧
    s.history = s.taken.map Prod.snd ++ s.lines.given ∧
    render s.screen = s.history ++ s.lines.edit := by
  have hplay : (play step typedLine (State.init fun _ => 0)).map (fun s => s.taken.map Prod.snd) =
      some [0x61, 0x63, newline] := by
    decide +kernel
  obtain ⟨s, hs, htaken⟩ := Option.map_eq_some_iff.mp hplay
  obtain ⟨hhistory, hscreen, -⟩ := console_of_run (.of_play hs)
  exact ⟨s, hs, htaken, hhistory, hscreen⟩

theorem typedLine_lines : ∃ s s', play step typedLine (State.init fun _ => 0) = some s ∧
    Reads s true 5 [] ∧ step s (.go true) = some s' ∧
    s'.lines = ⟨(readLine 5 [] s.lines.given).2, s.lines.edit⟩ := by
  have hplay : (play step typedLine (State.init fun _ => 0)).map
      (fun s => (s.pc true, (step s (.go true)).isSome)) = some (.enter 5, true) := by
    decide +kernel
  obtain ⟨s, hs, hfacts⟩ := Option.map_eq_some_iff.mp hplay
  obtain ⟨hpc, hsome⟩ := Prod.mk.inj hfacts
  obtain ⟨s', hs'⟩ := Option.isSome_iff_exists.mp hsome
  have hreads : Reads s true 5 [] := .inl ⟨hpc, rfl⟩
  exact ⟨s, s', hs, hreads, hs', ((lines_of_run (.of_play hs)).2 true 5 [] s' hreads hs').1⟩

end IntroToOS.Console

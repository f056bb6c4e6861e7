import IntroToOS.Console.Machine

/-! # The console reads lines

Seen from outside, the console is two lists: what has been given to the readers, and the line that is
being edited (`Lines`). The three counters of the buffer, which wrap around, are forgotten: a key edits
the lists (`key_spec`), and the loops of `consoleread` take from the first one (`consoleread_eq`).
-/

namespace IntroToOS.Console
open Lib
set_option autoImplicit false

variable {T : Type} {s s' : State T} {t : T} {c : Byte} {n : ℤ} {dst : List Byte}

/-! ## Lines -/

structure Lines where
  given : List Byte
  edit : List Byte
  deriving DecidableEq

/-- A character of a line that is being edited. -/
def Inner (c : Byte) : Prop := c ≠ newline ∧ c ≠ ctrl 'D'

instance (c : Byte) : Decidable (Inner c) := inferInstanceAs (Decidable (_ ∧ _))

namespace Lines

def key (x : Lines) (c : Byte) : Lines :=
  if c = ctrl 'P' then x
  else if c = ctrl 'U' then { x with edit := [] }
  else if c = ctrl 'H' ∨ c = 0x7f then { x with edit := x.edit.dropLast }
  else if c ≠ 0 ∧ x.given.length + x.edit.length < INPUT_BUF then
    let c := if c = carriageReturn then newline else c
    if ¬ Inner c ∨ x.given.length + x.edit.length + 1 = INPUT_BUF then
      { given := x.given ++ (x.edit ++ [c]), edit := [] }
    else { x with edit := x.edit ++ [c] }
  else x

end Lines

/-- How a turn of `consoleread` ends. -/
inductive Outcome
  | copied (dst : List Byte)
  | eof
  | waits (dst : List Byte)
  deriving DecidableEq

/-- What `consoleread` makes of the characters that it finds, and what it leaves. -/
def readLine (n : ℤ) : List Byte → List Byte → Outcome × List Byte
  | dst, [] => if n ≤ dst.length then (.copied dst, []) else (.waits dst, [])
  | dst, c :: given =>
    if n ≤ dst.length then (.copied dst, c :: given)
    else if c = ctrl 'D' then if dst = [] then (.eof, given) else (.copied dst, c :: given)
    else if c = newline then (.copied (dst ++ [c]), given)
    else readLine n (dst ++ [c]) given

/-- What has been taken for the call. -/
def Outcome.got : Outcome → List Byte
  | .copied dst | .waits dst => dst
  | .eof => [ctrl 'D']

/-- A read takes the first characters. -/
theorem readLine_append (n : ℤ) (dst given : List Byte) :
    (readLine n dst given).1.got ++ (readLine n dst given).2 = dst ++ given := by
  fun_induction readLine n dst given with
  | case1 => rfl
  | case2 => rfl
  | case3 => rfl
  | case4 => rfl
  | case5 => rfl
  | case6 => exact List.append_assoc ..
  | case7 dst c given hn hd hnl ih => rw [ih, List.append_assoc]; rfl

/-- What a read of `n` characters returns. -/
structure Line (n : ℤ) (dst : List Byte) : Prop where
  fits : (dst.length : ℤ) ≤ max n 0
  inner : ∀ c ∈ dst.dropLast, Inner c
  notEof : ctrl 'D' ∉ dst

/-- A read that has not ended. -/
structure Part (n : ℤ) (dst : List Byte) : Prop where
  short : (dst.length : ℤ) < n
  inner : ∀ c ∈ dst, Inner c

theorem Part.line (h : Part n dst) : Line n dst where
  fits := Int.le_trans (Int.le_of_lt h.short) (Int.le_max_left n 0)
  inner c hc := h.inner c (List.dropLast_subset _ hc)
  notEof hd := (h.inner _ hd).2 rfl

theorem line_of_inner (hfits : (dst.length : ℤ) ≤ max n 0) (hinner : ∀ c ∈ dst, Inner c) :
    Line n dst where
  fits := hfits
  inner c hc := hinner c (List.dropLast_subset _ hc)
  notEof hd := (hinner _ hd).2 rfl

/-- How a read ends: short only at the end of a line or in front of `C('D')`, and with nothing at the
end of the file only when it has copied nothing. -/
def Outcome.Fair (n : ℤ) (rest : List Byte) : Outcome → Prop
  | .copied dst => Line n dst ∧
      ((dst.length : ℤ) < n → dst.getLast? = some newline ∨ rest.head? = some (ctrl 'D'))
  | .eof => 0 < n
  | .waits dst => Part n dst ∧ rest = []

theorem readLine_fair (n : ℤ) (dst given : List Byte) (hfits : (dst.length : ℤ) ≤ max n 0)
    (hinner : ∀ c ∈ dst, Inner c) :
    (readLine n dst given).1.Fair n (readLine n dst given).2 := by
  fun_induction readLine n dst given with
  | case1 dst hn => exact ⟨line_of_inner hfits hinner, fun hlt => absurd hlt (by omega)⟩
  | case2 dst hn => exact ⟨⟨by omega, hinner⟩, rfl⟩
  | case3 dst c given hn => exact ⟨line_of_inner hfits hinner, fun hlt => absurd hlt (by omega)⟩
  | case4 given hn =>
      rw [List.length_nil] at hn
      show 0 < n
      omega
  | case5 dst given hn hne => exact ⟨line_of_inner hfits hinner, fun _ => .inr rfl⟩
  | case6 dst given hn hd =>
      refine ⟨⟨?_, fun x hx => ?_, fun hmem => ?_⟩, fun _ => .inl ?_⟩
      · rw [List.length_append, List.length_singleton]
        omega
      · rw [List.dropLast_concat] at hx
        exact hinner x hx
      · rcases List.mem_append.mp hmem with hmem | hmem
        · exact (hinner _ hmem).2 rfl
        · exact absurd (List.mem_singleton.mp hmem) (by decide)
      · rw [List.getLast?_concat]
  | case7 dst c given hn hd hnl ih =>
      refine ih ?_ fun x hx => ?_
      · rw [List.length_append, List.length_singleton]
        omega
      · rcases List.mem_append.mp hx with hx | hx
        · exact hinner x hx
        · rw [List.mem_singleton.mp hx]
          exact ⟨hnl, hd⟩

/-! ## The buffer -/

def State.given (s : State T) : List Byte := Ring.contents INPUT_BUF s.input.buf s.input.r s.waiting

def State.edit (s : State T) : List Byte := Ring.contents INPUT_BUF s.input.buf s.input.w s.editing

def State.lines (s : State T) : Lines := ⟨s.given, s.edit⟩

@[simp] theorem length_given (s : State T) : s.given.length = s.waiting := Ring.length_contents

@[simp] theorem length_edit (s : State T) : s.edit.length = s.editing := Ring.length_contents

theorem w_eq (s : State T) : s.input.w = s.input.r + .ofNat 32 s.waiting := by
  rw [State.waiting, BitVec.ofNat_toNat, BitVec.setWidth_eq, BitVec.add_comm, BitVec.sub_add_cancel]

theorem e_eq (s : State T) : s.input.e = s.input.w + .ofNat 32 s.editing := by
  rw [State.editing, BitVec.ofNat_toNat, BitVec.setWidth_eq, BitVec.add_comm, BitVec.sub_add_cancel]

/-- The distance of two counters. -/
theorem toNat_sub {a b : BitVec 32} {k : ℕ} (h : b = a + .ofNat 32 k) (hk : k < 2 ^ 32) :
    (b - a).toNat = k := by
  rw [h, BitVec.add_comm, BitVec.add_sub_cancel, BitVec.toNat_ofNat, Nat.mod_eq_of_lt hk]

theorem dvd_input : INPUT_BUF ∣ 2 ^ 32 := ⟨2 ^ 25, by decide⟩

/-- What is in the buffer fits, and when it is full it has all been given to the readers. -/
structure Bounded (s : State T) : Prop where
  room : s.waiting + s.editing ≤ INPUT_BUF
  full : s.waiting + s.editing = INPUT_BUF → s.editing = 0
  inner : ∀ c ∈ s.edit, Inner c

theorem total_eq (s : State T) : s.input.e = s.input.r + .ofNat 32 (s.waiting + s.editing) := by
  rw [e_eq s, w_eq s, BitVec.ofNat_add, BitVec.add_assoc]

theorem Bounded.total (h : Bounded s) : (s.input.e - s.input.r).toNat = s.waiting + s.editing := by
  have hsize : INPUT_BUF = 128 := rfl
  have hroom := h.room
  exact toNat_sub (total_eq s) (by omega)

theorem e_ne_w : s.input.e ≠ s.input.w ↔ s.editing ≠ 0 := by
  rw [not_iff_not]
  have hlt : s.editing < 2 ^ 32 := (s.input.e - s.input.w).isLt
  have h := Ring.add_ofNat_eq_self s.input.w hlt
  rwa [← e_eq s] at h

theorem r_eq_w : s.input.r = s.input.w ↔ s.waiting = 0 := by
  have hlt : s.waiting < 2 ^ 32 := (s.input.w - s.input.r).isLt
  have h := Ring.add_ofNat_eq_self s.input.r hlt
  rw [← w_eq s] at h
  exact eq_comm.trans h

/-! ## Editing -/

theorem erase_editing (h : s.editing ≠ 0) : s.erase.editing + 1 = s.editing := by
  obtain ⟨k, hk⟩ := Nat.exists_eq_succ_of_ne_zero h
  have hlt : s.editing < 2 ^ 32 := (s.input.e - s.input.w).isLt
  have he : s.input.e - 1 = s.input.w + .ofNat 32 k := by
    rw [e_eq s, hk, ← Ring.add_succ, BitVec.add_sub_cancel]
  rw [hk, show s.erase.editing = k from toNat_sub he (by omega)]

theorem erase_edit (h : s.editing ≠ 0) : s.erase.edit = s.edit.dropLast := by
  have hk := erase_editing h
  rw [State.edit, State.edit, ← hk]
  exact Ring.contents_dropLast

/-- The character that `C('U')` looks at is the last one of the line. -/
theorem last_of_edit (h : s.editing ≠ 0) :
    s.input.buf (Ring.cell INPUT_BUF (s.input.e - 1)) ∈ s.edit := by
  have hk := erase_editing h
  have he : s.input.e - 1 = s.input.w + .ofNat 32 s.erase.editing := e_eq s.erase
  rw [State.edit, ← hk, Ring.contents_concat, he]
  exact List.mem_concat_self

theorem put_editing (h : s.editing < INPUT_BUF) : (s.put c).editing = s.editing + 1 := by
  have hsize : INPUT_BUF = 128 := rfl
  refine toNat_sub ?_ (by omega)
  show s.input.e + 1 = s.input.w + _
  rw [← Ring.add_succ, ← e_eq s]

theorem put_edit (h : s.editing < INPUT_BUF) : (s.put c).edit = s.edit ++ [c] := by
  have hpush := Ring.contents_push s.input.buf s.input.w c dvd_input h
  rw [← e_eq s] at hpush
  rw [State.edit, put_editing h]
  exact hpush

theorem put_given (h : s.waiting + s.editing < INPUT_BUF) : (s.put c).given = s.given := by
  have hupdate := Ring.contents_update s.input.buf s.input.r c (n := s.waiting)
    dvd_input (Nat.le_add_right s.waiting s.editing) h
  rw [← total_eq s] at hupdate
  exact hupdate

theorem commit_editing (s : State T) : s.commit.editing = 0 := by
  show (s.input.e - s.input.e).toNat = 0
  rw [BitVec.sub_self]
  rfl

theorem commit_edit (s : State T) : s.commit.edit = [] := by
  rw [State.edit, commit_editing]
  rfl

theorem commit_given (h : (s.input.e - s.input.r).toNat = s.waiting + s.editing) :
    s.commit.given = s.given ++ s.edit := by
  have happend := Ring.contents_append (N := INPUT_BUF) s.input.buf s.input.r s.waiting
    s.editing
  rw [← w_eq s] at happend
  rw [State.given, show s.commit.waiting = s.waiting + s.editing from h]
  exact happend

/-- What the screen shows. -/
def render (screen : List (Option Byte)) : List Byte :=
  screen.foldl (fun l o => o.elim l.dropLast fun c => l ++ [c]) []

theorem render_erase (screen : List (Option Byte)) :
    render (screen ++ [none]) = (render screen).dropLast := by
  rw [render, List.foldl_append]
  rfl

theorem render_put (screen : List (Option Byte)) :
    render (screen ++ [some c]) = render screen ++ [c] := by
  rw [render, List.foldl_append]
  rfl

/-- What a key leaves alone. -/
structure Keeps (s s' : State T) : Prop where
  taken : s'.taken = s.taken
  replies : s'.replies = s.replies

/-- The characters of the buffer, those that have been given and the screen belong together. -/
structure Typed (s : State T) : Prop where
  bounded : Bounded s
  history : s.history = s.taken.map Prod.snd ++ s.given
  screen : render s.screen = s.history ++ s.edit

theorem Typed.same (h : Typed s) (hinput : s'.input = s.input) (hscreen : s'.screen = s.screen)
    (hhistory : s'.history = s.history) (htaken : s'.taken = s.taken) : Typed s' := by
  have hgiven : s'.given = s.given := by rw [State.given, State.waiting, hinput]; rfl
  have hedit : s'.edit = s.edit := by rw [State.edit, State.editing, hinput]; rfl
  refine ⟨⟨?_, ?_, by rw [hedit]; exact h.bounded.inner⟩, ?_, ?_⟩
  · rw [State.waiting, State.editing, hinput]
    exact h.bounded.room
  · rw [State.waiting, State.editing, hinput]
    exact h.bounded.full
  · rw [hhistory, htaken, hgiven, h.history]
  · rw [hscreen, hhistory, hedit, h.screen]

theorem Typed.erase (h : Typed s) (hne : s.editing ≠ 0) : Typed s.erase where
  bounded := by
    have hk := erase_editing hne
    have hroom := h.bounded.room
    have hwaiting : s.erase.waiting = s.waiting := rfl
    refine ⟨by omega, fun hfull => by omega, fun c hc => ?_⟩
    rw [erase_edit hne] at hc
    exact h.bounded.inner c (List.dropLast_subset _ hc)
  history := h.history
  screen := by
    have hedit : s.edit ≠ [] := by
      intro hnil
      exact hne (by rw [← length_edit, hnil]; rfl)
    show render (s.screen ++ [none]) = s.history ++ s.erase.edit
    rw [render_erase, h.screen, erase_edit hne, List.dropLast_append_of_ne_nil hedit]

/-- `C('U')` erases the line. -/
theorem killLine_typed (h : Typed s) :
    ∀ k, s.editing = k → Typed (killLine k s) ∧ (killLine k s).lines = ⟨s.given, []⟩ ∧
      (killLine k s).pc = s.pc ∧ Keeps s (killLine k s) := by
  intro k hk
  induction k generalizing s with
  | zero =>
      refine ⟨h, ?_, rfl, rfl, rfl⟩
      rw [killLine, State.lines, State.edit, hk]
      rfl
  | succ k ih =>
      have hne : s.editing ≠ 0 := by omega
      have hinner := (h.bounded.inner _ (last_of_edit hne)).1
      rw [killLine, if_pos ⟨e_ne_w.mpr hne, hinner⟩]
      have hstep := erase_editing hne
      obtain ⟨htyped, hlines, hpc, hkeeps⟩ := ih (h.erase hne) (by omega)
      exact ⟨htyped, hlines, hpc, hkeeps.taken, hkeeps.replies⟩

/-- A character that ends the line, or fills the buffer, is given with the line. -/
theorem Typed.commit (h : Typed s) (hroom : s.waiting + s.editing < INPUT_BUF) :
    Typed (s.put c).commit.wakeup ∧
      (s.put c).commit.wakeup.lines = ⟨s.given ++ (s.edit ++ [c]), []⟩ := by
  have hediting : (s.put c).editing = s.editing + 1 := put_editing (by omega)
  have hedit : (s.put c).edit = s.edit ++ [c] := put_edit (by omega)
  have hgiven : (s.put c).given = s.given := put_given hroom
  have hwaiting : (s.put c).waiting = s.waiting := rfl
  have htotal : ((s.put c).input.e - (s.put c).input.r).toNat =
      (s.put c).waiting + (s.put c).editing := by
    have hsize : INPUT_BUF = 128 := rfl
    exact toNat_sub (total_eq (s.put c)) (by omega)
  have hgiven' := commit_given htotal
  rw [hgiven, hedit] at hgiven'
  have hedit' := commit_edit (s.put c)
  refine ⟨⟨⟨?_, fun _ => commit_editing _, fun x hx => ?_⟩, ?_, ?_⟩, ?_⟩
  · show (s.put c).commit.waiting + (s.put c).commit.editing ≤ INPUT_BUF
    rw [commit_editing, show (s.put c).commit.waiting = _ from htotal]
    omega
  · have hmem : x ∈ (s.put c).commit.edit := hx
    rw [hedit'] at hmem
    cases hmem
  · show s.history ++ (s.put c).edit = s.taken.map Prod.snd ++ (s.put c).commit.given
    rw [hgiven', hedit, h.history, List.append_assoc]
  · show render (s.screen ++ [some c]) = s.history ++ (s.put c).edit ++ (s.put c).commit.edit
    rw [render_put, h.screen, hedit, hedit', List.append_nil, List.append_assoc]
  · show Lines.mk (s.put c).commit.given (s.put c).commit.edit = _
    rw [hgiven', hedit']

theorem Typed.put (h : Typed s) (hroom : s.waiting + s.editing + 1 < INPUT_BUF) (hc : Inner c) :
    Typed (s.put c) ∧ (s.put c).lines = ⟨s.given, s.edit ++ [c]⟩ := by
  have hediting : (s.put c).editing = s.editing + 1 := put_editing (by omega)
  have hedit : (s.put c).edit = s.edit ++ [c] := put_edit (by omega)
  have hgiven : (s.put c).given = s.given := put_given (by omega)
  have hwaiting : (s.put c).waiting = s.waiting := rfl
  refine ⟨⟨⟨by omega, fun hfull => by omega, fun x hx => ?_⟩, ?_, ?_⟩, ?_⟩
  · rw [hedit] at hx
    rcases List.mem_append.mp hx with hx | hx
    · exact h.bounded.inner x hx
    · rw [List.mem_singleton.mp hx]
      exact hc
  · rw [hgiven]
    exact h.history
  · show render (s.screen ++ [some c]) = s.history ++ (s.put c).edit
    rw [render_put, h.screen, hedit, List.append_assoc]
  · rw [State.lines, hgiven, hedit]

theorem ended_iff (hroom : s.waiting + s.editing < INPUT_BUF) :
    ended (s.put c) c = true ↔ ¬ Inner c ∨ s.waiting + s.editing + 1 = INPUT_BUF := by
  have hsize : INPUT_BUF = 128 := rfl
  have hfull : (s.put c).input.e = (s.put c).input.r + .ofNat 32 INPUT_BUF ↔
      s.waiting + s.editing + 1 = INPUT_BUF := by
    have he := total_eq (s.put c)
    rw [put_editing (by omega), show (s.put c).waiting = s.waiting from rfl] at he
    rw [he, Ring.add_ofNat_inj (by omega) (by omega)]
    rw [Nat.add_assoc]
  rw [ended, decide_eq_true_eq, hfull, ← or_assoc, Inner, not_and_or, not_ne_iff, not_ne_iff]

/-! ## Keys -/

/-- A line that is given wakes the readers. -/
def Wakes (s s' : State T) : Prop :=
  s'.pc = s.wakeup.pc ∨ s'.pc = s.pc ∧ s'.given = s.given

/-- A key does to the buffer what it does to the lines. -/
theorem key_spec (h : Typed s) (c : Byte) :
    Typed (key s c) ∧ (key s c).lines = s.lines.key c ∧ Keeps s (key s c) ∧ Wakes s (key s c) := by
  have hsize : INPUT_BUF = 128 := rfl
  have hlengths : s.lines.given.length + s.lines.edit.length = s.waiting + s.editing := by
    show s.given.length + s.edit.length = _
    rw [length_given, length_edit]
  unfold key Lines.key
  by_cases hp : c = ctrl 'P'
  · rw [if_pos hp, if_pos hp]
    exact ⟨h, rfl, ⟨rfl, rfl⟩, .inr ⟨rfl, rfl⟩⟩
  rw [if_neg hp, if_neg hp]
  by_cases hu : c = ctrl 'U'
  · rw [if_pos hu, if_pos hu]
    obtain ⟨htyped, hlines, hpc, hkeeps⟩ := killLine_typed h s.editing rfl
    exact ⟨htyped, hlines, hkeeps, .inr ⟨hpc, congrArg Lines.given hlines⟩⟩
  rw [if_neg hu, if_neg hu]
  by_cases hh : c = ctrl 'H' ∨ c = 0x7f
  · rw [if_pos hh, if_pos hh]
    by_cases hne : s.editing = 0
    · have hnil : s.edit = [] := List.length_eq_zero_iff.mp ((length_edit s).trans hne)
      rw [if_neg fun hew => e_ne_w.mp hew hne]
      refine ⟨h, ?_, ⟨rfl, rfl⟩, .inr ⟨rfl, rfl⟩⟩
      show Lines.mk s.given s.edit = ⟨s.given, s.edit.dropLast⟩
      rw [hnil]
      rfl
    · rw [if_pos (e_ne_w.mpr hne)]
      exact ⟨h.erase hne, congrArg (Lines.mk s.given) (erase_edit hne), ⟨rfl, rfl⟩,
        .inr ⟨rfl, rfl⟩⟩
  rw [if_neg hh, if_neg hh, h.bounded.total, hlengths]
  by_cases hroom : c ≠ 0 ∧ s.waiting + s.editing < INPUT_BUF
  · rw [if_pos hroom, if_pos hroom]
    dsimp only
    generalize (if c = carriageReturn then newline else c) = d
    by_cases hend : ¬ Inner d ∨ s.waiting + s.editing + 1 = INPUT_BUF
    · rw [if_pos ((ended_iff hroom.2).mpr hend), if_pos hend]
      obtain ⟨htyped, hlines⟩ := h.commit (c := d) hroom.2
      exact ⟨htyped, hlines, ⟨rfl, rfl⟩, .inl rfl⟩
    · rw [if_neg fun hended => hend ((ended_iff hroom.2).mp hended), if_neg hend]
      rw [not_or, not_not] at hend
      obtain ⟨htyped, hlines⟩ := h.put (c := d) (by omega) hend.1
      exact ⟨htyped, hlines, ⟨rfl, rfl⟩, .inr ⟨rfl, congrArg Lines.given hlines⟩⟩
  · rw [if_neg hroom, if_neg hroom]
    exact ⟨h, rfl, ⟨rfl, rfl⟩, .inr ⟨rfl, rfl⟩⟩

/-- All the characters of an interrupt. -/
theorem consoleintr_lines (h : Typed s) (getc : List Byte) :
    (consoleintr s getc).lines = getc.foldl Lines.key s.lines := by
  induction getc generalizing s with
  | nil => rfl
  | cons c getc ih =>
      obtain ⟨htyped, hlines, -⟩ := key_spec h c
      show (Console.consoleintr (Console.key s c) getc).lines = getc.foldl Lines.key (s.lines.key c)
      rw [ih htyped, hlines]

/-! ## Reading -/

/-- The first `k` characters are taken. -/
def State.takes (s : State T) (t : T) (k : ℕ) : State T :=
  { s with
    input := { s.input with r := s.input.r + .ofNat 32 k }
    taken := s.taken ++ (s.given.take k).map fun c => (t, c) }

theorem takes_zero (t : T) : s.takes t 0 = s := by
  have hr : s.input.r + BitVec.ofNat 32 0 = s.input.r := BitVec.add_zero _
  rw [State.takes, hr, List.take_zero, List.map_nil, List.append_nil]

theorem take_waiting (t : T) (h : s.waiting ≠ 0) : (s.take t).waiting + 1 = s.waiting := by
  obtain ⟨k, hk⟩ := Nat.exists_eq_succ_of_ne_zero h
  have hlt : s.waiting < 2 ^ 32 := (s.input.w - s.input.r).isLt
  have hw : s.input.w = s.input.r + 1 + .ofNat 32 k := by rw [Ring.succ_add, w_eq s, hk]
  rw [hk, show (s.take t).waiting = k from toNat_sub hw (by omega)]

/-- The character that is taken is the first one. -/
theorem given_eq_cons (t : T) (h : s.waiting ≠ 0) :
    s.given = s.input.buf (Ring.cell INPUT_BUF s.input.r) :: (s.take t).given := by
  rw [State.given, ← take_waiting t h, Ring.contents_cons]
  rfl

theorem take_takes (t : T) (h : s.waiting ≠ 0) (k : ℕ) :
    (s.take t).takes t k = s.takes t (k + 1) := by
  have hr : s.input.r + 1 + BitVec.ofNat 32 k = s.input.r + .ofNat 32 (k + 1) := Ring.succ_add
  have htaken : (s.take t).taken ++ ((s.take t).given.take k).map (fun c => (t, c)) =
      s.taken ++ (s.given.take (k + 1)).map fun c => (t, c) := by
    rw [given_eq_cons t h, List.take_succ_cons, List.map_cons, List.append_cons]
    rfl
  rw [State.takes, State.takes, ← hr, ← htaken]
  rfl

theorem take_eq (t : T) (h : s.waiting ≠ 0) : s.take t = s.takes t 1 := by
  rw [← take_takes t h, takes_zero]

theorem readLine_length (n : ℤ) (dst given : List Byte) :
    (readLine n dst given).2.length ≤ given.length := by
  fun_induction readLine n dst given with
  | case7 dst c given hn hd hnl ih => exact Nat.le_succ_of_le ih
  | _ => simp

/-- What is taken, and what is left. -/
theorem readLine_split (n : ℤ) (dst given : List Byte) :
    dst ++ given.take (given.length - (readLine n dst given).2.length) =
      (readLine n dst given).1.got ∧
    given.drop (given.length - (readLine n dst given).2.length) = (readLine n dst given).2 := by
  have happend := readLine_append n dst given
  have hle := readLine_length n dst given
  generalize hk : given.length - (readLine n dst given).2.length = k
  have hsplit : (readLine n dst given).1.got ++ (readLine n dst given).2 =
      (dst ++ given.take k) ++ given.drop k := by
    rw [happend, List.append_assoc, List.take_append_drop]
  obtain ⟨hgot, hrest⟩ := List.append_inj' hsplit (by rw [List.length_drop]; omega)
  exact ⟨hgot.symm, hrest.symm⟩

theorem takes_given {k : ℕ} (hk : k ≤ s.waiting) : (s.takes t k).given = s.given.drop k := by
  obtain ⟨m, hm⟩ := Nat.exists_eq_add_of_le hk
  have hlt : s.waiting < 2 ^ 32 := (s.input.w - s.input.r).isLt
  have hw : s.input.w = s.input.r + .ofNat 32 k + .ofNat 32 m := by
    rw [BitVec.add_assoc, ← BitVec.ofNat_add, ← hm, ← w_eq s]
  have hwaiting : (s.takes t k).waiting = m := toNat_sub hw (by omega)
  rw [State.given, hwaiting, State.given, hm, Ring.contents_append,
    List.drop_left' Ring.length_contents]
  rfl

theorem Typed.takes (h : Typed s) {k : ℕ} (hk : k ≤ s.waiting) : Typed (s.takes t k) := by
  have hgiven := takes_given (t := t) hk
  have hwaiting : (s.takes t k).waiting = s.waiting - k := by
    rw [← length_given (s.takes t k), hgiven, List.length_drop, length_given]
  have hediting : (s.takes t k).editing = s.editing := rfl
  have hroom := h.bounded.room
  have hfull := h.bounded.full
  refine ⟨⟨by omega, fun heq => ?_, h.bounded.inner⟩, ?_, h.screen⟩
  · rw [hediting]
    exact hfull (by omega)
  · show s.history = (s.taken ++ (s.given.take k).map fun c => (t, c)).map Prod.snd ++
      (s.takes t k).given
    rw [hgiven, List.map_append, List.map_map, h.history, List.append_assoc]
    congr 1
    show s.given = (s.given.take k).map id ++ s.given.drop k
    rw [List.map_id, List.take_append_drop]

variable [DecidableEq T]

/-- The end of a turn of `consoleread`. -/
def conclude (s : State T) (t : T) (n : ℤ) : Outcome → State T
  | .copied dst => s.leave t (.copied n dst)
  | .eof => s.leave t (.eof n)
  | .waits dst =>
    if s.killed t then s.leave t (.interrupted n dst) else s.goto t (.asleep n dst)

/-- The loops of `consoleread` are `readLine`. -/
theorem consoleread_eq {fuel : ℕ} (hfuel : s.waiting < fuel) : consoleread fuel s t n dst =
    conclude (s.takes t (s.waiting - (readLine n dst s.given).2.length)) t n
      (readLine n dst s.given).1 := by
  induction fuel generalizing s dst with
  | zero => exact absurd hfuel (Nat.not_lt_zero _)
  | succ fuel ih =>
      rw [consoleread]
      by_cases hn : n ≤ dst.length
      · have hread : readLine n dst s.given = (.copied dst, s.given) := by
          cases s.given <;> simp [readLine, hn]
        rw [if_pos hn, hread, length_given, Nat.sub_self, takes_zero]
        rfl
      rw [if_neg hn]
      by_cases hempty : s.waiting = 0
      · have hnil : s.given = [] := List.length_eq_zero_iff.mp ((length_given s).trans hempty)
        have hread : readLine n dst s.given = (.waits dst, []) := by
          rw [hnil, readLine, if_neg hn]
        rw [if_pos (r_eq_w.mpr hempty), hread, hempty]
        show _ = conclude (s.takes t 0) t n (.waits dst)
        rw [takes_zero]
        rfl
      rw [if_neg fun hrw => hempty (r_eq_w.mp hrw)]
      have hcons := given_eq_cons t hempty
      have hwaiting := take_waiting t hempty
      have hlength := length_given (s.take t)
      generalize s.input.buf (Ring.cell INPUT_BUF s.input.r) = c at hcons ⊢
      have hone : s.waiting - (s.take t).given.length = 1 := by omega
      have hall : s.waiting - (c :: (s.take t).given).length = 0 := by
        rw [List.length_cons]
        omega
      dsimp only
      by_cases hd : c = ctrl 'D'
      · rw [if_pos hd]
        by_cases hdst : dst = []
        · have hread : readLine n dst s.given = (.eof, (s.take t).given) := by
            rw [hcons, readLine, if_neg hn, if_pos hd, if_pos hdst]
          rw [if_pos hdst, hread, hone, ← take_eq t hempty]
          rfl
        · have hread : readLine n dst s.given = (.copied dst, c :: (s.take t).given) := by
            rw [hcons, readLine, if_neg hn, if_pos hd, if_neg hdst]
          rw [if_neg hdst, hread, hall, takes_zero]
          rfl
      rw [if_neg hd]
      by_cases hnl : c = newline
      · have hread : readLine n dst s.given = (.copied (dst ++ [c]), (s.take t).given) := by
          rw [hcons, readLine, if_neg hn, if_neg hd, if_pos hnl]
        rw [if_pos hnl, hread, hone, ← take_eq t hempty]
        rfl
      · have hread : readLine n dst s.given = readLine n (dst ++ [c]) (s.take t).given := by
          rw [hcons, readLine, if_neg hn, if_neg hd, if_neg hnl]
        have hrest := readLine_length n (dst ++ [c]) (s.take t).given
        rw [if_neg hnl, ih (by omega), take_takes t hempty, hread]
        congr 2
        omega

end IntroToOS.Console

import IntroToOS.Lib.Lines
import IntroToOS.Shell.Command

/-! # The lines the shell reads

Translated from `read_line` and `main` of `Project2a/mysh.c`, for an input without a zero byte, so
that the string that `fgets` stores is what it has read. An event is a string that is passed to
`process_line`, which comes back, or an input that is rejected.

The shell and its children share the offset of the input. A child that `execvp` does not start leaves
through `exit`, and `exit` closes the input, which moves the offset when the input is seekable.
-/

namespace IntroToOS.Shell
open Lib
set_option autoImplicit false

def STDIN_SIZE : ℕ := 1000

inductive Event
  | pass (input : Str)
  | reject (input : Str)

/-- What the source does not decide: how much each read delivers, which commands `execvp` starts and
which of these touch the input, and where a read finds the offset after a child has moved it. -/
structure World where
  chunk : ℕ → ℕ
  starts : List Str → Bool
  touches : List Str → Bool
  seekable : Bool
  offset : ℕ → ℕ

/-- The command moves the offset of the input. -/
def World.moves (w : World) (args : List Str) : Bool :=
  if w.starts args then w.touches args else w.seekable

/-- The stream the shell reads from; `reads` counts its reads of the input. -/
structure Infile where
  offset : ℕ := 0
  buffer : Str := []
  eof : Bool := false
  reads : ℕ := 0
  moved : Bool := false

/-- The input is read when the buffer is empty, and no more after its end has been seen. -/
def refill (w : World) (file : Str) (f : Infile) : Infile :=
  if f.buffer ≠ [] ∨ f.eof then f
  else
    let offset := if f.moved then w.offset f.reads else f.offset
    let bytes := (file.drop offset).take (w.chunk f.reads + 1)
    { f with offset := offset + bytes.length, buffer := bytes, eof := bytes = [], reads := f.reads + 1 }

/-- `fgets(s, n + 1, infile)` reads up to a newline, or `n` bytes. -/
def fgets (w : World) (file : Str) : ℕ → Infile → Str × Infile
  | 0, f => ([], f)
  | n + 1, f =>
    let f := refill w file f
    match f.buffer with
    | [] => ([], f)
    | c :: buffer =>
      if c = 10 then ([c], { f with buffer })
      else (c :: (fgets w file n { f with buffer }).1, (fgets w file n { f with buffer }).2)

/-- The stream after a line has been processed. -/
def process (w : World) (input : Str) (f : Infile) : Infile :=
  { f with moved := f.moved || (child input).any w.moves }

/-- The loop of `main`. The last byte that `fgets` has stored is taken for a newline. -/
def mainLoop (w : World) (file : Str) : ℕ → Infile → Option (List Event)
  | 0, _ => none
  | fuel + 1, f =>
    let s := (fgets w file (STDIN_SIZE - 1) f).1
    let f := (fgets w file (STDIN_SIZE - 1) f).2
    let input := s.dropLast
    if s = [] then some []
    else if 512 < input.length then (mainLoop w file fuel f).map (.reject s :: ·)
    else if exits input then some [.pass input]
    else (mainLoop w file fuel (process w input f)).map (.pass input :: ·)

/-- The shell ends after these events. -/
def Shows (w : World) (file : Str) (f : Infile) (events : List Event) : Prop :=
  ∃ fuel, mainLoop w file fuel f = some events

/-! ## What is asked of the shell -/

/-- A line without its newline, which the last line may lack. -/
def content (line : Str) : Str := if line.getLast? = some 10 then line.dropLast else line

/-- Every line of at most 512 bytes is passed on, every other one is rejected as a whole. -/
def wanted : List Str → List Event
  | [] => []
  | line :: rest =>
    if 512 < (content line).length then .reject line :: wanted rest
    else .pass (content line) :: if exits (content line) then [] else wanted rest

/-- The lines up to the first that ends the shell. -/
def upToExit : List Str → List Str
  | [] => []
  | line :: rest =>
    line :: if (content line).length ≤ 512 ∧ exits (content line) then [] else upToExit rest

/-- A line ends in a newline and fits the array, or it is a last line that is too long in any case. -/
def Readable (line : Str) : Prop :=
  line.length < STDIN_SIZE ∧ (line.getLast? = some 10 ∨ 514 ≤ line.length)

instance (line : Str) : Decidable (Readable line) := by
  unfold Readable
  infer_instance

/-- The child of the line, if there is one, leaves the offset of the input alone. -/
def Leaves (w : World) (line : Str) : Prop := ∀ args ∈ child (content line), w.moves args = false

section
variable {w : World} {file s line : Str} {f g : Infile} {n : ℕ} {events : List Event}
  {rest : List Str}

/-! ## What a call of `fgets` takes -/

/-- No child has moved the offset, and `s` is still to be taken from the stream. -/
structure Ahead (file : Str) (f : Infile) (s : Str) : Prop where
  still : f.moved = false
  rest : f.buffer ++ file.drop f.offset = s
  eof : f.eof → file.drop f.offset = []

theorem Ahead.start (file : Str) : Ahead file {} file := ⟨rfl, rfl, fun h => nomatch h⟩

theorem Ahead.refill (h : Ahead file f s) (w : World) : Ahead file (refill w file f) s := by
  unfold Shell.refill
  by_cases hread : f.buffer ≠ [] ∨ f.eof
  · rw [if_pos hread]
    exact h
  obtain ⟨hbuffer, -⟩ := not_or.mp hread
  have hrest := h.rest
  rw [not_not.mp hbuffer, List.nil_append] at hrest
  rw [if_neg hread, h.still, if_neg Bool.false_ne_true]
  dsimp only
  rw [hrest]
  have hlater : file.drop (f.offset + (s.take (w.chunk f.reads + 1)).length) =
      s.drop (w.chunk f.reads + 1) := by
    rw [← List.drop_drop, hrest, List.length_take]
    exact List.drop_eq_drop_min.symm
  refine ⟨rfl, ?_, fun heof => ?_⟩
  · dsimp only
    rw [hlater, List.take_append_drop]
  · have hnil : s.take (w.chunk f.reads + 1) = [] := of_decide_eq_true heof
    obtain hzero | hs := List.take_eq_nil_iff.mp hnil
    · cases hzero
    · dsimp only
      rw [hlater, hs, List.drop_nil]

/-- A buffer that stays empty has nothing behind it. -/
theorem Ahead.eq_nil (h : Ahead file f s) (w : World) (hempty : (Shell.refill w file f).buffer = []) :
    s = [] := by
  have hrest := (h.refill w).rest
  rw [hempty, List.nil_append] at hrest
  rw [← hrest]
  apply (h.refill w).eof
  unfold Shell.refill at hempty ⊢
  by_cases hread : f.buffer ≠ [] ∨ f.eof
  · rw [if_pos hread] at hempty ⊢
    exact hread.resolve_left fun h => h hempty
  · rw [if_neg hread] at hempty ⊢
    exact decide_eq_true hempty

/-- As long as no child has moved the offset, `fgets` takes the next piece of the input. -/
theorem fgets_spec (w : World) (n : ℕ) (h : Ahead file f s) :
    ∃ g, fgets w file n f = (cut 10 n s, g) ∧ Ahead file g (s.drop (cut 10 n s).length) := by
  induction n generalizing f s with
  | zero => exact ⟨f, rfl, h⟩
  | succ n ih =>
      have hfill := h.refill w
      rw [fgets]
      cases hbuffer : (refill w file f).buffer with
      | nil =>
          obtain rfl := h.eq_nil w hbuffer
          exact ⟨_, rfl, hfill⟩
      | cons c buffer =>
          have hs : s = c :: (buffer ++ file.drop (refill w file f).offset) := by
            rw [← hfill.rest, hbuffer, List.cons_append]
          have hnext : Ahead file { refill w file f with buffer }
              (buffer ++ file.drop (refill w file f).offset) := ⟨hfill.still, rfl, hfill.eof⟩
          rw [hs, cut]
          dsimp only
          by_cases hc : c = 10
          · rw [if_pos hc, if_pos hc]
            exact ⟨_, rfl, hnext⟩
          · rw [if_neg hc, if_neg hc]
            obtain ⟨g, hg, hahead⟩ := ih hnext
            rw [hg]
            exact ⟨g, rfl, hahead⟩

/-! ## One turn of the loop -/

theorem mainLoop_succ (fuel : ℕ) (hg : fgets w file (STDIN_SIZE - 1) f = (s, g)) (hne : s ≠ []) :
    mainLoop w file (fuel + 1) f =
      if 512 < s.dropLast.length then (mainLoop w file fuel g).map (.reject s :: ·)
      else if exits s.dropLast then some [.pass s.dropLast]
      else (mainLoop w file fuel (process w s.dropLast g)).map (.pass s.dropLast :: ·) := by
  rw [mainLoop, hg]
  exact if_neg hne

theorem shows_iff_succ : Shows w file f events ↔ ∃ fuel, mainLoop w file (fuel + 1) f = some events := by
  constructor
  · rintro ⟨fuel, h⟩
    cases fuel with
    | zero => cases h
    | succ fuel => exact ⟨fuel, h⟩
  · rintro ⟨fuel, h⟩
    exact ⟨fuel + 1, h⟩

/-- An event comes first, and then what the stream shows afterwards. -/
theorem shows_cons (e : Event) (g : Infile) :
    (∃ fuel, (mainLoop w file fuel g).map (e :: ·) = some events) ↔
      ∃ later, events = e :: later ∧ Shows w file g later := by
  constructor
  · rintro ⟨fuel, h⟩
    obtain ⟨later, hlater, he⟩ := Option.map_eq_some_iff.mp h
    exact ⟨later, he.symm, fuel, hlater⟩
  · rintro ⟨later, rfl, fuel, hlater⟩
    exact ⟨fuel, Option.map_eq_some_iff.mpr ⟨later, hlater, rfl⟩⟩

theorem shows_nil (hg : fgets w file (STDIN_SIZE - 1) f = ([], g)) :
    Shows w file f events ↔ events = [] := by
  simp only [shows_iff_succ, mainLoop, hg, if_pos, Option.some.injEq, exists_const]
  exact eq_comm

theorem shows_reject (hg : fgets w file (STDIN_SIZE - 1) f = (s, g)) (hlong : 512 < s.dropLast.length) :
    Shows w file f events ↔ ∃ later, events = .reject s :: later ∧ Shows w file g later := by
  have hne : s ≠ [] := by
    rintro rfl
    cases hlong
  rw [shows_iff_succ]
  simp only [mainLoop_succ _ hg hne, if_pos hlong]
  exact shows_cons _ _

theorem shows_exit (hg : fgets w file (STDIN_SIZE - 1) f = (s, g)) (hne : s ≠ [])
    (hshort : ¬ 512 < s.dropLast.length) (hexit : exits s.dropLast) :
    Shows w file f events ↔ events = [.pass s.dropLast] := by
  simp only [shows_iff_succ, mainLoop_succ _ hg hne, if_neg hshort, if_pos hexit]
  simp [eq_comm]

theorem shows_pass (hg : fgets w file (STDIN_SIZE - 1) f = (s, g)) (hne : s ≠ [])
    (hshort : ¬ 512 < s.dropLast.length) (hexit : ¬ exits s.dropLast) :
    Shows w file f events ↔
      ∃ later, events = .pass s.dropLast :: later ∧ Shows w file (process w s.dropLast g) later := by
  rw [shows_iff_succ]
  simp only [mainLoop_succ _ hg hne, if_neg hshort, if_neg hexit]
  exact shows_cons _ _

/-- A line whose child leaves the offset alone leaves the stream alone. -/
theorem process_eq (hleaves : Leaves w line) (g : Infile) : process w (content line) g = g := by
  have hstill : (child (content line)).any w.moves = false := by
    cases hchild : child (content line) with
    | none => rfl
    | some args => exact hleaves args hchild
  rw [process, hstill, Bool.or_false]

/-- A line that one call reads and that ends in a newline. -/
theorem shows_newline_iff (hg : fgets w file (STDIN_SIZE - 1) f = (line, g))
    (hnl : line.getLast? = some 10) (hleaves : Leaves w line) :
    Shows w file f (wanted (line :: rest)) ↔
      (¬ ((content line).length ≤ 512 ∧ exits (content line)) → Shows w file g (wanted rest)) := by
  have hcontent : content line = line.dropLast := if_pos hnl
  have hne : line ≠ [] := by
    rintro rfl
    cases hnl
  have hprocess := process_eq hleaves g
  rw [wanted]
  rw [hcontent] at hprocess ⊢
  by_cases hlong : 512 < line.dropLast.length
  · have hstay : ¬ (line.dropLast.length ≤ 512 ∧ exits line.dropLast) := fun h => by omega
    rw [if_pos hlong, shows_reject hg hlong, imp_iff_right hstay]
    simp
  have hle : line.dropLast.length ≤ 512 := Nat.le_of_not_lt hlong
  rw [if_neg hlong]
  by_cases hexit : exits line.dropLast
  · rw [if_pos hexit, shows_exit hg hne hlong hexit]
    exact iff_of_true rfl fun h => absurd ⟨hle, hexit⟩ h
  · have hstay : ¬ (line.dropLast.length ≤ 512 ∧ exits line.dropLast) := fun h => hexit h.2
    rw [if_neg hexit, shows_pass hg hne hlong hexit, hprocess, imp_iff_right hstay]
    simp

/-- A last line that is too long in any case is rejected, though it lacks the newline. -/
theorem shows_overlong_iff (hg : fgets w file (STDIN_SIZE - 1) f = (line, g))
    (hnl : line.getLast? ≠ some 10) (hlong : 514 ≤ line.length) :
    Shows w file f (wanted (line :: rest)) ↔ Shows w file g (wanted rest) := by
  have hcontent : content line = line := if_neg hnl
  have hdrop : line.dropLast.length = line.length - 1 := List.length_dropLast
  rw [wanted, hcontent, if_pos (by omega), shows_reject hg (by omega)]
  simp

/-- A last line of at most 513 bytes loses its last byte. -/
theorem not_shows_unfinished (hg : fgets w file (STDIN_SIZE - 1) f = (line, g)) (hne : line ≠ [])
    (hnl : line.getLast? ≠ some 10) (hlen : line.length < 514) :
    ¬ Shows w file f (wanted (line :: rest)) := by
  have hpos := List.length_pos_iff.mpr hne
  have hcontent : content line = line := if_neg hnl
  have hdrop : line.dropLast.length = line.length - 1 := List.length_dropLast
  have hshort : ¬ 512 < line.dropLast.length := by omega
  have hfirst : ∀ later, wanted (line :: rest) ≠ .pass line.dropLast :: later := by
    intro later he
    rw [wanted, hcontent] at he
    split at he
    · cases he
    · have hevent := (List.cons.inj he).1
      rw [Event.pass.injEq] at hevent
      rw [← hevent] at hdrop
      omega
  by_cases hexit : exits line.dropLast
  · rw [shows_exit hg hne hshort hexit]
    exact hfirst []
  · rw [shows_pass hg hne hshort hexit]
    rintro ⟨later, he, -⟩
    exact hfirst later he

/-- The first piece of a line that does not fit is rejected, and not the line. -/
theorem not_shows_pieces (hg : fgets w file (STDIN_SIZE - 1) f = (line.take (STDIN_SIZE - 1), g))
    (hlong : STDIN_SIZE ≤ line.length) : ¬ Shows w file f (wanted (line :: rest)) := by
  have hsize : STDIN_SIZE = 1000 := rfl
  have htake : (line.take (STDIN_SIZE - 1)).length = 999 := by
    rw [List.length_take]
    omega
  have hcontent : line.length - 1 ≤ (content line).length := by
    unfold content
    split
    · exact Nat.le_of_eq List.length_dropLast.symm
    · exact Nat.sub_le ..
  rw [wanted, if_pos (by omega), shows_reject hg (by rw [List.length_dropLast]; omega)]
  rintro ⟨later, he, -⟩
  have hevent := (List.cons.inj he).1
  rw [Event.reject.injEq] at hevent
  rw [← hevent] at htake
  omega

/-- What `main` passes on from here, when the input still holds `s`. -/
theorem shows_wanted_iff (h : Ahead file f s) (hleaves : ∀ line ∈ upToExit (lines 10 s), Leaves w line) :
    Shows w file f (wanted (lines 10 s)) ↔ ∀ line ∈ upToExit (lines 10 s), Readable line := by
  obtain ⟨len, hlen⟩ : ∃ len, s.length = len := ⟨_, rfl⟩
  induction len using Nat.strongRecOn generalizing s f with
  | ind len ih =>
      obtain ⟨g, hg, hnext⟩ := fgets_spec w (STDIN_SIZE - 1) h
      by_cases hs : s = []
      · subst hs
        rw [cut_nil] at hg
        rw [lines_nil, shows_nil hg]
        exact iff_of_true rfl fun _ h => nomatch h
      have hspos := List.length_pos_iff.mpr hs
      rw [cut_eq_take_line] at hg hnext
      rw [lines_of_ne_nil hs] at hleaves ⊢
      have hne : cut 10 s.length s ≠ [] := cut_ne_nil 10 hspos hs
      have hle := length_cut_le_length (10 : Byte) s.length s
      generalize cut 10 s.length s = line at *
      have hpos := List.length_pos_iff.mpr hne
      by_cases hshort : line.length < STDIN_SIZE
      · rw [List.take_of_length_le (by omega)] at hg hnext
        have hfirst : Leaves w line := hleaves line (by simp [upToExit])
        rw [upToExit, List.forall_mem_cons] at hleaves ⊢
        have hlater : ¬ ((content line).length ≤ 512 ∧ exits (content line)) →
            (Shows w file g (wanted (lines 10 (s.drop line.length))) ↔
              ∀ l ∈ upToExit (lines 10 (s.drop line.length)), Readable l) := by
          intro hexit
          rw [if_neg hexit] at hleaves
          refine ih _ ?_ hnext hleaves.2 rfl
          rw [List.length_drop]
          omega
        by_cases hnl : line.getLast? = some 10
        · have hread : Readable line := ⟨hshort, .inl hnl⟩
          rw [shows_newline_iff hg hnl hfirst, and_iff_right hread]
          by_cases hexit : (content line).length ≤ 512 ∧ exits (content line)
          · rw [if_pos hexit]
            exact iff_of_true (fun h => absurd hexit h) fun _ h => nomatch h
          · rw [if_neg hexit, imp_iff_right hexit]
            exact hlater hexit
        by_cases hlong : 514 ≤ line.length
        · have hread : Readable line := ⟨hshort, .inr hlong⟩
          have hexit : ¬ ((content line).length ≤ 512 ∧ exits (content line)) := by
            rw [show content line = line from if_neg hnl]
            omega
          rw [shows_overlong_iff hg hnl hlong, and_iff_right hread, if_neg hexit]
          exact hlater hexit
        · refine iff_of_false (not_shows_unfinished hg hne hnl (by omega)) fun h => ?_
          exact h.1.2.elim hnl hlong
      · refine iff_of_false (not_shows_pieces hg (Nat.le_of_not_lt hshort)) fun h => ?_
        exact hshort (h line (by simp [upToExit])).1

/-- The strings that `main` passes on are the lines of its input, and the longer lines are rejected
as a whole, just when every line up to the exit is readable. The children of these lines leave the
offset of the input alone. -/
theorem main_eq_wanted_iff (w : World) (file : Str)
    (hleaves : ∀ line ∈ upToExit (lines 10 file), Leaves w line) :
    Shows w file {} (wanted (lines 10 file)) ↔ ∀ line ∈ upToExit (lines 10 file), Readable line :=
  shows_wanted_iff (.start file) hleaves

/-- A shell that reads a file of commands which `execvp` starts and which leave the file alone. -/
def batch : World :=
  { chunk := fun _ => 4095, starts := fun _ => true, touches := fun _ => false
    seekable := true, offset := fun _ => 0 }

theorem batch_leaves (line : Str) : Leaves batch line := fun _ _ => rfl

theorem lines_cons (line : Str) (hs : s ≠ []) (hline : cut 10 s.length s = line) :
    lines 10 s = line :: lines 10 (s.drop line.length) := by
  rw [lines_of_ne_nil hs, hline]

/-- What stands behind the line `exit` is not looked at. -/
theorem shows_up_to_exit :
    Shows batch (chars "ls -l\n\nexit\nls") {} (wanted (lines 10 (chars "ls -l\n\nexit\nls"))) := by
  refine (main_eq_wanted_iff batch _ fun line _ => batch_leaves line).mpr ?_
  have hlines : upToExit (lines 10 (chars "ls -l\n\nexit\nls")) =
      [chars "ls -l\n", [10], chars "exit\n"] := by
    rw [lines_cons (chars "ls -l\n") (by decide) (by decide), lines_cons [10] (by decide) (by decide),
      lines_cons (chars "exit\n") (by decide) (by decide)]
    rfl
  rw [hlines]
  decide

/-- A last line without a newline loses its last byte. -/
theorem last_line_cut : ∃ file : Str, (0 : Byte) ∉ file ∧ (∀ line, Leaves batch line) ∧
    wanted (lines 10 file) = [.pass (chars "ls")] ∧ Shows batch file {} [.pass (chars "l")] ∧
    ¬ Shows batch file {} (wanted (lines 10 file)) := by
  have hlines : lines 10 (chars "ls") = [chars "ls"] := by
    rw [lines_cons (chars "ls") (by decide) (by decide), show (chars "ls").drop _ = [] from rfl, lines_nil]
  refine ⟨chars "ls", by decide, batch_leaves, by rw [hlines]; rfl, ⟨2, by rfl⟩, fun h => ?_⟩
  have hread := (shows_wanted_iff (.start _) fun line _ => batch_leaves line).mp h
  rw [hlines] at hread
  exact absurd (hread (chars "ls") (by simp [upToExit])) (by decide)

/-! ## A command that is not there -/

theorem mainLoop_mono {m : ℕ} (h : mainLoop w file n f = some events) (hm : n ≤ m) :
    mainLoop w file m f = some events := by
  induction n generalizing m f events with
  | zero => cases h
  | succ n ih =>
      obtain ⟨m, rfl⟩ : ∃ k, m = k + 1 := ⟨m - 1, by omega⟩
      have hle : n ≤ m := Nat.le_of_succ_le_succ hm
      unfold mainLoop at h ⊢
      dsimp only at h ⊢
      split at h
      · next hend =>
        rw [if_pos hend]
        exact h
      · next hend =>
        rw [if_neg hend]
        split at h
        · next hlong =>
          rw [if_pos hlong]
          obtain ⟨later, hlater, he⟩ := Option.map_eq_some_iff.mp h
          exact Option.map_eq_some_iff.mpr ⟨later, ih hlater hle, he⟩
        · next hlong =>
          rw [if_neg hlong]
          split at h
          · next hexit =>
            rw [if_pos hexit]
            exact h
          · next hexit =>
            rw [if_neg hexit]
            obtain ⟨later, hlater, he⟩ := Option.map_eq_some_iff.mp h
            exact Option.map_eq_some_iff.mpr ⟨later, ih hlater hle, he⟩

/-- The events are determined. -/
theorem Shows.unique {events' : List Event} (h : Shows w file f events) (h' : Shows w file f events') :
    events = events' := by
  obtain ⟨n, hn⟩ := h
  obtain ⟨m, hm⟩ := h'
  have hsame := mainLoop_mono hn (Nat.le_max_left n m)
  rw [mainLoop_mono hm (Nat.le_max_right n m)] at hsame
  exact (Option.some.inj hsame).symm

/-- A file whose first command does not exist. The first read takes it all, the child moves the
offset back to the second line, and that line is read once more. -/
def missing : World :=
  { chunk := fun _ => 4095, starts := fun args => args.head? ≠ some (chars "nosuch")
    touches := fun _ => false, seekable := true, offset := fun k => if k = 1 then 7 else 12 }

theorem line_again : Shows missing (chars "nosuch\ntrue\n") {}
      [.pass (chars "nosuch"), .pass (chars "true"), .pass (chars "true")] ∧
    (∀ line ∈ upToExit (lines 10 (chars "nosuch\ntrue\n")), Readable line) ∧
    ¬ Shows missing (chars "nosuch\ntrue\n") {} (wanted (lines 10 (chars "nosuch\ntrue\n"))) := by
  have hshows : Shows missing (chars "nosuch\ntrue\n") {}
      [.pass (chars "nosuch"), .pass (chars "true"), .pass (chars "true")] := ⟨4, by rfl⟩
  have hlines : lines 10 (chars "nosuch\ntrue\n") = [chars "nosuch\n", chars "true\n"] := by
    rw [lines_cons (chars "nosuch\n") (by decide) (by decide),
      lines_cons (chars "true\n") (by decide) (by decide)]
    exact congrArg _ (congrArg _ (lines_nil 10))
  rw [hlines]
  refine ⟨hshows, by decide, fun h => ?_⟩
  have hlength := congrArg List.length (h.unique hshows)
  revert hlength
  decide

end

end IntroToOS.Shell

import IntroToOS.Lib.CString

/-! # Command lines

Translated from `Project2a/mysh.c`: how a line becomes the arguments of a command, which commands
are built in, and what a child is started with.
-/

namespace IntroToOS.Shell
open Lib
set_option autoImplicit false

abbrev Str := List Byte

def isBlank (c : Byte) : Bool := c = 32 || c = 9

/-- The tokens that `strtok(s, " \t")` finds. -/
def tokens (s : Str) : List Str := (s.splitOnP isBlank).filter (· ≠ [])

/-- The arguments, and `bg`: an `&` at the end of the last argument is taken away, with the argument
when nothing else is left of it. -/
def splitAmpersand (command : List Str) : List Str × Bool :=
  match command.getLast? with
  | none => (command, false)
  | some last_argument =>
    if last_argument.getLast? = some 38 then
      (command.dropLast ++ if last_argument.dropLast = [] then [] else [last_argument.dropLast], true)
    else (command, false)

def is_inbuilt_command : List Str → Bool
  | [] => false
  | cmd :: args =>
    if cmd = chars "j" then args = [] ∨ args = [chars "&"]
    else if cmd = chars "exit" then args = [] ∨ args = [chars "&"]
    else if cmd = chars "myw" then args.length = 1 ∨ args.length = 2 ∧ args[1]? = some (chars "&")
    else false

def digits : Str → ℤ → ℤ
  | [], n => n
  | c :: s, n => if 48 ≤ c.toNat ∧ c.toNat ≤ 57 then digits s (10 * n + (c.toNat - 48)) else n

/-- A number that does not fit a `long` becomes the nearest that does, and then an `int`. -/
def atoi (s : Str) : ℤ :=
  let n := match s.dropWhile isspace with
    | [] => 0
    | c :: s => if c = 45 then -digits s 0 else if c = 43 then digits s 0 else digits (c :: s) 0
  (BitVec.ofInt 32 (max (-2 ^ 63) (min n (2 ^ 63 - 1)))).toInt

/-- The argument of `myw` as it stands once an `&` at its end is taken away. -/
def queryArg (arg : Str) : Str := if arg.getLast? = some 38 then arg.dropLast else arg

/-- The job id in an argument of `myw`. -/
def queryJid (arg : Str) : ℤ := atoi (queryArg arg)

/-- The shell ends when it processes the line. -/
def exits (s : Str) : Bool :=
  let args := (splitAmpersand (tokens s)).1
  is_inbuilt_command args && args.head? = some (chars "exit")

/-- What `execvp` gets when a line is processed. A built-in command starts no child, unless it is a
`myw` without a number. -/
def child (s : Str) : Option (List Str) :=
  let args := (splitAmpersand (tokens s)).1
  if args = [] then none
  else if is_inbuilt_command args then
    match args with
    | cmd :: arg :: rest =>
      if cmd = chars "myw" ∧ queryJid arg = 0 then some (cmd :: queryArg arg :: rest) else none
    | _ => none
  else some args

theorem child_isSome_iff {s : Str} (hinbuilt : is_inbuilt_command (splitAmpersand (tokens s)).1) :
    (child s).isSome ↔ ∃ arg rest, (splitAmpersand (tokens s)).1 = chars "myw" :: arg :: rest ∧
      queryJid arg = 0 := by
  unfold child
  dsimp only
  generalize (splitAmpersand (tokens s)).1 = args at hinbuilt ⊢
  rw [if_pos hinbuilt]
  cases args with
  | nil => cases hinbuilt
  | cons cmd rest =>
      cases rest with
      | nil => simp
      | cons arg rest =>
          rw [if_neg (List.cons_ne_nil _ _)]
          by_cases hmyw : cmd = chars "myw" ∧ queryJid arg = 0
          · simp [hmyw]
          · simp [hmyw]

end IntroToOS.Shell

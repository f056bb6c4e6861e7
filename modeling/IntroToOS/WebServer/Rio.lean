import IntroToOS.Lib.Lines
import IntroToOS.Lib.Memory

/-! # Reading a request

Translated from the Rio package of `Project4a/cs537.c` and from `requestReadhdrs` of `request.c`.
A read from the socket delivers bytes or is interrupted; after the last of them the client has
closed its end, and every further read reports the end of the stream. Other errors do not occur.
-/

namespace IntroToOS.WebServer
open Lib
set_option autoImplicit false

def MAXLINE : ℕ := 8192

/-- The result of one `read` that does not report the end of the stream. -/
inductive Received
  | bytes (b : Byte) (bs : List Byte)
  | eintr

/-- `rio_t`: the unread bytes of `rio_buf`, and what the socket will deliver. -/
structure Rio where
  unread : List Byte
  input : List Received

def rio_readinitb (input : List Received) : Rio := ⟨[], input⟩

/-- The loop of `rio_read` that refills an empty buffer. -/
def refill : List Received → Rio
  | [] => ⟨[], []⟩
  | .eintr :: input => refill input
  | .bytes b bs :: input => ⟨b :: bs, input⟩

/-- The bytes that are copied, none at the end of the stream. -/
def rio_read (rp : Rio) (n : ℕ) : List Byte × Rio :=
  let rp := if rp.unread = [] then refill rp.input else rp
  (rp.unread.take n, { rp with unread := rp.unread.drop n })

/-- The loop of `rio_readlineb`, for at most `n` bytes. -/
def readline : ℕ → Rio → List Byte × Rio
  | 0, rp => ([], rp)
  | n + 1, rp =>
    match rio_read rp 1 with
    | ([], rp) => ([], rp)
    | (c :: _, rp) =>
      if c = 10 then ([c], rp) else (c :: (readline n rp).1, (readline n rp).2)

/-- The number that is returned, the user's buffer and the reader. -/
def rio_readlineb (rp : Rio) (usrbuf : Mem) (maxlen : ℕ) : ℕ × Mem × Rio :=
  let r := readline (maxlen - 1) rp
  if r.1 = [] ∧ 1 < maxlen then (0, usrbuf, r.2)
  else (if r.1.getLast? = some 10 then r.1.length else r.1.length + 1,
    storeAt usrbuf 0 (r.1 ++ [0]), r.2)

/-- `strcmp(buf, s) == 0`, for a string `s` without a zero byte. -/
abbrev Holds (buf : Mem) (s : List Byte) : Prop := bytesAt buf 0 (s.length + 1) = s ++ [0]

/-- `"\r\n"` -/
def crlf : List Byte := [13, 10]

/-- `none` when the loop has not ended after so many calls of `Rio_readlineb`. -/
def requestReadhdrs : ℕ → Rio → Mem → Option Rio
  | 0, _, _ => none
  | calls + 1, rp, buf =>
    let r := rio_readlineb rp buf MAXLINE
    if Holds r.2.1 crlf then some r.2.2 else requestReadhdrs calls r.2.2 r.2.1

/-! ## The stream behind the reader -/

def Received.toBytes : Received → List Byte
  | .bytes b bs => b :: bs
  | .eintr => []

/-- The bytes that are still to come. -/
def Rio.stream (rp : Rio) : List Byte := rp.unread ++ rp.input.flatMap Received.toBytes

section
variable {rp : Rio} {buf : Mem} {line : List Byte} {n : ℕ}

theorem refill_stream (input : List Received) :
    (refill input).stream = input.flatMap Received.toBytes ∧
      ((refill input).unread = [] → (refill input).stream = []) := by
  induction input with
  | nil => exact ⟨rfl, fun _ => rfl⟩
  | cons r input ih =>
      cases r with
      | eintr => exact ih
      | bytes b bs => exact ⟨rfl, fun h => nomatch h⟩

/-- One byte is read off the stream. -/
theorem rio_read_one (rp : Rio) : (rio_read rp 1).1 = rp.stream.take 1 ∧
    (rio_read rp 1).2.stream = rp.stream.drop 1 := by
  obtain ⟨rp', hrp', hstream, hempty⟩ : ∃ rp', (if rp.unread = [] then refill rp.input else rp) = rp' ∧
      rp'.stream = rp.stream ∧ (rp'.unread = [] → rp'.stream = []) := by
    by_cases hunread : rp.unread = []
    · obtain ⟨hs, he⟩ := refill_stream rp.input
      refine ⟨_, if_pos hunread, ?_, he⟩
      rw [hs, Rio.stream, hunread, List.nil_append]
    · exact ⟨rp, if_neg hunread, rfl, fun h => absurd h hunread⟩
  rw [rio_read, hrp', ← hstream]
  obtain ⟨unread, input⟩ := rp'
  cases unread with
  | nil =>
      rw [hempty rfl]
      exact ⟨rfl, hempty rfl⟩
  | cons b bs => exact ⟨rfl, rfl⟩

theorem readline_eq (n : ℕ) (rp : Rio) : (readline n rp).1 = cut 10 n rp.stream ∧
    (readline n rp).2.stream = rp.stream.drop (cut 10 n rp.stream).length := by
  induction n generalizing rp with
  | zero => exact ⟨rfl, rfl⟩
  | succ n ih =>
      obtain ⟨hone, hrest⟩ := rio_read_one rp
      rw [readline]
      obtain ⟨⟨got, rp'⟩, hgot⟩ : ∃ r, rio_read rp 1 = r := ⟨_, rfl⟩
      rw [hgot] at hone hrest ⊢
      cases hs : rp.stream with
      | nil =>
          rw [hs] at hone hrest
          rw [show got = [] from hone]
          exact ⟨rfl, hrest⟩
      | cons c s =>
          rw [hs] at hone hrest
          rw [show got = [c] from hone, cut]
          obtain ⟨hline, hafter⟩ := ih rp'
          rw [show rp'.stream = s from hrest] at hline hafter
          by_cases hc : c = 10
          · simpa [hc] using hrest
          · simp only [hc, if_false]
            exact ⟨congrArg (c :: ·) hline, hafter⟩

/-- At the end of the stream the user's buffer is left as it is. -/
theorem rio_readlineb_end (buf : Mem) (hs : rp.stream = []) :
    (rio_readlineb rp buf MAXLINE).2.1 = buf ∧ (rio_readlineb rp buf MAXLINE).2.2.stream = [] := by
  obtain ⟨hline, hrest⟩ := readline_eq (MAXLINE - 1) rp
  rw [hs, cut_nil] at hline hrest
  rw [rio_readlineb, if_pos ⟨hline, by decide⟩]
  exact ⟨rfl, hrest⟩

theorem rio_readlineb_line (buf : Mem) (hs : rp.stream ≠ []) :
    (rio_readlineb rp buf MAXLINE).2.1 = storeAt buf 0 (cut 10 (MAXLINE - 1) rp.stream ++ [0]) ∧
      (rio_readlineb rp buf MAXLINE).2.2.stream =
        rp.stream.drop (cut 10 (MAXLINE - 1) rp.stream).length := by
  obtain ⟨hline, hrest⟩ := readline_eq (MAXLINE - 1) rp
  have hne : cut 10 (MAXLINE - 1) rp.stream ≠ [] := cut_ne_nil 10 (by decide) hs
  rw [rio_readlineb, hline, if_neg (fun h => hne h.1)]
  exact ⟨rfl, hrest⟩

/-- A line in a buffer compares equal to `"\r\n"` when it is `"\r\n"`. -/
theorem holds_crlf_iff (buf : Mem) (hline : ∃ s, line = cut 10 n s) (hne : line ≠ []) :
    Holds (storeAt buf 0 (line ++ [0])) crlf ↔ line = crlf := by
  obtain ⟨s, rfl⟩ := hline
  constructor
  · intro h
    have hbyte : ∀ k < 3, ∀ c, (cut 10 n s ++ [0])[k]? = some c → (crlf ++ [0])[k]? = some c := by
      intro k hk c hc
      rw [← show bytesAt _ 0 3 = crlf ++ [0] from h, getElem?_bytesAt _ _ hk]
      exact congrArg some (storeAt_same buf 0 hc)
    obtain ⟨line, hline⟩ : ∃ line, line = cut 10 n s := ⟨_, rfl⟩
    rw [← hline] at hne hbyte ⊢
    match line, hne with
    | [c], _ => exact absurd (hbyte 1 (by decide) 0 rfl) (by decide)
    | c :: d :: rest, _ =>
        have hc := Option.some.inj (hbyte 0 (by decide) c rfl)
        have hd := Option.some.inj (hbyte 1 (by decide) d rfl)
        subst hc hd
        have hmem : (10 : Byte) ∈ cut 10 n s := by
          rw [← hline]
          simp
        obtain ⟨l, hl, hnl⟩ := cut_eq_of_mem hmem
        rw [← hline] at hl
        match l, hl with
        | [_], hl =>
            rw [hl, ← (List.cons.inj hl).1]
            rfl
        | _ :: e :: l, hl =>
            obtain ⟨-, rfl, -⟩ := by simpa using hl
            simp at hnl
  · intro h
    rw [h]
    exact bytesAt_storeAt buf 0 (crlf ++ [0])

/-- The loop ends for some number of calls. -/
def Returns (rp : Rio) (buf : Mem) : Prop := ∃ calls, (requestReadhdrs calls rp buf).isSome

/-- One turn of the loop. -/
theorem returns_step : Returns rp buf ↔ Holds (rio_readlineb rp buf MAXLINE).2.1 crlf ∨
    Returns (rio_readlineb rp buf MAXLINE).2.2 (rio_readlineb rp buf MAXLINE).2.1 := by
  by_cases hstop : Holds (rio_readlineb rp buf MAXLINE).2.1 crlf
  · refine iff_of_true ⟨1, ?_⟩ (.inl hstop)
    rw [requestReadhdrs, if_pos hstop]
    rfl
  · rw [or_iff_right hstop]
    constructor
    · rintro ⟨_ | calls, h⟩
      · cases h
      · rw [requestReadhdrs, if_neg hstop] at h
        exact ⟨calls, h⟩
    · rintro ⟨calls, h⟩
      refine ⟨calls + 1, ?_⟩
      rw [requestReadhdrs, if_neg hstop]
      exact h

/-- At the end of the stream the loop goes round with the buffer as it is. -/
theorem returns_end (buf : Mem) (hs : rp.stream = []) : Returns rp buf ↔ Holds buf crlf := by
  constructor
  · rintro ⟨calls, h⟩
    induction calls generalizing rp with
    | zero => cases h
    | succ calls ih =>
        obtain ⟨hbuf, hrest⟩ := rio_readlineb_end buf hs
        rw [requestReadhdrs, hbuf] at h
        by_cases hstop : Holds buf crlf
        · exact hstop
        · rw [if_neg hstop] at h
          exact ih hrest h
  · intro h
    rw [returns_step, (rio_readlineb_end buf hs).1]
    exact .inl h

/-- A line `"\r\n"` ends the loop. -/
theorem returns_of_mem (hmem : crlf ∈ pieces 10 (MAXLINE - 1) rp.stream) : Returns rp buf := by
  -- by induction on the bytes that are still to come
  obtain ⟨len, hlen⟩ : ∃ len, rp.stream.length = len := ⟨_, rfl⟩
  induction len using Nat.strongRecOn generalizing rp buf with
  | ind len ih =>
      have hs : rp.stream ≠ [] := by
        intro hs
        rw [hs, pieces_nil] at hmem
        cases hmem
      have hne := cut_ne_nil (10 : Byte) (k := MAXLINE - 1) (by decide) hs
      obtain ⟨hbuf, hrest⟩ := rio_readlineb_line buf hs
      rw [pieces_of_ne_nil (by decide) hs, List.mem_cons] at hmem
      rw [returns_step, hbuf, holds_crlf_iff buf ⟨rp.stream, rfl⟩ hne]
      obtain hline | hmem := hmem
      · exact .inl hline.symm
      · rw [← hrest] at hmem
        refine .inr (ih _ ?_ hmem rfl)
        have hpos := List.length_pos_iff.mpr hne
        have hspos := List.length_pos_iff.mpr hs
        rw [hrest, List.length_drop, ← hlen]
        omega

/-- Only a line `"\r\n"` ends the loop, or the buffer that the end of the stream leaves alone. -/
theorem mem_of_returns {calls : ℕ} (h : (requestReadhdrs calls rp buf).isSome) :
    crlf ∈ pieces 10 (MAXLINE - 1) rp.stream ∨ rp.stream = [] ∧ Holds buf crlf := by
  induction calls generalizing rp buf with
  | zero => cases h
  | succ calls ih =>
      by_cases hs : rp.stream = []
      · exact .inr ⟨hs, (returns_end _ hs).mp ⟨_, h⟩⟩
      · have hne := cut_ne_nil (10 : Byte) (k := MAXLINE - 1) (by decide) hs
        obtain ⟨hbuf, hrest⟩ := rio_readlineb_line buf hs
        have hline := holds_crlf_iff buf ⟨rp.stream, rfl⟩ hne
        rw [pieces_of_ne_nil (by decide) hs, List.mem_cons]
        rw [requestReadhdrs, hbuf] at h
        by_cases hstop : cut 10 (MAXLINE - 1) rp.stream = crlf
        · exact .inl (.inl hstop.symm)
        · rw [if_neg (fun he => hstop (hline.mp he))] at h
          obtain hmem | ⟨-, hholds⟩ := ih h
          · rw [hrest] at hmem
            exact .inl (.inr hmem)
          · exact absurd (hline.mp hholds) hstop

/-- `requestReadhdrs` returns when one of the lines it is sent is `"\r\n"`, or when it is sent
nothing and its buffer happens to hold `"\r\n"`; and otherwise never. -/
theorem requestReadhdrs_returns_iff (rp : Rio) (stack : Mem) :
    (∃ calls, (requestReadhdrs calls rp stack).isSome) ↔
      crlf ∈ pieces 10 (MAXLINE - 1) rp.stream ∨ rp.stream = [] ∧ Holds stack crlf := by
  constructor
  · rintro ⟨calls, h⟩
    exact mem_of_returns h
  · rintro (hmem | ⟨hs, hholds⟩)
    · exact returns_of_mem hmem
    · exact (returns_end _ hs).mpr hholds

/-- `"GET / HTTP/1.0\r\n"` -/
def getLine : List Byte := [71, 69, 84, 32, 47, 32, 72, 84, 84, 80, 47, 49, 46, 48, 13, 10]

/-- A client that sends a request line and closes its end keeps the worker for ever. -/
theorem requestReadhdrs_never : ∃ rp : Rio,
    rp = (rio_readlineb (rio_readinitb [.bytes 71 getLine.tail]) (fun _ => 0) MAXLINE).2.2 ∧
      ∀ calls, requestReadhdrs calls rp (fun _ => 0) = none := by
  refine ⟨_, rfl, fun calls => ?_⟩
  have hcut : cut 10 (MAXLINE - 1) (rio_readinitb [.bytes 71 getLine.tail]).stream = getLine := rfl
  obtain ⟨-, hrest⟩ := rio_readlineb_line (fun _ => 0)
    (show (rio_readinitb [.bytes 71 getLine.tail]).stream ≠ [] from List.cons_ne_nil _ _)
  rw [hcut] at hrest
  by_contra hsome
  have hreturns := (returns_end (fun _ => 0) hrest).mp ⟨calls, Option.isSome_iff_ne_none.mpr hsome⟩
  exact absurd hreturns (by decide)

end

end IntroToOS.WebServer

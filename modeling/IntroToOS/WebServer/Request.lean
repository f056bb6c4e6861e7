import IntroToOS.Lib.CString
import IntroToOS.WebServer.Rio
import Mathlib.Algebra.Order.Ring.Int
import Mathlib.Data.List.Infix

/-! # Handling a request

Translated from `Project4a/request.c`. The arrays of `requestHandle` are checked: an element that
was never written is not read, and nothing is read or written outside of an array (`Stop.fault`).
`Stop.exit` is a call of `exit` in the server's process. The socket can be written to, `open`
succeeds on a file that `stat` shows to be regular and readable, and `fork`, `dup2`, `setenv` and
`wait` succeed; `mmap` fails for no bytes and for more than `mappable`.
-/

namespace IntroToOS.WebServer
open Lib
set_option autoImplicit false

def MAXBUF : ℕ := 8192

/-- Why a function does not return. -/
inductive Stop
  | fault
  | exit
  | running
deriving DecidableEq

abbrev Exec (α : Type) := Except Stop α

def checked {α : Type} (x : Option α) : Exec α := x.elim (.error .fault) .ok

/-- `struct stat` -/
structure Stat where
  isReg : Bool
  irusr : Bool
  ixusr : Bool
  st_size : ℕ

structure FileSystem where
  stat : List Byte → Option Stat
  mappable : ℕ

/-- The page that `requestError` sends. -/
def errorBody (cause : List Byte) (errnum shortmsg longmsg : String) : List Byte :=
  chars "<html><title>CS537 Error</title><body bgcolor=fffff>\r\n" ++
    chars errnum ++ chars ": " ++ chars shortmsg ++ chars "\r\n<p>" ++
    chars longmsg ++ chars ": " ++ cause ++ chars "\r\n<hr>CS537 Web Server\r\n"

def requestError (cause : List Byte) (errnum shortmsg longmsg : String) : Exec Unit :=
  if (errorBody cause errnum shortmsg longmsg).length < MAXBUF then .ok () else .error .fault

/-- Whether the content is static, and the arrays `filename` and `cgiargs`. -/
def requestParseURI (uri filename cgiargs : Chars) : Exec (Bool × Chars × Chars) := do
  let u ← checked (strAt MAXLINE uri 0)
  if ¬ chars "cgi" <:+: u then
    let cgiargs ← checked (putStr MAXLINE cgiargs [])
    let filename ← checked (putStr MAXLINE filename (chars "." ++ u))
    let last ← checked (if u = [] then none else uri (u.length - 1))
    if last = 47 then
      let name ← checked (strAt MAXLINE filename 0)
      let filename ← checked (putStr MAXLINE filename (name ++ chars "home.html"))
      return (true, filename, cgiargs)
    else return (true, filename, cgiargs)
  else
    match u.idxOf? 63 with
    | some ptr =>
      let args ← checked (strAt MAXLINE uri (ptr + 1))
      let cgiargs ← checked (putStr MAXLINE cgiargs args)
      let u ← checked (strAt MAXLINE (Function.update uri ptr (some 0)) 0)
      let filename ← checked (putStr MAXLINE filename (chars "." ++ u))
      return (false, filename, cgiargs)
    | none =>
      let cgiargs ← checked (putStr MAXLINE cgiargs [])
      let filename ← checked (putStr MAXLINE filename (chars "." ++ u))
      return (false, filename, cgiargs)

/-- `Mmap` of `filesize` bytes, an `int` that becomes a `size_t`. -/
def Mmap (fs : FileSystem) (filesize : ℤ) : Exec Unit :=
  if 0 < filesize % 2 ^ 64 ∧ filesize % 2 ^ 64 ≤ fs.mappable then .ok () else .error .exit

def requestServeStatic (fs : FileSystem) (filesize : ℤ) : Exec Unit := Mmap fs filesize

/-- The server's process; a failing `Execve` ends the child's. -/
def requestServeDynamic : Exec Unit := .ok ()

structure Fields where
  method : Chars := uninit
  uri : Chars := uninit
  version : Chars := uninit

/-- A word that `sscanf` has read is written, else the array is left as it is. -/
def scanInto (word : Option (List Byte)) (b : Chars) : Exec Chars :=
  match word with
  | none => .ok b
  | some w => checked (putStr MAXLINE b w)

/-- `sscanf(buf, "%s %s %s", method, uri, version)` and the `printf` of what it has read. -/
def requestFields (line : List Byte) (f : Fields) : Exec Fields := do
  let words := scanWords 3 line
  let method ← scanInto words[0]? f.method
  let uri ← scanInto words[1]? f.uri
  let version ← scanInto words[2]? f.version
  let _ ← checked (strAt MAXLINE method 0)
  let _ ← checked (strAt MAXLINE uri 0)
  let _ ← checked (strAt MAXLINE version 0)
  return ⟨method, uri, version⟩

/-- What is done for a file once its name is known. -/
def serveFile (fs : FileSystem) (is_static : Bool) (filename : List Byte) : Exec Unit :=
  match fs.stat filename with
  | none => requestError filename "404" "Not found" "CS537 Server could not find this file"
  | some sbuf =>
    if is_static then
      if !sbuf.isReg || !sbuf.irusr then
        requestError filename "403" "Forbidden" "CS537 Server could not read this file"
      else requestServeStatic fs (BitVec.ofNat 32 sbuf.st_size).toInt
    else
      if !sbuf.isReg || !sbuf.ixusr then
        requestError filename "403" "Forbidden" "CS537 Server could not run this CGI program"
      else requestServeDynamic

/-- What follows after the headers have been read. -/
def serve (fs : FileSystem) (uri : Chars) : Exec Unit := do
  let (is_static, filename, _) ← requestParseURI uri uninit uninit
  let filename ← checked (strAt MAXLINE filename 0)
  serveFile fs is_static filename

/-- `calls` bounds the turns of the loop that reads the headers, `stack` and `hdrs` are what the two
line buffers held before. -/
def requestHandle (fs : FileSystem) (calls : ℕ) (stack hdrs : Mem) (input : List Received) :
    Exec Unit := do
  let r := rio_readlineb (rio_readinitb input) stack MAXLINE
  let line ← checked (strAt MAXLINE (fun x => some (r.2.1 x)) 0)
  let f ← requestFields line {}
  let method ← checked (strAt MAXLINE f.method 0)
  if ¬ EqualFold method (chars "GET") then
    requestError method "501" "Not Implemented" "CS537 Server does not implement this method"
  else
    match requestReadhdrs calls r.2.2 hdrs with
    | none => .error .running
    | some _ => serve fs f.uri

/-! ## The fields of a request line -/

/-- An array that holds the string `s`. -/
def written (b : Chars) (s : List Byte) : Chars := fun x =>
  if x ≤ s.length then (s ++ [0])[x]? else b x

section
variable {s u line : List Byte} {b : Chars} {f : Fields}

theorem putStr_written (b : Chars) (h : s.length < MAXLINE) :
    checked (putStr MAXLINE b s) = .ok (written b s) := by
  rw [putStr_eq b h]
  rfl

theorem strAt_written (b : Chars) (hs : (0 : Byte) ∉ s) (hfit : s.length < MAXLINE) {i : ℕ}
    (hi : i ≤ s.length) : checked (strAt MAXLINE (written b s) i) = .ok (s.drop i) := by
  have h := strAt_putStr (b := b) hs hfit hi
  unfold written
  rw [h]
  rfl

theorem strAt_uninit : checked (strAt MAXLINE uninit 0) = .error .fault := rfl

@[simp] theorem ok_bind {α β : Type} (a : α) (f : α → Exec β) : ((.ok a : Exec α) >>= f) = f a := rfl

@[simp] theorem error_bind {α β : Type} (e : Stop) (f : α → Exec β) :
    ((.error e : Exec α) >>= f) = .error e := rfl

/-- A line of three words fills the three arrays; with fewer words one is printed that is not. -/
theorem requestFields_eq (h0 : (0 : Byte) ∉ line) (hlen : line.length < MAXLINE) :
    requestFields line {} = match scanWords 3 line with
      | [m, u, v] => .ok ⟨written uninit m, written uninit u, written uninit v⟩
      | _ => .error .fault := by
  have hword : ∀ w ∈ scanWords 3 line, (0 : Byte) ∉ w ∧ w.length < MAXLINE := by
    intro w hw
    obtain ⟨-, hle, hmem⟩ := scanWords_mem hw
    exact ⟨fun h => h0 (hmem 0 h), by omega⟩
  have hput : ∀ w ∈ scanWords 3 line, scanInto (some w) uninit = .ok (written uninit w) := fun w hw =>
    putStr_written uninit (hword w hw).2
  have hget : ∀ w ∈ scanWords 3 line, checked (strAt MAXLINE (written uninit w) 0) = .ok w := fun w hw =>
    strAt_written uninit (hword w hw).1 (hword w hw).2 (Nat.zero_le _)
  have hnone : scanInto none uninit = .ok uninit := rfl
  have hthree := length_scanWords_le 3 line
  unfold requestFields
  generalize scanWords 3 line = words at hput hget hthree
  match words with
  | [] => simp [hnone, strAt_uninit]
  | [m] => simp [hput, hget, hnone, strAt_uninit]
  | [m, u] => simp [hput, hget, hnone, strAt_uninit]
  | [m, u, v] => simp [hput, hget]
  | _ :: _ :: _ :: _ :: _ =>
      simp only [List.length_cons] at hthree
      omega

/-- What makes the content static. -/
def isStatic (u : List Byte) : Bool := ¬ chars "cgi" <:+: u

/-- The name that `requestParseURI` makes of a URI. -/
def fileName (u : List Byte) : List Byte :=
  if isStatic u then
    if u.getLast? = some 47 then chars "." ++ u ++ chars "home.html" else chars "." ++ u
  else chars "." ++ (u.idxOf? 63).elim u u.take

/-- A directory too long for `home.html` to be appended. -/
def LongDirectory (u : List Byte) : Prop := u.getLast? = some 47 ∧ MAXLINE ≤ u.length + 10

theorem zero_notMem_chars : (0 : Byte) ∉ chars "." ∧ (0 : Byte) ∉ chars "home.html" := by decide

theorem last_written (hne : u ≠ []) :
    checked (if u = [] then none else written b u (u.length - 1)) = .ok (u.getLast hne) := by
  have hpos := List.length_pos_iff.mpr hne
  rw [if_neg hne, written, if_pos (by omega), List.getElem?_append_left (by omega),
    List.getLast_eq_getElem hne, List.getElem?_eq_getElem (by omega)]
  rfl

/-- `filename` is written and read back. -/
theorem putName (b : Chars) {w : List Byte} (h0 : (0 : Byte) ∉ w) (hlen : w.length + 1 < MAXLINE) :
    checked (putStr MAXLINE b (chars "." ++ w)) = .ok (written b (chars "." ++ w)) ∧
      strAt MAXLINE (written b (chars "." ++ w)) 0 = some (chars "." ++ w) := by
  have hdot : (chars ".").length = 1 := by decide
  have hfit : (chars "." ++ w).length < MAXLINE := by
    rw [List.length_append]
    omega
  refine ⟨putStr_written b hfit, strAt_putStr ?_ hfit (Nat.zero_le _)⟩
  rw [List.mem_append, not_or]
  exact ⟨zero_notMem_chars.1, h0⟩

theorem requestParseURI_static (hstatic : isStatic u) (h0 : (0 : Byte) ∉ u) (hne : u ≠ [])
    (hlen : u.length + 1 < MAXLINE) :
    (LongDirectory u → requestParseURI (written b u) uninit uninit = .error .fault) ∧
      (¬ LongDirectory u → ∃ filename cgiargs, requestParseURI (written b u) uninit uninit =
        .ok (true, filename, cgiargs) ∧ strAt MAXLINE filename 0 = some (fileName u)) := by
  have hread := strAt_written b h0 (by omega) (Nat.zero_le u.length)
  obtain ⟨hname, hagain⟩ := putName uninit h0 hlen
  have hcgi : ¬ chars "cgi" <:+: u := by simpa [isStatic] using hstatic
  have hargs := putStr_written uninit (s := []) (by decide)
  have hrun : requestParseURI (written b u) uninit uninit = if u.getLast hne = 47 then
        (checked (putStr MAXLINE (written uninit (chars "." ++ u))
          (chars "." ++ u ++ chars "home.html"))) >>= fun f => .ok (true, f, written uninit [])
      else .ok (true, written uninit (chars "." ++ u), written uninit []) := by
    unfold requestParseURI
    rw [hread, List.drop_zero, ok_bind, if_pos hcgi, hargs, ok_bind, hname, ok_bind, last_written hne,
      ok_bind, hagain]
    rfl
  have hlast : u.getLast? = some 47 ↔ u.getLast hne = 47 := by
    rw [List.getLast?_eq_some_getLast hne, Option.some.injEq]
  rw [hrun, LongDirectory, fileName, if_pos hstatic]
  by_cases hslash : u.getLast hne = 47
  · have hlong : (chars "." ++ u ++ chars "home.html").length = u.length + 10 := by
      have hdot : (chars ".").length = 1 := by decide
      have hhome : (chars "home.html").length = 9 := by decide
      simp only [List.length_append]
      omega
    rw [if_pos hslash, if_pos (hlast.mpr hslash)]
    constructor
    · rintro ⟨-, hfull⟩
      rw [putStr_none _ (by omega)]
      rfl
    · intro h
      have hfit : u.length + 10 < MAXLINE := Nat.lt_of_not_le fun hle => h ⟨hlast.mpr hslash, hle⟩
      rw [putStr_written _ (hlong ▸ hfit)]
      refine ⟨_, _, rfl, strAt_putStr ?_ (hlong ▸ hfit) (Nat.zero_le _)⟩
      simp only [List.mem_append, not_or]
      exact ⟨⟨zero_notMem_chars.1, h0⟩, zero_notMem_chars.2⟩
  · rw [if_neg hslash, if_neg (fun h => hslash (hlast.mp h))]
    exact ⟨fun h => absurd (hlast.mp h.1) hslash, fun _ => ⟨_, _, rfl, hagain⟩⟩

/-- Setting the `?` to zero cuts the string there. -/
theorem strAt_cut (b : Chars) {ptr : ℕ} (h0 : (0 : Byte) ∉ u) (hptr : ptr < u.length)
    (hlen : u.length < MAXLINE) :
    strAt MAXLINE (Function.update (written b u) ptr (some 0)) 0 = some (u.take ptr) := by
  have htake : (u.take ptr).length = ptr := by
    rw [List.length_take]
    omega
  refine strFrom_eq (fun h => h0 (List.mem_of_mem_take h)) (by omega) fun k hk => ?_
  rw [Nat.zero_add]
  by_cases hkp : k = ptr
  · subst hkp
    rw [Function.update_self, List.getElem?_append_right (by omega), htake, Nat.sub_self]
    rfl
  · rw [Function.update_of_ne hkp, written, if_pos (by omega), List.getElem?_append_left (by omega),
      List.getElem?_append_left (by omega), List.getElem?_take_of_lt (by omega)]

/-- A dynamic URI always fits. -/
theorem requestParseURI_dynamic (hstatic : ¬ isStatic u) (h0 : (0 : Byte) ∉ u)
    (hlen : u.length + 1 < MAXLINE) :
    ∃ filename cgiargs, requestParseURI (written b u) uninit uninit = .ok (false, filename, cgiargs) ∧
      strAt MAXLINE filename 0 = some (fileName u) := by
  have hread := strAt_written b h0 (by omega) (Nat.zero_le u.length)
  have hcgi : ¬ ¬ chars "cgi" <:+: u := by simpa [isStatic] using hstatic
  unfold requestParseURI
  rw [hread, List.drop_zero, ok_bind, if_neg hcgi, fileName, if_neg hstatic]
  cases hquery : u.idxOf? 63 with
  | none =>
      obtain ⟨hname, hagain⟩ := putName uninit h0 hlen
      have hargs := putStr_written uninit (s := []) (by decide)
      dsimp only
      rw [hargs, ok_bind, hname, ok_bind]
      exact ⟨_, _, rfl, hagain⟩
  | some ptr =>
      obtain ⟨hptr, -, -⟩ := List.idxOf?_eq_some_iff.mp hquery
      have hcut := strAt_cut b h0 hptr (by omega)
      have hargs := putStr_written uninit (s := u.drop (ptr + 1)) (by rw [List.length_drop]; omega)
      obtain ⟨hname, hagain⟩ := putName uninit (w := u.take ptr)
        (fun h => h0 (List.mem_of_mem_take h)) (by rw [List.length_take]; omega)
      dsimp only
      rw [strAt_written b h0 (by omega) hptr, ok_bind, hargs, ok_bind, hcut]
      change ∃ filename cgiargs, (checked (putStr MAXLINE uninit (chars "." ++ u.take ptr)) >>= _) = _ ∧ _
      rw [hname, ok_bind]
      exact ⟨_, _, rfl, hagain⟩

/-- What `requestHandle` and `requestParseURI` do with the arrays for one request line. -/
def Safe (line : List Byte) : Prop :=
  ∃ f m, requestFields line {} = .ok f ∧ checked (strAt MAXLINE f.method 0) = .ok m ∧
    (EqualFold m (chars "GET") → ∃ r, requestParseURI f.uri uninit uninit = .ok r)

theorem words_facts {m v : List Byte} (h0 : (0 : Byte) ∉ line) (hlen : line.length < MAXLINE)
    (hwords : scanWords 3 line = [m, u, v]) :
    (0 : Byte) ∉ m ∧ m.length < MAXLINE ∧ (0 : Byte) ∉ u ∧ u ≠ [] ∧ u.length + 1 < MAXLINE := by
  obtain ⟨hm, hmlen, hm0⟩ := scanWords_mem (w := m) (n := 3) (s := line) (by simp [hwords])
  obtain ⟨hu, -, hu0⟩ := scanWords_mem (w := u) (n := 3) (s := line) (by simp [hwords])
  have hsum := length_flatten_scanWords 3 line
  have hpos := List.length_pos_iff.mpr hm
  rw [hwords] at hsum
  simp only [List.flatten_cons, List.flatten_nil, List.length_append, List.length_nil] at hsum
  exact ⟨fun h => h0 (hm0 0 h), by omega, fun h => h0 (hu0 0 h), hu, by omega⟩

/-- The arrays are used as they should be just when the line has three words, and does not get a
directory by a name that is too long for `home.html` to be appended. -/
theorem safe_iff (h0 : (0 : Byte) ∉ line) (hlen : line.length < MAXLINE) :
    Safe line ↔ ∃ m u v, scanWords 3 line = [m, u, v] ∧
      (EqualFold m (chars "GET") → isStatic u → ¬ LongDirectory u) := by
  rw [Safe, requestFields_eq h0 hlen]
  constructor
  · rintro ⟨f, m', hf, hm, hparse⟩
    split at hf
    · next m u v hwords =>
        obtain rfl := Except.ok.inj hf
        obtain ⟨hm0, hmlen, hu0, hune, hulen⟩ := words_facts h0 hlen hwords
        rw [strAt_written uninit hm0 hmlen (Nat.zero_le _), List.drop_zero] at hm
        obtain rfl := Except.ok.inj hm
        refine ⟨m, u, v, hwords, fun hget hstatic hlong => ?_⟩
        obtain ⟨r, hr⟩ := hparse hget
        rw [(requestParseURI_static hstatic hu0 hune hulen).1 hlong] at hr
        cases hr
    · cases hf
  · rintro ⟨m, u, v, hwords, hshort⟩
    obtain ⟨hm0, hmlen, hu0, hune, hulen⟩ := words_facts h0 hlen hwords
    rw [hwords]
    refine ⟨_, m, rfl, strAt_written uninit hm0 hmlen (Nat.zero_le _), fun hget => ?_⟩
    by_cases hstatic : isStatic u
    · obtain ⟨filename, cgiargs, hrun, -⟩ :=
        (requestParseURI_static (b := uninit) hstatic hu0 hune hulen).2 (hshort hget hstatic)
      exact ⟨_, hrun⟩
    · obtain ⟨filename, cgiargs, hrun, -⟩ := requestParseURI_dynamic (b := uninit) hstatic hu0 hulen
      exact ⟨_, hrun⟩

theorem safe_get : Safe (chars "GET / HTTP/1.0\r\n") ↔
    ∃ m u v, scanWords 3 (chars "GET / HTTP/1.0\r\n") = [m, u, v] ∧
      (EqualFold m (chars "GET") → isStatic u → ¬ LongDirectory u) :=
  safe_iff (by decide) (by decide)

/-- A line with a method only. -/
theorem method_only_unsafe : ¬ Safe (chars "GET\r\n") := by
  rintro ⟨f, m, hf, -⟩
  rw [requestFields_eq (by decide) (by decide)] at hf
  have hwords : scanWords 3 (chars "GET\r\n") = [chars "GET"] := by decide
  rw [hwords] at hf
  cases hf

/-! ## Complete requests -/

variable {fs : FileSystem} {stack hdrs : Mem} {input : List Received}

/-- The request line, as a string. -/
def requestLine (input : List Received) : List Byte :=
  (cut 10 (MAXLINE - 1) (rio_readinitb input).stream).takeWhile (· ≠ 0)

/-- After the request line the client has sent a line `"\r\n"`. -/
def Complete (input : List Received) : Prop :=
  crlf ∈ (pieces 10 (MAXLINE - 1) (rio_readinitb input).stream).tail

/-- The URI names a file that is to be sent, and of which `mmap` maps nothing. -/
def Unmappable (fs : FileSystem) (u : List Byte) : Prop :=
  isStatic u ∧ ∃ sbuf, fs.stat (fileName u) = some sbuf ∧ sbuf.isReg ∧ sbuf.irusr ∧
    ¬ (0 < (BitVec.ofNat 32 sbuf.st_size).toInt % 2 ^ 64 ∧
      (BitVec.ofNat 32 sbuf.st_size).toInt % 2 ^ 64 ≤ fs.mappable)

theorem requestLine_facts (input : List Received) :
    (0 : Byte) ∉ requestLine input ∧ (requestLine input).length < MAXLINE := by
  constructor
  · intro h
    simpa using List.all_eq_true.mp (List.all_takeWhile (p := (· ≠ (0 : Byte)))) 0 h
  · have hle := (List.takeWhile_sublist (· ≠ (0 : Byte))
      (l := cut 10 (MAXLINE - 1) (rio_readinitb input).stream)).length_le
    have hcut := length_cut_le 10 (MAXLINE - 1) (rio_readinitb input).stream
    exact Nat.lt_of_le_of_lt (Nat.le_trans hle hcut) (by decide)

/-- The buffer holds the request line. -/
theorem strAt_line (hne : (rio_readinitb input).stream ≠ []) :
    strAt MAXLINE (fun x => some ((rio_readlineb (rio_readinitb input) stack MAXLINE).2.1 x)) 0 =
      some (requestLine input) := by
  obtain ⟨hbuf, -⟩ := rio_readlineb_line stack hne
  obtain ⟨h0, hlen⟩ := requestLine_facts input
  obtain ⟨rest, hrest⟩ : ∃ rest, cut 10 (MAXLINE - 1) (rio_readinitb input).stream ++ [0] =
      requestLine input ++ [0] ++ rest := by
    have happ := List.takeWhile_append_dropWhile (p := (· ≠ (0 : Byte)))
      (l := cut 10 (MAXLINE - 1) (rio_readinitb input).stream)
    cases hdrop : (cut 10 (MAXLINE - 1) (rio_readinitb input).stream).dropWhile (· ≠ 0) with
    | nil =>
        rw [hdrop, List.append_nil] at happ
        exact ⟨[], by rw [requestLine, happ, List.append_nil]⟩
    | cons c l =>
        have hc := List.head_dropWhile_not (· ≠ (0 : Byte)) (l := cut 10 (MAXLINE - 1)
          (rio_readinitb input).stream) (by rw [hdrop]; exact List.cons_ne_nil c l)
        simp only [hdrop, List.head_cons] at hc
        obtain rfl : c = 0 := by simpa using hc
        rw [hdrop] at happ
        exact ⟨l ++ [0], by rw [← happ, requestLine]; simp⟩
  refine strFrom_eq h0 hlen fun k hk => ?_
  have hget : (requestLine input ++ [0])[k]? = (requestLine input ++ [0] ++ rest)[k]? := by
    have hin : k < (requestLine input ++ [0]).length := by
      simp
      omega
    rw [List.getElem?_append_left hin]
  obtain ⟨c, hc⟩ : ∃ c, (requestLine input ++ [0])[k]? = some c :=
    ⟨_, List.getElem?_eq_getElem (by simp; omega)⟩
  rw [hc]
  rw [hc, ← hrest] at hget
  rw [hbuf]
  exact congrArg some (storeAt_same stack 0 hget.symm)

theorem requestError_eq {cause : List Byte} {errnum shortmsg longmsg : String}
    (h : requestError cause errnum shortmsg longmsg ≠ .error .fault) :
    requestError cause errnum shortmsg longmsg = .ok () := by
  by_cases hfull : (errorBody cause errnum shortmsg longmsg).length < MAXBUF
  · exact if_pos hfull
  · exact absurd (if_neg hfull) h

theorem serveFile_eq (hfits : serveFile fs (isStatic u) (fileName u) ≠ .error .fault) :
    (Unmappable fs u → serveFile fs (isStatic u) (fileName u) = .error .exit) ∧
      (¬ Unmappable fs u → serveFile fs (isStatic u) (fileName u) = .ok ()) := by
  unfold serveFile at hfits ⊢
  cases hstat : fs.stat (fileName u) with
  | none =>
      rw [hstat] at hfits
      refine ⟨fun h => ?_, fun _ => requestError_eq hfits⟩
      obtain ⟨-, sbuf, hsbuf, -⟩ := h
      rw [hstat] at hsbuf
      cases hsbuf
  | some sbuf =>
      rw [hstat] at hfits
      dsimp only at hfits ⊢
      by_cases hstatic : isStatic u
      · rw [if_pos hstatic] at hfits ⊢
        by_cases hread : sbuf.isReg ∧ sbuf.irusr
        · rw [if_neg (by simp [hread])]
          by_cases hmap : 0 < (BitVec.ofNat 32 sbuf.st_size).toInt % 2 ^ 64 ∧
              (BitVec.ofNat 32 sbuf.st_size).toInt % 2 ^ 64 ≤ fs.mappable
          · refine ⟨fun h => ?_, fun _ => if_pos hmap⟩
            obtain ⟨-, sbuf', hsbuf', -, -, hno⟩ := h
            rw [hstat] at hsbuf'
            obtain rfl := Option.some.inj hsbuf'
            exact absurd hmap hno
          · exact ⟨fun _ => if_neg hmap, fun h =>
              absurd ⟨hstatic, sbuf, hstat, hread.1, hread.2, hmap⟩ h⟩
        · have hdeny : (!sbuf.isReg || !sbuf.irusr) = true := by
            revert hread
            cases sbuf.isReg <;> cases sbuf.irusr <;> simp
          rw [if_pos hdeny] at hfits ⊢
          refine ⟨fun h => ?_, fun _ => requestError_eq hfits⟩
          obtain ⟨-, sbuf', hsbuf', hreg, hrusr, -⟩ := h
          rw [hstat] at hsbuf'
          obtain rfl := Option.some.inj hsbuf'
          exact absurd ⟨hreg, hrusr⟩ hread
      · rw [if_neg hstatic] at hfits ⊢
        refine ⟨fun h => absurd h.1 hstatic, fun _ => ?_⟩
        by_cases hdeny : (!sbuf.isReg || !sbuf.ixusr) = true
        · rw [if_pos hdeny] at hfits ⊢
          exact requestError_eq hfits
        · rw [if_neg hdeny]
          rfl

/-- What is done for a URI once the headers have been read. -/
theorem serve_eq (h0 : (0 : Byte) ∉ u) (hne : u ≠ []) (hlen : u.length + 1 < MAXLINE)
    (hfits : serve fs (written b u) ≠ .error .fault) :
    (Unmappable fs u → serve fs (written b u) = .error .exit) ∧
      (¬ Unmappable fs u → serve fs (written b u) = .ok ()) := by
  obtain ⟨filename, cgiargs, hparse, hname⟩ : ∃ filename cgiargs,
      requestParseURI (written b u) uninit uninit = .ok (isStatic u, filename, cgiargs) ∧
        strAt MAXLINE filename 0 = some (fileName u) := by
    by_cases hstatic : isStatic u
    · obtain ⟨hlong, hshort⟩ := requestParseURI_static (b := b) hstatic h0 hne hlen
      by_cases hdir : LongDirectory u
      · rw [serve, hlong hdir] at hfits
        exact absurd rfl hfits
      · rw [hstatic]
        exact hshort hdir
    · rw [eq_false_of_ne_true hstatic]
      exact requestParseURI_dynamic hstatic h0 hlen
  have hserve : serve fs (written b u) = serveFile fs (isStatic u) (fileName u) := by
    rw [serve, hparse, ok_bind]
    dsimp only
    rw [hname]
    rfl
  rw [hserve] at hfits ⊢
  exact serveFile_eq hfits

/-- A method, and a URI whose file `mmap` cannot map. -/
def Kills (fs : FileSystem) (line : List Byte) : Prop :=
  ∃ m u v, scanWords 3 line = [m, u, v] ∧ EqualFold m (chars "GET") ∧ Unmappable fs u

/-- `requestHandle` comes back to its worker, and no call of `exit` is reached. -/
def ComesBack (fs : FileSystem) (stack hdrs : Mem) (input : List Received) : Prop :=
  (∃ calls, requestHandle fs calls stack hdrs input = .ok ()) ∧
    ∀ calls, requestHandle fs calls stack hdrs input ≠ .error .exit

/-- The request is handled by its three words and by the headers. -/
theorem requestHandle_words (hne : (rio_readinitb input).stream ≠ [])
    (hfits : requestHandle fs 0 stack hdrs input ≠ .error .fault) :
    ∃ m u v, scanWords 3 (requestLine input) = [m, u, v] ∧ ∀ calls,
      requestHandle fs calls stack hdrs input =
        if ¬ EqualFold m (chars "GET") then
          requestError m "501" "Not Implemented" "CS537 Server does not implement this method"
        else
          match requestReadhdrs calls (rio_readlineb (rio_readinitb input) stack MAXLINE).2.2 hdrs with
          | none => .error .running
          | some _ => serve fs (written uninit u) := by
  obtain ⟨h0, hlen⟩ := requestLine_facts input
  have hrun : ∀ calls, requestHandle fs calls stack hdrs input =
      requestFields (requestLine input) {} >>= fun f =>
      checked (strAt MAXLINE f.method 0) >>= fun method =>
      if ¬ EqualFold method (chars "GET") then
        requestError method "501" "Not Implemented" "CS537 Server does not implement this method"
      else
        match requestReadhdrs calls (rio_readlineb (rio_readinitb input) stack MAXLINE).2.2 hdrs with
        | none => .error .running
        | some _ => serve fs f.uri := by
    intro calls
    unfold requestHandle
    dsimp only
    rw [strAt_line hne]
    rfl
  have hfields := requestFields_eq h0 hlen
  rw [hrun] at hfits
  split at hfields
  · next m u v hwords =>
      obtain ⟨hm0, hmlen, -⟩ := words_facts h0 hlen hwords
      refine ⟨m, u, v, hwords, fun calls => ?_⟩
      rw [hrun, hfields, ok_bind, strAt_written uninit hm0 hmlen (Nat.zero_le _), ok_bind,
        List.drop_zero]
  · rw [hfields] at hfits
    exact absurd rfl hfits

/-- After enough turns of the loop that reads the headers the request has its result. -/
theorem requestHandle_eq (hcomplete : Complete input)
    (hfits : ∀ calls, requestHandle fs calls stack hdrs input ≠ .error .fault) :
    ∃ r, (Kills fs (requestLine input) → r = .error .exit) ∧
      (¬ Kills fs (requestLine input) → r = .ok ()) ∧
      (∃ calls, requestHandle fs calls stack hdrs input = r) ∧
      ∀ calls, requestHandle fs calls stack hdrs input = r ∨
        requestHandle fs calls stack hdrs input = .error .running := by
  have hne : (rio_readinitb input).stream ≠ [] := by
    intro hs
    rw [Complete, hs, pieces_nil] at hcomplete
    cases hcomplete
  obtain ⟨m, u, v, hwords, hrun⟩ := requestHandle_words hne (hfits 0)
  obtain ⟨h0, hlen⟩ := requestLine_facts input
  obtain ⟨-, -, hu0, hune, hulen⟩ := words_facts h0 hlen hwords
  have hkills : Kills fs (requestLine input) ↔ EqualFold m (chars "GET") ∧ Unmappable fs u := by
    constructor
    · rintro ⟨m', u', v', hwords', h⟩
      rw [hwords] at hwords'
      obtain ⟨rfl, hrest⟩ := List.cons.inj hwords'
      obtain ⟨rfl, -⟩ := List.cons.inj hrest
      exact h
    · exact fun h => ⟨m, u, v, hwords, h⟩
  rw [hkills]
  by_cases hget : EqualFold m (chars "GET")
  · have hreturns : Returns (rio_readlineb (rio_readinitb input) stack MAXLINE).2.2 hdrs := by
      apply returns_of_mem
      rw [(rio_readlineb_line stack hne).2]
      rw [Complete, pieces_of_ne_nil (by decide) hne] at hcomplete
      exact hcomplete
    obtain ⟨calls, hcalls⟩ := hreturns
    obtain ⟨rp, hrp⟩ := Option.isSome_iff_exists.mp hcalls
    have hdone : requestHandle fs calls stack hdrs input = serve fs (written uninit u) := by
      rw [hrun, if_neg (not_not.mpr hget), hrp]
    obtain ⟨hexit, hok⟩ := serve_eq hu0 hune hulen (hdone ▸ hfits calls)
    refine ⟨_, fun h => hexit h.2, fun h => hok fun hu => h ⟨hget, hu⟩, ⟨calls, hdone⟩, fun calls => ?_⟩
    rw [hrun, if_neg (not_not.mpr hget)]
    cases requestReadhdrs calls (rio_readlineb (rio_readinitb input) stack MAXLINE).2.2 hdrs with
    | none => exact .inr rfl
    | some rp => exact .inl rfl
  · have hrefused : ∀ calls, requestHandle fs calls stack hdrs input = .ok () := by
      intro calls
      have h := hfits calls
      rw [hrun, if_pos hget] at h ⊢
      exact requestError_eq h
    exact ⟨.ok (), fun h => absurd h.1 hget, fun _ => rfl, ⟨0, hrefused 0⟩, fun calls => .inl (hrefused calls)⟩

/-- A complete request whose fields fit their arrays ends in `exit` just when it gets a regular,
readable file of which `mmap` maps nothing, and otherwise the handler returns. -/
theorem comesBack_iff (hcomplete : Complete input)
    (hfits : ∀ calls, requestHandle fs calls stack hdrs input ≠ .error .fault) :
    ComesBack fs stack hdrs input ↔ ¬ Kills fs (requestLine input) := by
  obtain ⟨r, hkills, hserved, ⟨calls, hcalls⟩, hall⟩ := requestHandle_eq hcomplete hfits
  constructor
  · intro h hk
    rw [hkills hk] at hcalls
    exact h.2 calls hcalls
  · intro hk
    rw [hserved hk] at hcalls hall
    refine ⟨⟨calls, hcalls⟩, fun n hn => ?_⟩
    rcases hall n with h | h <;> rw [h] at hn <;> cases hn

/-- A directory with one readable file of `size` bytes. -/
def oneFile (size : ℕ) : FileSystem where
  stat := fun name => if name = chars "./a" then some ⟨true, true, false, size⟩ else none
  mappable := 2 ^ 47

/-- `"GET /a HTTP/1.0\r\n\r\n"`, received at once. -/
def getA : List Received := [.bytes 71 (chars "ET /a HTTP/1.0\r\n\r\n")]

theorem getA_complete : Complete getA := by
  have hs : (rio_readinitb getA).stream = chars "GET /a HTTP/1.0\r\n\r\n" := by decide
  have hcut : cut 10 (MAXLINE - 1) (chars "GET /a HTTP/1.0\r\n\r\n") = chars "GET /a HTTP/1.0\r\n" := rfl
  have hrest : (chars "GET /a HTTP/1.0\r\n\r\n").drop (chars "GET /a HTTP/1.0\r\n").length = crlf := by
    decide
  rw [Complete, hs, pieces_of_ne_nil (by decide) (by decide), hcut, hrest,
    pieces_of_ne_nil (by decide) (by decide)]
  exact List.mem_cons_self

theorem getA_run (fs : FileSystem) (n : ℕ) :
    requestHandle fs 0 (fun _ => 0) (fun _ => 0) getA = .error .running ∧
      requestHandle fs (n + 1) (fun _ => 0) (fun _ => 0) getA = serveFile fs true (chars "./a") :=
  ⟨rfl, rfl⟩

theorem getA_fits {r : Exec Unit} (hserve : serveFile fs true (chars "./a") = r) (hr : r ≠ .error .fault)
    (calls : ℕ) : requestHandle fs calls (fun _ => 0) (fun _ => 0) getA ≠ .error .fault := by
  cases calls with
  | zero =>
      rw [(getA_run fs 0).1]
      exact fun h => nomatch h
  | succ n =>
      rw [(getA_run fs n).2, hserve]
      exact hr

theorem getA_comesBack_iff : ComesBack (oneFile 5) (fun _ => 0) (fun _ => 0) getA ↔
    ¬ Kills (oneFile 5) (requestLine getA) :=
  comesBack_iff getA_complete (getA_fits (r := .ok ()) rfl (fun h => nomatch h))

/-- A request for an empty file ends the server. -/
theorem empty_file_exits : Complete getA ∧
    (∀ calls, requestHandle (oneFile 0) calls (fun _ => 0) (fun _ => 0) getA ≠ .error .fault) ∧
      ¬ ComesBack (oneFile 0) (fun _ => 0) (fun _ => 0) getA := by
  have hserve : serveFile (oneFile 0) true (chars "./a") = .error .exit := rfl
  refine ⟨getA_complete, getA_fits hserve (fun h => nomatch h), fun h => h.2 1 ?_⟩
  rw [(getA_run (oneFile 0) 0).2, hserve]

end

end IntroToOS.WebServer

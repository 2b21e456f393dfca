import Mathlib.Logic.Function.Basic
import SambaProvider.Browsing.BroadcastUtils
import SambaProvider.Configuration.SambaConfiguration
import SambaProvider.Lib.Octets
import SambaProvider.Lib.Pushback
import SambaProvider.Streaming.StreamUrl

/-!
# Requests on one connection

`NanoHTTPD.HTTPSession`: the head of a request is read into a buffer up to
the empty line that ends it, what was read too far is put back, and the
head is decoded. The session stays for the next request, and so do the
headers and the query it has.
-/

namespace SambaProvider

open Lib Lib.Percent

namespace NanoHTTPD

/-! ## Texts -/

/-- The pieces a `StringTokenizer` hands out. -/
def tokens (delims text : List Char) : List (List Char) :=
  (text.splitOnP fun c => delims.contains c).filter (· ≠ [])

/-- The delimiters of a `StringTokenizer` that is given none. -/
def whitespace : List Char := [' ', '\t', '\n', '\r', Char.ofNat 0x0C]

/-- The case of a character, as `equalsIgnoreCase` sees it beside a plain
letter: four letters that are not plain have one for their other case. -/
def ignoreCase (c : Char) : Char :=
  if c.toNat = 0x130 ∨ c.toNat = 0x131 then 'i'
  else if c.toNat = 0x17F then 's'
  else if c.toNat = 0x212A then 'k'
  else c.toLower

/-- `equalsIgnoreCase`, of a text of plain characters and another one. -/
def equalsIgnoreCase (plain text : List Char) : Bool :=
  plain.map ignoreCase == text.map ignoreCase

/-! ## Methods and statuses -/

/-- `Method`. -/
inductive Method
  | get
  | put
  | post
  | delete
  | head
  | options
deriving DecidableEq, Repr

/-- `toString`. -/
def Method.name : Method → String
  | .get => "GET"
  | .put => "PUT"
  | .post => "POST"
  | .delete => "DELETE"
  | .head => "HEAD"
  | .options => "OPTIONS"

/-- `values`. -/
def Method.values : List Method := [.get, .put, .post, .delete, .head, .options]

/-- `lookup`. -/
def Method.lookup (method : List Char) : Option Method :=
  Method.values.find? fun m => equalsIgnoreCase m.name.toList method

/-- `Response.Status`. -/
inductive Status
  | switchProtocol
  | ok
  | created
  | accepted
  | noContent
  | partialContent
  | redirect
  | notModified
  | badRequest
  | unauthorized
  | forbidden
  | notFound
  | methodNotAllowed
  | rangeNotSatisfiable
  | internalError
deriving DecidableEq, Repr

/-- `getDescription`. -/
def Status.description : Status → String
  | .switchProtocol => "101 Switching Protocols"
  | .ok => "200 OK"
  | .created => "201 Created"
  | .accepted => "202 Accepted"
  | .noContent => "204 No Content"
  | .partialContent => "206 Partial Content"
  | .redirect => "301 Moved Permanently"
  | .notModified => "304 Not Modified"
  | .badRequest => "400 Bad Request"
  | .unauthorized => "401 Unauthorized"
  | .forbidden => "403 Forbidden"
  | .notFound => "404 Not Found"
  | .methodNotAllowed => "405 Method Not Allowed"
  | .rangeNotSatisfiable => "416 Requested Range Not Satisfiable"
  | .internalError => "500 Internal Server Error"

/-! ## Decoding a head -/

/-- A map of texts. -/
abbrev Texts := List Char → Option (List Char)

/-- The fields of a session that outlive a request. -/
structure Kept where
  headers : Texts
  queryParameterString : Option (List Char)

/-- What ends a request: a `ResponseException`, or an exception that nothing
answers. -/
inductive Failure
  | response (status : Status) (message : String)
  | uncaught (e : Exn)
deriving DecidableEq, Repr

/-- One parameter of `decodeParms`. -/
def decodeParm (p : Texts) (e : List Char) : Except Exn Texts :=
  if '=' ∈ e then do
    let name ← urlDecode (e.takeWhile (· ≠ '='))
    let value ← urlDecode (e.dropWhile (· ≠ '=')).tail
    return Function.update p (trim name) (some value)
  else do
    let name ← urlDecode e
    return Function.update p (trim name) (some [])

/-- `decodeParms`. -/
def decodeParms (parms : List Char) (p : Texts) : Except Exn Texts :=
  (tokens ['&'] parms).foldlM decodeParm p

/-- What the server is made of: the lower case of the platform, `serve`,
which reads nothing from the connection, and what is sent for an error. -/
structure Server (ρ : Type) where
  toLowerCase : List Char → List Char
  serve : (method : Method) → (uri : List Char) → (parms : Texts) → Kept → Except Exn (Option ρ)
  error : Status → String → ρ

/-- The loop of `decodeHeader` over the lines behind the first. -/
def readHeaders (toLowerCase : List Char → List Char) : List (List Char) → Texts → Texts
  | [], headers => headers
  | line :: lines, headers =>
    if trim line = [] then headers
    else if ':' ∈ line then
      readHeaders toLowerCase lines (Function.update headers
        (toLowerCase (trim (line.takeWhile (· ≠ ':'))))
        (some (trim (line.dropWhile (· ≠ ':')).tail)))
    else readHeaders toLowerCase lines headers

/-- The parameters behind the path of a URI. -/
def queryOf (uri : List Char) : List Char := (uri.dropWhile (· ≠ '?')).tail

/-- The URI of `decodeHeader`, with its parameters decoded. -/
def decodeUri (uri : List Char) : Except Exn (List Char × Texts) := do
  let parms ← if '?' ∈ uri then decodeParms (queryOf uri) fun _ => none else .ok fun _ => none
  let path ← requestUri uri
  return (path, parms)

/-- The fields behind `decodeHeader`; without a version there are no
headers. -/
def Kept.decoded (kept : Kept) (toLowerCase : List Char → List Char) (uri : List Char)
    (version lines : List (List Char)) : Kept where
  headers := if version = [] then kept.headers else readHeaders toLowerCase lines kept.headers
  queryParameterString := if '?' ∈ uri then some (queryOf uri) else kept.queryParameterString

/-- What `decodeHeader` leaves in its maps; the method and the URI are in
`pre`, if there is a line. -/
structure Decoded where
  pre : Option (List Char × List Char)
  parms : Texts
  kept : Kept

/-- `decodeHeader`, of the lines the reader hands out. -/
def decodeHeader (toLowerCase : List Char → List Char) (lines : List (List Char)) (kept : Kept) :
    Except Failure Decoded :=
  match lines with
  | [] => .ok ⟨none, fun _ => none, kept⟩
  | inLine :: lines =>
    match tokens whitespace inLine with
    | [] =>
      .error (.response .badRequest "BAD REQUEST: Syntax error. Usage: GET /example/file.html")
    | [_] =>
      .error (.response .badRequest "BAD REQUEST: Missing URI. Usage: GET /example/file.html")
    | method :: uri :: version =>
      match decodeUri uri with
      | .error e => .error (.uncaught e)
      | .ok (path, parms) =>
        .ok ⟨some (method, path), parms, kept.decoded toLowerCase uri version lines⟩

/-- What becomes of a request: an answer, an answer after which the
connection is closed, or nothing but that. -/
inductive Outcome (ρ : Type)
  | reply (r : ρ)
  | refused (r : ρ)
  | dropped
deriving DecidableEq, Repr

/-- `execute`, once the lines of the head are there. -/
def answer {ρ : Type} (S : Server ρ) (lines : List (List Char)) (kept : Kept) :
    Kept × Outcome ρ :=
  match decodeHeader S.toLowerCase lines kept with
  | .error (.response status message) => (kept, .refused (S.error status message))
  | .error (.uncaught _) => (kept, .dropped)
  | .ok decoded =>
    match decoded.pre.bind fun pre => (Method.lookup pre.1).map fun method => (method, pre.2) with
    | none => (decoded.kept, .refused (S.error .badRequest "BAD REQUEST: Syntax error."))
    | some (method, uri) =>
      match S.serve method uri decoded.parms decoded.kept with
      | .error _ => (decoded.kept, .dropped)
      | .ok none => (decoded.kept, .refused (S.error .internalError
          "SERVER INTERNAL ERROR: Serve() returned a null response."))
      | .ok (some r) => (decoded.kept, .reply r)

/-! ## Reading a head -/

/-- `BUFSIZE`. -/
def bufSize : ℕ := 8192

/-- The line ends that separate the header from the body. -/
def headerMark : List UInt8 := [13, 10, 13, 10]

/-- `findHeaderEnd`, from an index on. -/
def findHeaderEndFrom (splitbyte : ℕ) : List UInt8 → ℕ
  | [] => 0
  | b :: buf =>
    if headerMark <+: b :: buf then splitbyte + 4 else findHeaderEndFrom (splitbyte + 1) buf

/-- `findHeaderEnd`. -/
def findHeaderEnd (buf : List UInt8) : ℕ := findHeaderEndFrom 0 buf

/-- A connection and its session: what is still to be read, what the session
keeps, whether the socket is closed, and what was sent. -/
structure Connection (ρ : Type) where
  inputStream : Pushback UInt8
  kept : Kept
  closed : Bool
  sent : List ρ

namespace Connection

variable {ρ : Type} (S : Server ρ)

/-- The connection with what has become of a request. -/
def finish (c : Connection ρ) (inputStream : Pushback UInt8) (answered : Kept × Outcome ρ) :
    Connection ρ :=
  match answered with
  | (kept, .reply r) => ⟨inputStream, kept, c.closed, c.sent ++ [r]⟩
  | (kept, .refused r) => ⟨inputStream, kept, true, c.sent ++ [r]⟩
  | (kept, .dropped) => ⟨inputStream, kept, true, c.sent⟩

/-- `execute`. -/
def execute (c : Connection ρ) : Connection ρ :=
  match c.inputStream.read bufSize with
  | (.elements bytes, inputStream) =>
    match inputStream.fill (fun buf => 0 < findHeaderEnd buf) bufSize bytes with
    | some (buf, inputStream) =>
      match inputStream.unread bufSize (buf.drop (findHeaderEnd buf)) with
      | some inputStream =>
        c.finish inputStream (answer S (SambaConfiguration.readLines false (decodeUtf8 buf)) c.kept)
      | none => c.finish inputStream (c.kept, .refused (S.error .internalError
          "SERVER INTERNAL ERROR: IOException: Push back buffer is full"))
    -- `SocketTimeoutException`.
    | none => { c with closed := true }
  -- Closed by the client, or "NanoHttpd Shutdown" after a timeout.
  | (_, inputStream) => { c with inputStream := inputStream, closed := true }

/-- The loop around `execute`, so many times. -/
def run : ℕ → Connection ρ → Connection ρ
  | 0, c => c
  | n + 1, c => run n (if c.closed then c else c.execute S)

end Connection

variable {ρ : Type} {S : Server ρ} {buf : List UInt8} {line : List Char}
variable {lines more : List (List Char)} {kept : Kept} {headers : Texts}

/-! ## The end of a head -/

theorem findHeaderEndFrom_eq {splitbyte : ℕ} : findHeaderEndFrom splitbyte buf =
    match cut headerMark buf with
    | some (before, _) => splitbyte + before.length + 4
    | none => 0 := by
  induction buf generalizing splitbyte with
  | nil => rfl
  | cons b buf ih =>
    rw [findHeaderEndFrom, cut]
    split
    · rfl
    · rw [ih]
      cases cut headerMark buf with
      | none => rfl
      | some p =>
        change splitbyte + 1 + p.1.length + 4 = splitbyte + (p.1.length + 1) + 4
        omega

/-- The end of the header is behind the first mark. -/
theorem findHeaderEnd_of_cut {front behind : List UInt8}
    (h : cut headerMark buf = some (front, behind)) : findHeaderEnd buf = front.length + 4 := by
  rw [findHeaderEnd, findHeaderEndFrom_eq, h]
  simp only [Nat.zero_add]

theorem findHeaderEnd_pos_iff : 0 < findHeaderEnd buf ↔ (cut headerMark buf).isSome := by
  rw [findHeaderEnd, findHeaderEndFrom_eq]
  cases cut headerMark buf with
  | none => simp
  | some p => simp

theorem findHeaderEnd_le : findHeaderEnd buf ≤ buf.length := by
  rcases Nat.eq_zero_or_pos (findHeaderEnd buf) with hzero | hpos
  · exact hzero ▸ Nat.zero_le _
  · obtain ⟨⟨front, behind⟩, hcut⟩ := Option.isSome_iff_exists.mp (findHeaderEnd_pos_iff.mp hpos)
    rw [findHeaderEnd_of_cut hcut, cut_eq_some hcut, List.length_append, List.length_append]
    exact Nat.add_le_add_left (Nat.le_add_right 4 _) _

/-- The end of a header stays where it is when more is read. -/
theorem findHeaderEnd_of_isPrefix {p : List UInt8} (hp : p <+: buf) (hpos : 0 < findHeaderEnd p) :
    findHeaderEnd buf = findHeaderEnd p := by
  obtain ⟨more, rfl⟩ := hp
  obtain ⟨⟨front, behind⟩, hcut⟩ := Option.isSome_iff_exists.mp (findHeaderEnd_pos_iff.mp hpos)
  rw [findHeaderEnd_of_cut (cut_append hcut more), findHeaderEnd_of_cut hcut]

/-- What `execute` looks at: the bytes up to the end of the header, or all
that fit where there is none. -/
def headOf (content : List UInt8) : List UInt8 :=
  let buf := content.take bufSize
  if findHeaderEnd buf = 0 then buf else buf.take (findHeaderEnd buf)

/-- What `execute` leaves, or puts back. -/
def behindHead (content : List UInt8) : List UInt8 :=
  content.drop (findHeaderEnd (content.take bufSize))

/-- **The buffer says where the head is**, however much of it was filled. -/
theorem findHeaderEnd_of_stop {rest : List UInt8} (hle : buf.length ≤ bufSize)
    (hstop : 0 < findHeaderEnd buf ∨ rest = [] ∨ buf.length = bufSize) :
    findHeaderEnd ((buf ++ rest).take bufSize) = findHeaderEnd buf := by
  rcases hstop with hpos | rfl | hfull
  · refine findHeaderEnd_of_isPrefix ?_ hpos
    rw [List.prefix_take_iff]
    exact ⟨List.prefix_append _ _, hle⟩
  · rw [List.append_nil, List.take_of_length_le hle]
  · rw [← hfull, List.take_left]

theorem headOf_of_stop {rest : List UInt8} (hle : buf.length ≤ bufSize)
    (hstop : 0 < findHeaderEnd buf ∨ rest = [] ∨ buf.length = bufSize) :
    headOf (buf ++ rest) =
      if findHeaderEnd buf = 0 then buf else buf.take (findHeaderEnd buf) := by
  rw [headOf]
  simp only [findHeaderEnd_of_stop hle hstop]
  by_cases hzero : findHeaderEnd buf = 0
  · rw [if_pos hzero, if_pos hzero]
    rcases hstop with hpos | rfl | hfull
    · exact absurd hzero (Nat.ne_of_gt hpos)
    · rw [List.append_nil, List.take_of_length_le hle]
    · rw [← hfull, List.take_left]
  · rw [if_neg hzero, if_neg hzero, List.take_take,
      Nat.min_eq_left (Nat.le_trans findHeaderEnd_le hle),
      List.take_append_of_le_length findHeaderEnd_le]

/-! ## Heads -/

/-- A line end. -/
def crlf : List Char := ['\r', '\n']

/-- **A head that fits**: a first line and others, none of them empty. -/
structure Head where
  first : List Char
  lines : List (List Char)
  first_oneLine : '\n' ∉ first ∧ '\r' ∉ first
  lines_oneLine : ∀ line ∈ lines, '\n' ∉ line ∧ '\r' ∉ line
  lines_ne : ∀ line ∈ lines, line ≠ []
  length_le : (encodeUtf8 ((first :: lines).flatMap (· ++ crlf) ++ crlf)).length ≤ bufSize

/-- The text of a head. -/
def Head.text (h : Head) : List Char := (h.first :: h.lines).flatMap (· ++ crlf) ++ crlf

/-- The bytes of a head. -/
def Head.bytes (h : Head) : List UInt8 := encodeUtf8 h.text

theorem encodeUtf8_crlf : encodeUtf8 crlf = [13, 10] := by decide

theorem utf8EncodeChar_cr : String.utf8EncodeChar '\r' = [13] := by decide

theorem utf8EncodeChar_lf : String.utf8EncodeChar '\n' = [10] := by decide

/-- A line that is not empty does not begin with a line end. -/
theorem not_headerMark_prefix_line {rest : List UInt8} (hcr : '\r' ∉ line) (hne : line ≠ []) :
    ¬ headerMark <+: 13 :: 10 :: (encodeUtf8 line ++ rest) := by
  intro hmark
  obtain ⟨c, line, rfl⟩ := List.exists_cons_of_ne_nil hne
  obtain ⟨b, bs, hc, -⟩ := utf8EncodeChar_eq_cons c
  rw [encodeUtf8_cons, hc] at hmark
  simp only [headerMark, List.cons_append, List.cons_prefix_cons, true_and] at hmark
  have hb : (13 : UInt8) ∈ encodeUtf8 (c :: line) := by
    rw [encodeUtf8_cons, hc, ← hmark.1]
    exact List.mem_cons_self
  exact hcr ((mem_encodeUtf8 (by decide) utf8EncodeChar_cr).mp hb)

/-- **The mark of a head** is at its end, and nowhere else. -/
theorem cut_lines (hfirst : '\r' ∉ line) (hlines : ∀ l ∈ lines, '\r' ∉ l ∧ l ≠ []) :
    ∃ front, cut headerMark (encodeUtf8 ((line :: lines).flatMap (· ++ crlf) ++ crlf)) =
      some (front, []) := by
  have hnot : (13 : UInt8) ∉ encodeUtf8 line := fun h =>
    hfirst ((mem_encodeUtf8 (by decide) utf8EncodeChar_cr).mp h)
  induction lines generalizing line with
  | nil =>
    refine ⟨encodeUtf8 line, ?_⟩
    rw [List.flatMap_cons, List.flatMap_nil, List.append_nil, List.append_assoc, encodeUtf8_append,
      encodeUtf8_append, encodeUtf8_crlf, headerMark, cut_append_of_not_mem hnot]
    have hcut : cut [13, 10, 13, 10] ([13, 10] ++ [13, 10] : List UInt8) = some ([], []) := by
      decide
    rw [hcut]
    simp only [Option.map_some, List.append_nil]
  | cons l lines ih =>
    obtain ⟨hl, hne⟩ := hlines l List.mem_cons_self
    obtain ⟨front, hfront⟩ := ih hl (fun x hx => hlines x (List.mem_cons_of_mem l hx))
      fun h => hl ((mem_encodeUtf8 (by decide) utf8EncodeChar_cr).mp h)
    refine ⟨encodeUtf8 line ++ 13 :: 10 :: front, ?_⟩
    have hrest : encodeUtf8 ((l :: lines).flatMap (· ++ crlf) ++ crlf) =
        encodeUtf8 l ++ encodeUtf8 (crlf ++ (lines.flatMap (· ++ crlf) ++ crlf)) := by
      rw [List.flatMap_cons, List.append_assoc, List.append_assoc, encodeUtf8_append]
    rw [List.flatMap_cons, List.append_assoc, List.append_assoc, encodeUtf8_append,
      encodeUtf8_append, encodeUtf8_crlf, headerMark, cut_append_of_not_mem hnot, hrest,
      List.cons_append, List.cons_append, List.nil_append, cut,
      if_neg (hrest ▸ not_headerMark_prefix_line hl hne), cut, if_neg (by simp)]
    rw [headerMark] at hfront
    rw [← hrest, hfront]
    rfl

theorem Head.cut_bytes (h : Head) : ∃ front, cut headerMark h.bytes = some (front, []) :=
  cut_lines h.first_oneLine.2 fun l hl => ⟨(h.lines_oneLine l hl).2, h.lines_ne l hl⟩

/-- The end of a head, with whatever behind it, is where it should be. -/
theorem Head.findHeaderEnd_append (h : Head) (extra : List UInt8) :
    findHeaderEnd (h.bytes ++ extra) = h.bytes.length := by
  obtain ⟨front, hcut⟩ := h.cut_bytes
  rw [findHeaderEnd_of_cut (cut_append hcut extra), cut_eq_some hcut, List.append_nil,
    List.length_append]
  rfl

/-- **A head is told by its end**, and by nothing sooner. -/
theorem Head.findHeaderEnd_pos_iff (h : Head) {p extra : List UInt8}
    (hp : p <+: h.bytes ++ extra) : 0 < findHeaderEnd p ↔ h.bytes <+: p := by
  obtain ⟨front, hcut⟩ := h.cut_bytes
  exact NanoHTTPD.findHeaderEnd_pos_iff.trans (isSome_cut_iff hcut hp)

theorem Head.take_append (h : Head) (rest : List UInt8) :
    (h.bytes ++ rest).take bufSize = h.bytes ++ rest.take (bufSize - h.bytes.length) := by
  have hle : h.bytes.length ≤ bufSize := h.length_le
  rw [List.take_append, List.take_of_length_le hle]

theorem Head.length_bytes_pos (h : Head) : 0 < h.bytes.length := by
  obtain ⟨front, hcut⟩ := h.cut_bytes
  rw [cut_eq_some hcut, List.append_nil, List.length_append]
  exact Nat.lt_of_lt_of_le (by decide) (Nat.le_add_left 4 _)

/-- **A head that is there is looked at alone.** -/
theorem Head.headOf_append (h : Head) (rest : List UInt8) : headOf (h.bytes ++ rest) = h.bytes := by
  rw [headOf]
  simp only [h.take_append, h.findHeaderEnd_append, if_neg (Nat.ne_of_gt h.length_bytes_pos),
    List.take_left]

theorem Head.behindHead_append (h : Head) (rest : List UInt8) :
    behindHead (h.bytes ++ rest) = rest := by
  rw [behindHead, h.take_append, h.findHeaderEnd_append, List.drop_left]

/-! ## The lines of a head -/

theorem readLines_crlf (hline : '\n' ∉ line ∧ '\r' ∉ line) (rest : List Char) :
    SambaConfiguration.readLines false (line ++ (crlf ++ rest)) =
      line :: SambaConfiguration.readLines false rest := by
  obtain ⟨hlf, hcr⟩ := hline
  induction line with
  | nil => rfl
  | cons c line ih =>
    rw [List.mem_cons, not_or] at hlf hcr
    rw [List.cons_append, SambaConfiguration.readLines, if_neg (Ne.symm hlf.1),
      if_neg (Ne.symm hcr.1), ih hlf.2 hcr.2]

theorem readLines_lines (hlines : ∀ l ∈ lines, '\n' ∉ l ∧ '\r' ∉ l) (rest : List Char) :
    SambaConfiguration.readLines false (lines.flatMap (· ++ crlf) ++ rest) =
      lines ++ SambaConfiguration.readLines false rest := by
  induction lines with
  | nil => rfl
  | cons l lines ih =>
    rw [List.flatMap_cons, List.append_assoc, List.append_assoc,
      readLines_crlf (hlines l List.mem_cons_self),
      ih fun x hx => hlines x (List.mem_cons_of_mem l hx)]
    rfl

theorem readLines_crlf_ne_nil (skipLF : Bool) (t : List Char) :
    SambaConfiguration.readLines skipLF (t ++ crlf) ≠ [] := by
  induction t generalizing skipLF with
  | nil => exact List.cons_ne_nil _ _
  | cons c t ih =>
    rw [List.cons_append, SambaConfiguration.readLines]
    split
    · split
      · exact ih false
      · exact List.cons_ne_nil _ _
    · split
      · exact List.cons_ne_nil _ _
      · split <;> exact List.cons_ne_nil _ _

/-- **A line end cuts the lines**: what is before it and what is behind it
are read apart. -/
theorem readLines_append_crlf (skipLF : Bool) (t rest : List Char) :
    SambaConfiguration.readLines skipLF (t ++ '\r' :: '\n' :: rest) =
      SambaConfiguration.readLines skipLF (t ++ crlf) ++
        SambaConfiguration.readLines false rest := by
  induction t generalizing skipLF with
  | nil => rfl
  | cons c t ih =>
    rw [List.cons_append, List.cons_append, SambaConfiguration.readLines,
      SambaConfiguration.readLines]
    split
    · split
      · exact ih false
      · rw [ih, List.cons_append]
    · split
      · rw [ih, List.cons_append]
      · obtain ⟨line, lines, hlines⟩ := List.exists_cons_of_ne_nil
          (readLines_crlf_ne_nil false t)
        rw [ih, hlines]
        rfl

/-- **The lines of a head**, whatever has been read behind it. -/
theorem Head.readLines_bytes (h : Head) :
    SambaConfiguration.readLines false (decodeUtf8 h.bytes) = (h.first :: h.lines) ++ [[]] := by
  have hall : ∀ l ∈ h.first :: h.lines, '\n' ∉ l ∧ '\r' ∉ l :=
    List.forall_mem_cons.mpr ⟨h.first_oneLine, h.lines_oneLine⟩
  rw [Head.bytes, decodeUtf8_encodeUtf8, Head.text, readLines_lines hall]
  rfl

theorem readHeaders_append {toLowerCase : List Char → List Char} :
    readHeaders toLowerCase (lines ++ [] :: more) headers =
      readHeaders toLowerCase lines headers := by
  induction lines generalizing headers with
  | nil => rfl
  | cons l lines ih =>
    rw [List.cons_append, readHeaders, readHeaders]
    split
    · rfl
    · split
      · exact ih
      · exact ih

/-- **What a head sets**, and what it leaves. -/
theorem readHeaders_eq {toLowerCase : List Char → List Char} (headers : Texts)
    (name : List Char) :
    readHeaders toLowerCase lines headers name =
      (readHeaders toLowerCase lines (fun _ => none) name).or (headers name) := by
  induction lines generalizing headers with
  | nil => rfl
  | cons l lines ih =>
    rw [readHeaders, readHeaders]
    split
    · rfl
    · split
      · rw [ih, ih (Function.update _ _ _), Option.or_assoc]
        congr 1
        rw [Function.update_apply, Function.update_apply]
        split <;> rfl
      · exact ih headers

/-- Setting the headers once more changes nothing. -/
theorem readHeaders_again {toLowerCase : List Char → List Char} :
    readHeaders toLowerCase lines (readHeaders toLowerCase lines headers) =
      readHeaders toLowerCase lines headers := by
  funext name
  rw [readHeaders_eq _ name, readHeaders_eq headers name]
  cases readHeaders toLowerCase lines (fun _ => none) name <;> rfl

theorem Kept.decoded_again {toLowerCase : List Char → List Char} {uri : List Char}
    {version : List (List Char)} :
    (kept.decoded toLowerCase uri version lines).decoded toLowerCase uri version lines =
      kept.decoded toLowerCase uri version lines := by
  unfold Kept.decoded
  congr 1
  · split
    · rfl
    · exact readHeaders_again
  · split <;> rfl

/-- **Decoding once more** gives the same. -/
theorem decodeHeader_again {toLowerCase : List Char → List Char} {decoded : Decoded}
    (h : decodeHeader toLowerCase lines kept = .ok decoded) :
    decodeHeader toLowerCase lines decoded.kept = .ok decoded := by
  unfold decodeHeader at h ⊢
  split at h
  · cases h
    rfl
  · split at h
    · cases h
    · cases h
    · split at h
      · cases h
      · cases h
        rw [Kept.decoded_again]

/-- **A request that is answered once more** gets the same answer. -/
theorem answer_again {kept' : Kept} {r : ρ} (h : answer S lines kept = (kept', .reply r)) :
    answer S lines kept' = (kept', .reply r) := by
  unfold answer at h ⊢
  cases hdecode : decodeHeader S.toLowerCase lines kept with
  | error e => cases e <;> rw [hdecode] at h <;> cases h
  | ok decoded =>
    have hkept : decoded.kept = kept' := by
      rw [hdecode] at h
      simp only at h
      split at h
      · cases h
      · split at h
        · cases h
        · cases h
        · cases h
          rfl
    rw [hdecode] at h
    rw [← hkept, decodeHeader_again hdecode]
    rw [← hkept] at h
    exact h

/-- **What is behind the empty line** makes no difference to the answer. -/
theorem answer_append : answer S ((line :: lines) ++ [] :: more) kept =
    answer S (line :: lines) kept := by
  have hdecode : decodeHeader S.toLowerCase ((line :: lines) ++ [] :: more) kept =
      decodeHeader S.toLowerCase (line :: lines) kept := by
    unfold decodeHeader Kept.decoded
    simp only [List.cons_append, readHeaders_append]
  rw [answer, answer, hdecode]

/-- **What is read behind a head** makes no difference to the answer. -/
theorem answer_take (hpos : 0 < findHeaderEnd buf) :
    answer S (SambaConfiguration.readLines false (decodeUtf8 (buf.take (findHeaderEnd buf)))) kept =
      answer S (SambaConfiguration.readLines false (decodeUtf8 buf)) kept := by
  obtain ⟨⟨front, behind⟩, hcut⟩ := Option.isSome_iff_exists.mp (findHeaderEnd_pos_iff.mp hpos)
  have hbuf : buf = front ++ 13 :: 10 :: 13 :: 10 :: behind := cut_eq_some hcut
  have htake : buf.take (findHeaderEnd buf) = front ++ 13 :: 10 :: 13 :: 10 :: [] := by
    rw [findHeaderEnd_of_cut hcut, hbuf, List.take_append,
      List.take_of_length_le (Nat.le_add_right _ _), Nat.add_sub_cancel_left]
    rfl
  have htext (after : List UInt8) : ∃ more,
      SambaConfiguration.readLines false (decodeUtf8 (front ++ 13 :: 10 :: 13 :: 10 :: after)) =
        SambaConfiguration.readLines false (decodeUtf8 front ++ crlf) ++ [] :: more := by
    refine ⟨SambaConfiguration.readLines false (decodeUtf8 after), ?_⟩
    have hcr (bs : List UInt8) : decodeUtf8 (13 :: bs) = '\r' :: decodeUtf8 bs :=
      decodeUtf8_append_cons utf8EncodeChar_cr (by decide) [] bs
    have hlf (bs : List UInt8) : decodeUtf8 (10 :: bs) = '\n' :: decodeUtf8 bs :=
      decodeUtf8_append_cons utf8EncodeChar_lf (by decide) [] bs
    rw [decodeUtf8_append_cons utf8EncodeChar_cr (by decide), hlf, hcr, hlf, readLines_append_crlf]
    rfl
  obtain ⟨line, lines, hlines⟩ := List.exists_cons_of_ne_nil
    (readLines_crlf_ne_nil false (decodeUtf8 front))
  obtain ⟨more, hmore⟩ := htext []
  obtain ⟨more', hmore'⟩ := htext behind
  rw [htake, hmore, hlines, answer_append, hbuf, hmore', hlines, answer_append]

/-! ## One request -/

namespace Connection

variable {c : Connection ρ}

/-- Nothing is waited for too long, and what was put back fits. -/
structure Ready (s : Pushback UInt8) : Prop where
  steady : Steady s.wire
  room : s.back.length ≤ bufSize

/-- **What `execute` does** where nothing is waited for too long: at the end
it closes; before, it answers the head it looks at, and leaves what is
behind it. -/
theorem execute_cases (h : Ready c.inputStream) :
    (c.inputStream.content = [] ∧
        c.execute S = { c with inputStream := ⟨[], []⟩, closed := true }) ∨
      c.inputStream.content ≠ [] ∧ ∃ inputStream, Ready inputStream ∧
        inputStream.content = behindHead c.inputStream.content ∧
        c.execute S = c.finish inputStream (answer S (SambaConfiguration.readLines false
          (decodeUtf8 (headOf c.inputStream.content))) c.kept) := by
  rcases Pushback.read_cases h.steady (n := bufSize) (by decide) with
    ⟨hnil, hread⟩ | ⟨bytes, s, hread, hne, hlen, hcontent, hsteady, hback⟩
  · exact .inl ⟨hnil, by rw [execute, hread]⟩
  · have hroom : bytes.length + s.back.length ≤ bufSize := by
      rw [hback h.room]
      exact hlen
    obtain ⟨buf, s', hfill, hsteady', hsame, hpre, hroom', hend⟩ :=
      @Pushback.fill_of_steady _ s (fun buf => 0 < findHeaderEnd buf) bufSize bytes hsteady hroom
    have hle : buf.length ≤ bufSize := Nat.le_trans (Nat.le_add_right _ _) hroom'
    have hstop : 0 < findHeaderEnd buf ∨ s'.content = [] ∨ buf.length = bufSize := by
      simpa using hend
    have hfits : (buf.drop (findHeaderEnd buf)).length + s'.back.length ≤ bufSize := by
      rw [List.length_drop]
      omega
    rw [hcontent, ← hsame, headOf_of_stop hle hstop, behindHead, findHeaderEnd_of_stop hle hstop,
      List.drop_append_of_le_length findHeaderEnd_le]
    refine .inr ⟨fun hnil => ?_, ⟨buf.drop (findHeaderEnd buf) ++ s'.back, s'.wire⟩,
      ⟨hsteady', ?_⟩, ?_, ?_⟩
    · rw [(List.append_eq_nil_iff.mp hnil).1] at hpre
      exact hne (List.prefix_nil.mp hpre)
    · rw [List.length_append]
      exact hfits
    · rw [Pushback.content, Pushback.content, List.append_assoc]
    · rw [execute, hread]
      simp only [hfill, Pushback.unread, if_pos hfits]
      split
      · rfl
      · rename_i hzero
        rw [answer_take (Nat.pos_of_ne_zero hzero)]

end Connection

end NanoHTTPD

end SambaProvider

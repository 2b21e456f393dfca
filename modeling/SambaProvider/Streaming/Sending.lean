import SambaProvider.Lib.Framing
import SambaProvider.Streaming.Respond

/-!
# Responses on the wire

`Response.send`: a status line, headers and a body, whose length is
announced, or which is sent in chunks. A client that keeps to HTTP reads the
responses of a connection back one by one, if each announces what it sends.
-/

namespace SambaProvider

open Lib Lib.Percent

namespace NanoHTTPD

/-! ## Sending -/

/-- The type of the content. -/
def Reply.mimeType : Reply → String
  | .message _ mimeType _ _ => mimeType
  | .served r => r.mimeType

/-- The headers that were added. -/
def Reply.header : Reply → List (String × List Char)
  | .message _ _ _ header => header
  | .served r => r.header

/-- The stream over a text. -/
def textStream (text : String) : InputStream :=
  ⟨text.toUTF8.data.toList, fun _ => text.utf8ByteSize⟩

/-- `data`. -/
def Reply.data : Reply → InputStream
  | .message _ _ text _ => textStream text
  | .served r =>
    match r.data with
    | .text text => textStream text
    | .stream is _ => is

/-- How much `sendAsFixedLength` is to send. -/
def Reply.pending : Reply → ℕ
  | .message _ _ text _ => text.utf8ByteSize
  | .served r =>
    match r.data with
    | .text text => text.utf8ByteSize
    | .stream _ available => available

/-- The length in the header. -/
def Reply.contentLength : Reply → Except Exn ℤ
  | .message _ _ text _ => .ok text.utf8ByteSize
  | .served r => r.contentLength

/-- A response that is to be sent, at a date; its headers are in the order
the map hands them out in. -/
structure Sending where
  requestMethod : Option Method
  reply : Reply
  chunkedTransfer : Bool
  date : List Char
  entries : List (String × List Char)

/-- `headerAlreadySent`. -/
def headerAlreadySent (entries : List (String × List Char)) (name : String) : Bool :=
  entries.any fun e => equalsIgnoreCase name.toList e.1.toList

/-- A line of the header. -/
def fieldLine (name : String) (value : List Char) : List Char :=
  name.toList ++ ':' :: ' ' :: value

namespace Sending

/-- Whether the request is for the head alone. -/
def headOnly (x : Sending) : Bool := x.requestMethod == some .head

/-- Whether the body is sent in chunks. -/
def chunked (x : Sending) : Bool := !x.headOnly && x.chunkedTransfer

def statusLine (x : Sending) : List Char :=
  "HTTP/1.1 ".toList ++ x.reply.status.description.toList ++ [' ']

/-- The lines up to the one that tells how the body ends. -/
def fields (x : Sending) : List (List Char) :=
  [fieldLine "Content-Type" x.reply.mimeType.toList] ++
    (if x.entries.lookup "Date" = none then [fieldLine "Date" x.date] else []) ++
    x.entries.map (fun e => fieldLine e.1 e.2) ++
    (if headerAlreadySent x.entries "connection" then []
      else [fieldLine "Connection" "keep-alive".toList])

/-- The line that tells how the body ends; `StreamResponse` always writes
it. -/
def lengthLine (x : Sending) : Except Exn (List (List Char)) :=
  if x.chunked then .ok [fieldLine "Transfer-Encoding" "chunked".toList]
  else do
    let size ← x.reply.contentLength
    match x.reply with
    | .served ⟨_, _, .stream _ _, _⟩ =>
      return [fieldLine "Content-Length" (toString size).toList]
    | _ =>
      if headerAlreadySent x.entries "content-length" then return []
      else return [fieldLine "Content-Length" (toString size).toList]

end Sending

/-- The size of a chunk, as `%x` writes it. -/
def chunkSize (read : ℕ) : List Char := Nat.toDigits 16 read

/-- `sendAsChunked`. -/
def sendAsChunked (is : InputStream) : List UInt8 :=
  match _h : is.read (16 * 1024) with
  | ([], _) => encodeUtf8 (chunkSize 0 ++ crlf ++ crlf)
  | (b :: bytes, is') =>
    encodeUtf8 (chunkSize (bytes.length + 1) ++ crlf) ++ ((b :: bytes) ++
      (encodeUtf8 crlf ++ sendAsChunked is'))
termination_by is.data.length
decreasing_by
  have hread := congrArg Prod.fst _h
  have hrest := congrArg Prod.snd _h
  simp only [InputStream.read] at hread hrest
  rw [← hrest, List.length_drop]
  have hlen := congrArg List.length hread
  rw [List.length_take, List.length_cons] at hlen
  omega

/-- The lines of the header. -/
def Sending.head (x : Sending) : Except Exn (List (List Char)) := do
  let lengthLine ← x.lengthLine
  return x.statusLine :: (x.fields ++ lengthLine)

/-- What is sent behind the header. -/
def Sending.body (x : Sending) : List UInt8 :=
  if x.chunked then sendAsChunked x.reply.data
  else if x.headOnly then []
  else sendAsFixedLength x.reply.pending x.reply.data

/-- `send`. -/
def Sending.send (x : Sending) : Except Exn (List UInt8) := do
  let head ← x.head
  return encodeUtf8 (head.flatMap (· ++ crlf) ++ crlf) ++ x.body

/-! ## Reading -/

/-- What a client reads. -/
structure Message where
  lines : List (List Char)
  body : List UInt8
deriving DecidableEq, Repr

variable {x : Sending} {is : InputStream} {line : List Char} {lines : List (List Char)}
variable {rest : List UInt8} {fuel n : ℕ} {name : String} {value : List Char}

/-! ## Chunks -/

/-- The name in a line of a header. -/
def lineName (line : List Char) : List Char := line.takeWhile (· ≠ ':')

theorem lineName_fieldLine (h : ':' ∉ name.toList) :
    lineName (fieldLine name value) = name.toList := by
  have hname : ∀ c ∈ name.toList, decide (c ≠ ':') = true := fun c hc =>
    decide_eq_true fun heq => h (heq ▸ hc)
  rw [lineName, fieldLine, List.takeWhile_append_of_pos hname,
    List.takeWhile_cons_of_neg (by decide), List.append_nil]

theorem tail_fieldLine (h : ':' ∉ name.toList) :
    ((fieldLine name value).dropWhile (· ≠ ':')).tail = ' ' :: value := by
  have hname : ∀ c ∈ name.toList, decide (c ≠ ':') = true := fun c hc =>
    decide_eq_true fun heq => h (heq ▸ hc)
  rw [fieldLine, List.dropWhile_append_of_pos hname, List.dropWhile_cons_of_neg (by decide)]
  rfl

theorem dropWhile_blank {l : List Char} (h : ∀ c ∈ l, ¬ c ≤ ' ') : l.dropWhile (· ≤ ' ') = l := by
  cases l with
  | nil => rfl
  | cons c l => rw [List.dropWhile_cons_of_neg (by simpa using h c List.mem_cons_self)]

theorem trim_cons (h : ∀ c ∈ value, ¬ c ≤ ' ') : trim (' ' :: value) = value := by
  rw [trim, List.dropWhile_cons_of_pos (by decide), dropWhile_blank h,
    dropWhile_blank fun c hc => h c (List.mem_reverse.mp hc), List.reverse_reverse]

/-- A text that fits in a line. -/
def IsLine (line : List Char) : Prop := '\n' ∉ line ∧ '\r' ∉ line

theorem isLine_of_all (h : line.all (fun c => c != '\n' && c != '\r') = true) : IsLine line := by
  rw [List.all_eq_true] at h
  exact ⟨fun hmem => by simpa using h _ hmem, fun hmem => by simpa using h _ hmem⟩

/-- The names of the headers that are added. -/
def headerNames : List String := ["Accept-Ranges", "Content-Range", "ETag"]

/-- The names before the line that tells how the body ends. -/
def fieldNames : List String := headerNames ++ ["Content-Type", "Date", "Connection"]

/-- **A response that keeps to the form**: its texts fit in their lines, and
the headers that are added are those of a file. -/
structure Sending.Ok (x : Sending) : Prop where
  mimeType : IsLine x.reply.mimeType.toList
  date : IsLine x.date
  name : ∀ e ∈ x.entries, e.1 ∈ headerNames
  value : ∀ e ∈ x.entries, IsLine e.2

theorem isLine_fieldLine (hname : IsLine name.toList) (hvalue : IsLine value) :
    IsLine (fieldLine name value) := by
  constructor
  · simp [fieldLine, hname.1, hvalue.1]
  · simp [fieldLine, hname.2, hvalue.2]

theorem fieldLine_ne_nil : fieldLine name value ≠ [] :=
  List.append_ne_nil_of_right_ne_nil _ (List.cons_ne_nil _ _)

/-- The lines before the one that tells how the body ends. -/
theorem mem_fields (hok : x.Ok) (h : line ∈ x.fields) :
    ∃ name value, line = fieldLine name value ∧ name ∈ fieldNames ∧ IsLine value := by
  unfold Sending.fields at h
  rw [List.append_assoc, List.append_assoc, List.mem_append, List.mem_append, List.mem_append,
    List.mem_singleton] at h
  rcases h with rfl | h | h | h
  · exact ⟨_, _, rfl, by decide, hok.mimeType⟩
  · split at h
    · rw [List.mem_singleton] at h
      exact ⟨_, _, h, by decide, hok.date⟩
    · cases h
  · obtain ⟨e, he, rfl⟩ := List.mem_map.mp h
    exact ⟨_, _, rfl, List.mem_append_left _ (hok.name e he), hok.value e he⟩
  · split at h
    · cases h
    · rw [List.mem_singleton] at h
      exact ⟨_, _, h, by decide, by constructor <;> simp⟩

/-- What is known of the names. -/
theorem of_mem_fieldNames (h : name ∈ fieldNames) :
    ':' ∉ name.toList ∧ IsLine name.toList ∧
      equalsIgnoreCase "content-length".toList name.toList = false ∧
      equalsIgnoreCase "transfer-encoding".toList name.toList = false := by
  simp only [fieldNames, headerNames, List.cons_append, List.nil_append, List.mem_cons,
    List.not_mem_nil, or_false] at h
  rcases h with rfl | rfl | rfl | rfl | rfl | rfl <;>
    exact ⟨by simp, ⟨by simp, by simp⟩, by decide, by decide⟩

theorem of_statusLine : IsLine x.statusLine ∧
    equalsIgnoreCase "content-length".toList (lineName x.statusLine) = false ∧
    equalsIgnoreCase "transfer-encoding".toList (lineName x.statusLine) = false := by
  unfold Sending.statusLine
  cases x.reply.status <;> exact ⟨⟨by simp [Status.description], by simp [Status.description]⟩,
    by decide, by decide⟩

/-- What a client is to get of a response. -/
def Sending.content (x : Sending) : List UInt8 :=
  if x.headOnly then []
  else if x.chunked then x.reply.data.data
  else sendAsFixedLength x.reply.pending x.reply.data

/-- What a client has read is what was sent. -/
structure Sending.Reads (x : Sending) (m : Message) : Prop where
  lines : x.head = .ok m.lines
  body : m.body = x.content

/-- The line of a length that is announced. -/
def announced (n : ℕ) : List Char := fieldLine "Content-Length" (toString n).toList

theorem lengthLine_of_contentLength (hok : x.Ok) (h : x.chunked = false)
    (hlength : x.reply.contentLength = .ok (n : ℤ)) : x.lengthLine = .ok [announced n] := by
  have hsent : headerAlreadySent x.entries "content-length" = false := by
    rw [headerAlreadySent, List.any_eq_false]
    intro e he
    rw [(of_mem_fieldNames (List.mem_append_left _ (hok.name e he))).2.2.1]
    exact Bool.false_ne_true
  rw [Sending.lengthLine, h, hlength, hsent]
  simp only [Bool.false_eq_true, if_false, bind, Except.bind]
  split <;> rfl

/-- The lines before the one that tells how the body ends. -/
def Sending.front (x : Sending) : List (List Char) := x.statusLine :: x.fields

/-- What is sent, with one line that tells how the body ends. -/
def Sending.sentWith (x : Sending) (line : List Char) : List UInt8 :=
  encodeUtf8 ((x.front ++ [line]).flatMap (· ++ crlf) ++ crlf) ++ x.body

theorem send_of_lengthLine (h : x.lengthLine = .ok [line]) :
    x.head = .ok (x.front ++ [line]) ∧ x.send = .ok (x.sentWith line) := by
  have hhead : x.head = .ok (x.front ++ [line]) := by
    rw [Sending.head, h]
    rfl
  refine ⟨hhead, ?_⟩
  rw [Sending.send, hhead]
  rfl

/-- The lines behind the status fit in their lines. -/
theorem isLine_of_mem_fields (hok : x.Ok) (hline : IsLine line) (hne : line ≠ []) :
    ∀ l ∈ x.fields ++ [line], IsLine l ∧ l ≠ [] := by
  intro l hl
  rcases List.mem_append.mp hl with hl | hl
  · obtain ⟨name, value, rfl, hname, hvalue⟩ := mem_fields hok hl
    exact ⟨isLine_fieldLine (of_mem_fieldNames hname).2.1 hvalue, fieldLine_ne_nil⟩
  · rw [List.mem_singleton.mp hl]
    exact ⟨hline, hne⟩

/-- The line of a length fits in a line. -/
theorem isLine_announced : IsLine (announced n) := by
  have hdigits := (isDigit_of_number (number_toString (n := n))).2
  refine isLine_fieldLine (by constructor <;> simp) ⟨fun hmem => ?_, fun hmem => ?_⟩
  · exact absurd (hdigits _ hmem) (by decide)
  · exact absurd (hdigits _ hmem) (by decide)

variable {P : Streamer}

/-- A response that fits in its lines, and in the header that is added. -/
structure Reply.Ok (r : Reply) : Prop where
  mimeType : IsLine r.mimeType.toList
  name : ∀ e ∈ r.header, e.1 ∈ headerNames
  value : ∀ e ∈ r.header, IsLine e.2

/-- A response that announces what it sends. -/
def Reply.Announces (r : Reply) : Prop :=
  ∃ n : ℕ, r.contentLength = .ok (n : ℤ) ∧ (sendAsFixedLength r.pending r.data).length = n

theorem announces_text {text : String} :
    (sendAsFixedLength text.utf8ByteSize (textStream text)).length = text.utf8ByteSize := by
  rw [sendAsFixedLength_eq]
  exact List.length_take_of_le (Nat.le_refl _)

theorem announces_message {status : Status} {mimeType text : String}
    {header : List (String × List Char)} :
    (Reply.message status mimeType text header).Announces :=
  ⟨text.utf8ByteSize, rfl, announces_text⟩

/-- **What is served announces what it sends**, if the stream gets to where
the range begins. -/
theorem announces_serveSmbFile {hashCode : String → BitVec 32}
    {header : String → Option (List Char)} {file : SmbFile}
    {pace : ℕ → ℕ} {mime : String} {served : SambaProvider.Response} (hpace : longMax ≤ pace 0)
    (h : serveSmbFile hashCode header file pace mime = .ok served) :
    (Reply.served served).Announces := by
  unfold serveSmbFile at h
  cases htag : eTag hashCode file with
  | error e =>
    rw [htag] at h
    cases h
  | ok tag =>
    rw [htag] at h
    simp only [bind, Except.bind] at h
    split at h
    · rename_i hrange
      split at h
      · -- 416: the range begins behind the end
        cases h
        exact ⟨0, rfl, announces_text⟩
      · -- 206: what is left behind the start of the range
        rename_i hlt
        obtain ⟨s, hs⟩ := Int.eq_ofNat_of_zero_le hrange.2
        rw [hs] at hlt h
        have hlt' : s < file.length := by omega
        have hskip : min (pace 0) s = s := by
          have hle := file.length_le
          exact Nat.min_eq_right (Nat.le_trans (Nat.le_of_lt hlt') (Nat.le_trans hle hpace))
        cases h
        refine ⟨file.length - s, ?_, ?_⟩
        · rw [Int.ofNat_sub (Nat.le_of_lt hlt')]
          exact contentLength_ranged (Nat.le_trans (Nat.le_of_lt hlt') file.length_le) rfl
            (@contentRange_partialResponse file pace mime tag
              ((s : ℤ), (skipping (header "range")).2))
        · have hsent : sendAsFixedLength file.length
              ⟨file.content.drop (min (pace 0) s), fun i => pace (i + 1)⟩ =
              file.content.drop s := by
            rw [hskip, sendAsFixedLength_eq]
            exact List.take_of_length_le (List.drop_sublist _ _).length_le
          exact (congrArg List.length hsent).trans List.length_drop
    · split at h
      · -- 304 has no body
        cases h
        exact ⟨0, rfl, announces_text⟩
      · cases h
        refine ⟨file.length, rfl, ?_⟩
        exact congrArg List.length (sendAsFixedLength_eq.trans (List.take_length))

theorem isLine_append {l l' : List Char} (h : IsLine l) (h' : IsLine l') : IsLine (l ++ l') :=
  ⟨by simp [h.1, h'.1], by simp [h.2, h'.2]⟩

theorem isLine_cons {c : Char} {l : List Char} (hc : c ≠ '\n' ∧ c ≠ '\r') (h : IsLine l) :
    IsLine (c :: l) :=
  isLine_append (l := [c]) ⟨by simpa using hc.1.symm, by simpa using hc.2.symm⟩ h

theorem isLine_natCast : IsLine (toString n).toList := by
  have hdigits := (isDigit_of_number (number_toString (n := n))).2
  exact ⟨fun hmem => absurd (hdigits _ hmem) (by decide),
    fun hmem => absurd (hdigits _ hmem) (by decide)⟩

theorem isLine_int (v : ℤ) : IsLine (toString v).toList := by
  cases v with
  | ofNat n => exact isLine_natCast
  | negSucc n =>
    have hneg : toString (Int.negSucc n) = "-" ++ toString (n + 1) := rfl
    rw [hneg, String.toList_append]
    exact isLine_cons (by decide) isLine_natCast

theorem isLine_contentRange {s e : ℤ} : IsLine (contentRange s e n) :=
  isLine_append (isLine_of_all (by decide)) (isLine_append (isLine_int s)
    (isLine_cons (by decide) (isLine_append (isLine_int e)
      (isLine_cons (by decide) isLine_natCast))))

theorem isLine_eTag {hashCode : String → BitVec 32} {file : SmbFile} {tag : List Char}
    (h : eTag hashCode file = .ok tag) : IsLine tag := by
  have hall : ∀ m < 16, '\n' ≠ m.digitChar ∧ '\r' ≠ m.digitChar := by decide
  unfold eTag at h
  split at h
  · cases h
  · cases h
    constructor
    · intro hmem
      obtain ⟨d, hd, heq⟩ := exists_of_mem_toDigits hmem
      exact (hall d hd).1 heq
    · intro hmem
      obtain ⟨d, hd, heq⟩ := exists_of_mem_toDigits hmem
      exact (hall d hd).2 heq

theorem isLine_supportedVideos : IsLine supportedVideos := isLine_of_all (by decide)

theorem isLine_mimePlaintext : IsLine mimePlaintext.toList := isLine_of_all (by decide)

/-- The types of the supported videos fit in a line. -/
theorem isLine_getVideoMimeType {path mime : List Char} (h : getVideoMimeType P path = some mime) :
    IsLine mime := by
  unfold getVideoMimeType at h
  simp only at h
  split at h
  · cases h
  · split at h
    · rename_i hpart
      cases h
      exact isLine_append (by constructor <;> simp) ⟨fun hmem =>
        isLine_supportedVideos.1 (hpart.subset hmem), fun hmem =>
        isLine_supportedVideos.2 (hpart.subset hmem)⟩
    · cases h

theorem ok_addHeader {status : SambaProvider.Status} {mime name : String} {data : Body}
    {header : List (String × List Char)} (h : (Reply.served ⟨status, mime, data, header⟩).Ok)
    (hname : name ∈ headerNames) (hvalue : IsLine value) :
    (Reply.served ⟨status, mime, data, (name, value) :: header⟩).Ok where
  mimeType := h.mimeType
  name := List.forall_mem_cons.mpr ⟨hname, h.name⟩
  value := List.forall_mem_cons.mpr ⟨hvalue, h.value⟩

/-- What is served fits in its lines. -/
theorem ok_serveSmbFile {hashCode : String → BitVec 32}
    {header : String → Option (List Char)} {file : SmbFile}
    {pace : ℕ → ℕ} {mime : String} {served : SambaProvider.Response} (hmime : IsLine mime.toList)
    (h : serveSmbFile hashCode header file pace mime = .ok served) : (Reply.served served).Ok := by
  have hranges (status : SambaProvider.Status) (m : String) (hm : IsLine m.toList) (data : Body) :
      (Reply.served ⟨status, m, data, [("Accept-Ranges", "bytes".toList)]⟩).Ok :=
    ok_addHeader ⟨hm, fun e he => absurd he List.not_mem_nil,
      fun e he => absurd he List.not_mem_nil⟩ (by decide) (isLine_of_all (by decide))
  unfold serveSmbFile at h
  cases htag : eTag hashCode file with
  | error e =>
    rw [htag] at h
    cases h
  | ok tag =>
    have htag' := isLine_eTag htag
    rw [htag] at h
    simp only [bind, Except.bind] at h
    split at h
    · split at h
      · cases h
        exact ok_addHeader (ok_addHeader (hranges _ _ isLine_mimePlaintext _) (by decide)
          isLine_contentRange) (by decide) htag'
      · cases h
        exact ok_addHeader (ok_addHeader (hranges _ _ hmime _) (by decide) isLine_contentRange)
          (by decide) htag'
    · split at h
      · cases h
        exact hranges _ _ hmime _
      · cases h
        exact ok_addHeader (hranges _ _ hmime _) (by decide) htag'

/-- **Every response of the streamer** fits in its lines, and announces what
it sends. -/
theorem ok_respond {headers : Texts} {uri : List Char} {r : Reply}
    (hskip : ∀ smbUri, longMax ≤ P.copyStream smbUri 0) (h : respond P headers uri = .ok r) :
    r.Ok ∧ r.Announces := by
  rcases respond_cases h with rfl | ⟨smbUri, mime, served, rfl, hmime, hserve⟩
  · -- 404, with its one header
    refine ⟨⟨isLine_mimePlaintext, ?_, ?_⟩, announces_message⟩
    · exact List.forall_mem_singleton.mpr (by decide)
    · exact List.forall_mem_singleton.mpr (by constructor <;> simp)
  · have hline : IsLine (String.ofList mime).toList := by
      rw [String.toList_ofList]
      exact isLine_getVideoMimeType hmime
    exact ⟨ok_serveSmbFile hline hserve, announces_serveSmbFile (hskip smbUri) hserve⟩

/-- A streamer with one film. -/
def filmStreamer : Streamer where
  toLowerCase := List.map Char.toLower
  getFileExtensionFromUrl url := (url.reverse.takeWhile (· ≠ '.')).reverse
  hashCode _ _ _ := 0
  smbFile _ := film
  copyStream _ _ := longMax

end NanoHTTPD

end SambaProvider

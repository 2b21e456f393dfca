import SambaProvider.Lib.Resume
import SambaProvider.Streaming.Sending

/-!
# A download that is resumed

A player is given the streaming URL of a film and asks for it on one
connection after another, each time from where it was broken off. Through the
URL, the request, the range, the response and its header, what it has is
always the beginning of the film; and a response that is not broken off
completes it.
-/

namespace SambaProvider

open Lib Lib.Percent Lib.Pushback

namespace NanoHTTPD

/-! ## The player -/

/-- The first line of a request. -/
def requestLine (path : List Char) : List Char :=
  "GET ".toList ++ (path ++ " HTTP/1.1".toList)

/-- The range from a position on, as a request asks for it. -/
def fromPosition (n : ℕ) : List Char := "bytes=".toList ++ ((toString n).toList ++ ['-'])

/-- The header that asks for it. -/
def rangeLine (n : ℕ) : List Char := "Range: ".toList ++ fromPosition n

/-- The request for what a URL stands for, from a position on. -/
def request (wrapped : List Char) (n : ℕ) : List UInt8 :=
  encodeUtf8 ([requestLine (pathOf wrapped), rangeLine n].flatMap (· ++ crlf) ++ crlf)

/-- What an attempt depends on: the pieces a request arrives in, how often
the loop of the session runs, the date and the order of the headers of a
response, and how many of its bytes come through. -/
structure Fetch where
  pieces : List UInt8 → List (Arrival UInt8)
  steady : ∀ bytes, Steady (pieces bytes)
  arrived_pieces : ∀ bytes, arrived (pieces bytes) = bytes
  rounds : ℕ
  rounds_pos : 1 < rounds
  date : List Char
  date_isLine : IsLine date
  order : List (String × List Char) → List (String × List Char)
  order_perm : ∀ header, (order header).Perm header
  through : ℕ

/-- The response as it is sent. -/
def Fetch.sending (f : Fetch) (a : Option Method × Reply) : Sending :=
  ⟨a.1, a.2, false, f.date, f.order a.2.header⟩

/-- The bytes that are sent for a request. -/
def Fetch.response (f : Fetch) (P : Streamer) (bytes : List UInt8) : List UInt8 :=
  ((Connection.start (f.pieces bytes)).run P.server f.rounds).sent.flatMap fun a =>
    match (f.sending a).send with
    | .ok sent => sent
    | .error _ => []

/-- What is behind the header of a response. -/
def bodyOf (stream : List UInt8) : List UInt8 := ((cut headerMark stream).map Prod.snd).getD []

/-- What an attempt brings. -/
def bring (P : Streamer) (wrapped : List Char) (f : Fetch) (n : ℕ) : List UInt8 :=
  bodyOf ((f.response P (request wrapped n)).take f.through)

/-- **A film that can be played**: its URL survives the way, and fits in a
request; it has a name and the type of a video; and its stream skips what it
is asked to. -/
structure Playable (P : Streamer) (x : List Char) : Prop where
  ne_nil : x ≠ []
  plain : ∀ c ∈ fragile, c ∉ x
  short : (encodeUtf8 (contentExportUri ++ Form.encode x)).length ≤ 8000
  video : ∃ mime, getVideoMimeType P (contentExportUri ++ x) = some mime
  named : (P.smbFile (smbUrlLan ++ x)).name ≠ none
  range : P.toLowerCase "Range".toList = "range".toList
  skips : ∀ smbUri, longMax ≤ P.copyStream smbUri 0

variable {P : Streamer} {x path line : List Char} {n : ℕ} {kept : Kept} {file : SmbFile}

/-! ## The request -/

/-- What holds of the characters of a text, one by one. -/
theorem forall_mem_of_all {p : Char → Prop} [DecidablePred p] {cs : List Char}
    (h : cs.all (fun c => decide (p c)) = true) : ∀ c ∈ cs, p c := fun c hc =>
  of_decide_eq_true (List.all_eq_true.mp h c hc)

/-- A text without blanks is a token. -/
theorem tokens_append {token rest : List Char} {blank : Char} (hblank : blank ∈ whitespace)
    (htoken : ∀ c ∈ token, c ∉ whitespace) (hne : token ≠ []) :
    tokens whitespace (token ++ blank :: rest) = token :: tokens whitespace rest := by
  have hall : ∀ c ∈ token, whitespace.contains c = false := fun c hc => by
    simpa using htoken c hc
  rw [tokens, List.splitOnP_append_cons_of_forall_mem hall blank (by simpa using hblank),
    List.filter_cons_of_pos (by simpa using hne), ← tokens]

theorem tokens_self {token : List Char} (htoken : ∀ c ∈ token, c ∉ whitespace) (hne : token ≠ []) :
    tokens whitespace token = [token] := by
  have hall : ∀ c ∈ token, whitespace.contains c = false := fun c hc => by
    simpa using htoken c hc
  rw [tokens, List.splitOnP_eq_singleton hall, List.filter_cons_of_pos (by simpa using hne)]
  rfl

/-- **The first line has three tokens.** -/
theorem tokens_requestLine (hpath : ∀ c ∈ path, c ∉ whitespace) (hne : path ≠ []) :
    tokens whitespace (requestLine path) = ["GET".toList, path, "HTTP/1.1".toList] := by
  have hline : requestLine path = "GET".toList ++ ' ' :: (path ++ ' ' :: "HTTP/1.1".toList) := by
    simp [requestLine]
  rw [hline, tokens_append (by decide) (forall_mem_of_all (by decide)) (by decide),
    tokens_append (by decide) hpath hne, tokens_self (forall_mem_of_all (by decide)) (by decide)]

theorem not_blank_of_isPlain {c : Char} (h : Form.isPlain c = true) : c ∉ whitespace := by
  intro hmem
  simp only [whitespace, List.mem_cons, List.not_mem_nil, or_false] at hmem
  rcases hmem with rfl | rfl | rfl | rfl | rfl <;> exact absurd h (by decide)

/-- The path that is asked for. -/
theorem not_mem_whitespace_path {c : Char} (h : c ∈ contentExportUri ++ Form.encode x) :
    c ∉ whitespace := by
  have hexport : ∀ d ∈ contentExportUri, d ∉ whitespace := forall_mem_of_all (by decide)
  rcases List.mem_append.mp h with h | h
  · exact hexport c h
  · rcases Form.mem_encode h with rfl | rfl | hplain
    · decide
    · decide
    · exact not_blank_of_isPlain hplain

theorem path_ne_nil : contentExportUri ++ Form.encode x ≠ [] :=
  List.append_ne_nil_of_left_ne_nil (by decide) _

/-- **The path is decoded** to what was wrapped. -/
theorem decodeUri_path :
    decodeUri (contentExportUri ++ Form.encode x) = .ok (contentExportUri ++ x, fun _ => none) := by
  have hmark : '?' ∉ contentExportUri ++ Form.encode x := fun h => (ne_of_mem_path h).1 rfl
  have hpath : (contentExportUri ++ Form.encode x).takeWhile (· ≠ '?') =
      contentExportUri ++ Form.encode x :=
    List.takeWhile_eq_self_iff.mpr fun c hc => decide_eq_true (ne_of_mem_path hc).1
  have hdecode : urlDecode (contentExportUri ++ Form.encode x) = .ok (contentExportUri ++ x) := by
    rw [urlDecode, Form.decode_append_encode escapedByte_hexDigit (by decide) (by decide)]
  rw [decodeUri, if_neg hmark, requestUri, hpath, hdecode]
  rfl

/-- No blank stands in the range. -/
theorem not_le_of_mem_fromPosition {c : Char} (h : c ∈ fromPosition n) : ¬ c ≤ ' ' := by
  have hunit : ∀ d ∈ "bytes=".toList, ¬ d ≤ ' ' := forall_mem_of_all (by decide)
  rcases List.mem_append.mp h with h | h
  · exact hunit c h
  · rcases List.mem_append.mp h with h | h
    · have hdigit := (isDigit_of_number (number_toString (n := n))).2 c h
      obtain ⟨hge, -⟩ := Char.isDigit_iff_toNat.mp hdigit
      exact fun hle => absurd (Nat.le_trans hge hle) (by decide)
    · rw [List.mem_singleton.mp h]
      decide

/-- What is not blank stays at the beginning of a text that is trimmed. -/
theorem isPrefix_trim {front rest : List Char} (hfront : ∀ c ∈ front, ¬ c ≤ ' ')
    (hne : front ≠ []) : front <+: trim (front ++ rest) := by
  have hstart : (front ++ rest).dropWhile (· ≤ ' ') = front ++ rest := by
    obtain ⟨c, front, rfl⟩ := List.exists_cons_of_ne_nil hne
    rw [List.cons_append, List.dropWhile_cons_of_neg (by simpa using hfront c List.mem_cons_self)]
  rw [trim, hstart, List.reverse_append, List.dropWhile_append]
  split
  · rw [dropWhile_blank fun c hc => hfront c (List.mem_reverse.mp hc), List.reverse_reverse]
  · rw [List.reverse_append, List.reverse_reverse]
    exact List.prefix_append _ _

/-- **The range is read**, whatever was there before. -/
theorem readHeaders_rangeLine (hP : Playable P x) (headers : Texts) :
    readHeaders P.toLowerCase [rangeLine n] headers "range".toList = some (fromPosition n) := by
  have hline : rangeLine n = fieldLine "Range" (fromPosition n) := rfl
  have hcolon : ':' ∉ "Range".toList := by decide
  have hmem : ':' ∈ rangeLine n := List.mem_append_left _ (by decide)
  have hname : (rangeLine n).takeWhile (· ≠ ':') = "Range".toList := lineName_fieldLine hcolon
  have hvalue : ((rangeLine n).dropWhile (· ≠ ':')).tail = ' ' :: fromPosition n := by
    rw [hline, tail_fieldLine hcolon]
  have htrim : trim (rangeLine n) ≠ [] := by
    have hfront : "Range:".toList <+: trim ("Range:".toList ++ ' ' :: fromPosition n) :=
      isPrefix_trim (forall_mem_of_all (by decide)) (by decide)
    intro hnil
    have hfront' : "Range:".toList <+: trim (rangeLine n) := hfront
    rw [hnil] at hfront'
    exact absurd hfront' (by decide)
  have hrange : trim "Range".toList = "Range".toList := by decide
  rw [readHeaders, if_neg htrim, if_pos hmem, readHeaders, hname, hvalue, hrange, hP.range,
    trim_cons fun c hc => not_le_of_mem_fromPosition hc, Function.update_self]

/-- **The URL survives the way.** -/
theorem cropStreamSmbURL_playable (hP : Playable P x) :
    cropStreamSmbURL (contentExportUri ++ x) = .ok (some (smbUrlLan ++ x)) := by
  have hpercent : '%' ∉ x := hP.plain '%' (by decide)
  have hplus : '+' ∉ x := hP.plain '+' (by decide)
  have hand : '&' ∉ x := hP.plain '&' (by decide)
  have hmapped : x.map Form.plusToSpace ≠ [] := by simpa using hP.ne_nil
  rw [cropStreamSmbURL_append hmapped (urlDecode_of_not_mem hpercent),
    takeWhile_map_eq_self_iff.mpr ⟨hplus, hand⟩]

theorem isSmbUrl_append : isSmbUrl (smbUrlLan ++ x) = true := by
  have hne : smbUrlLan ++ x ≠ [] := List.append_ne_nil_of_left_ne_nil (by decide) _
  have hstart : smbUrlLan <+: trim (smbUrlLan ++ x) :=
    isPrefix_trim (forall_mem_of_all (by decide)) (by decide)
  rw [isSmbUrl, decide_eq_true_iff]
  exact ⟨hne, hstart⟩

/-! ## The head of a request -/

/-- A number is written in as many bytes as it has digits. -/
theorem length_encodeUtf8_toString (hn : n ≤ longMax) :
    (encodeUtf8 (toString n).toList).length ≤ 19 := by
  have hall (cs : List Char) (hcs : ∀ c ∈ cs, c.isDigit = true) :
      (encodeUtf8 cs).length = cs.length := by
    induction cs with
    | nil => rfl
    | cons c cs ih =>
      rw [List.forall_mem_cons] at hcs
      obtain ⟨-, hle⟩ := Char.isDigit_iff_toNat.mp hcs.1
      have hsize : c.utf8Size = 1 := Char.utf8Size_eq_one_iff.mpr (Nat.le_trans hle (by decide))
      rw [encodeUtf8_cons, List.length_append, ih hcs.2, String.length_utf8EncodeChar, hsize,
        List.length_cons, Nat.add_comm]
  have hdigits : (toString n).toList = Nat.toDigits 10 n := Nat.toList_repr
  have hlt : n < 10 ^ 19 := Nat.lt_of_le_of_lt hn (by decide)
  rw [hall _ (isDigit_of_number number_toString).2, hdigits]
  exact (Nat.length_toDigits_le_iff (by decide) (by decide)).mpr hlt

/-- A request fits in the buffer. -/
theorem length_head_le (hshort : (encodeUtf8 path).length ≤ 8000) (hn : n ≤ longMax) :
    (encodeUtf8 ([requestLine path, rangeLine n].flatMap (· ++ crlf) ++ crlf)).length ≤
      bufSize := by
  have hdigits : (encodeUtf8 (toString n).toList).length ≤ 19 := length_encodeUtf8_toString hn
  have hget : (encodeUtf8 "GET ".toList).length = 4 := by decide
  have hversion : (encodeUtf8 " HTTP/1.1".toList).length = 9 := by decide
  have hname : (encodeUtf8 "Range: ".toList).length = 7 := by decide
  have hunit : (encodeUtf8 "bytes=".toList).length = 6 := by decide
  have hdash : (encodeUtf8 ['-']).length = 1 := by decide
  have hend : (encodeUtf8 crlf).length = 2 := by decide
  have hroom : bufSize = 8192 := rfl
  have happend (a b c d : List Char) : (encodeUtf8 (a ++ (b ++ (c ++ d)))).length =
      (encodeUtf8 a).length + ((encodeUtf8 b).length +
        ((encodeUtf8 c).length + (encodeUtf8 d).length)) := by
    simp only [encodeUtf8_append, List.length_append]
  have hfirst := happend "GET ".toList path " HTTP/1.1".toList crlf
  have hline : (encodeUtf8 (rangeLine n)).length = _ :=
    happend "Range: ".toList "bytes=".toList (toString n).toList ['-']
  have hall := happend (requestLine path ++ crlf) (rangeLine n) crlf crlf
  have hget' : requestLine path ++ crlf =
      "GET ".toList ++ (path ++ (" HTTP/1.1".toList ++ crlf)) := by
    rw [requestLine, List.append_assoc, List.append_assoc]
  have htext : [requestLine path, rangeLine n].flatMap (· ++ crlf) ++ crlf =
      (requestLine path ++ crlf) ++ (rangeLine n ++ (crlf ++ crlf)) := by
    rw [List.flatMap_cons, List.flatMap_cons, List.flatMap_nil, List.append_nil,
      List.append_assoc (requestLine path ++ crlf), List.append_assoc (rangeLine n)]
  rw [htext, hall, hget', hfirst]
  omega

theorem isLine_path : IsLine (contentExportUri ++ Form.encode x) :=
  ⟨fun h => not_mem_whitespace_path h (by decide), fun h => not_mem_whitespace_path h (by decide)⟩

/-- The head of a request. -/
def playerHead (hP : Playable P x) (hn : n ≤ longMax) : Head where
  first := requestLine (contentExportUri ++ Form.encode x)
  lines := [rangeLine n]
  first_oneLine := isLine_append (isLine_of_all (by decide))
    (isLine_append isLine_path (isLine_of_all (by decide)))
  lines_oneLine := List.forall_mem_singleton.mpr (isLine_append (isLine_of_all (by decide))
    (isLine_append (isLine_of_all (by decide))
      (isLine_append isLine_natCast (isLine_of_all (by decide)))))
  lines_ne := List.forall_mem_singleton.mpr (List.append_ne_nil_of_left_ne_nil (by decide) _)
  length_le := length_head_le hP.short hn

/-! ## The response -/

/-- What is read of the range. -/
theorem skipping_fromPosition (hn : n ≤ longMax) :
    skipping (some (fromPosition n)) = ((n : ℤ), -1) := by
  have hparse : parseLong (toString n).toList = some (n : ℤ) := by
    rw [parseLong_of_number number_toString, if_pos hn]
  have hnil : parseLong [] = none := by decide
  rw [fromPosition, skipping_eq (not_mem_of_number number_toString), hparse, hnil]
  rfl

/-- **What is served from a position on** is the rest of the file. -/
theorem serveSmbFile_fromPosition {hashCode : String → BitVec 32}
    {header : String → Option (List Char)} {pace : ℕ → ℕ} {mime : String}
    (hname : file.name ≠ none) (hrange : header "range" = some (fromPosition n))
    (hn : n ≤ file.length) (hpace : longMax ≤ pace 0) :
    ∃ served, serveSmbFile hashCode header file pace mime = .ok served ∧
      sendAsFixedLength (Reply.served served).pending (Reply.served served).data =
        file.content.drop n := by
  have hmax : n ≤ longMax := Nat.le_trans hn file.length_le
  obtain ⟨name, hname⟩ := Option.ne_none_iff_exists'.mp hname
  obtain ⟨tag, htag⟩ : ∃ tag, eTag hashCode file = .ok tag := by
    rw [eTag, hname]
    exact ⟨_, rfl⟩
  rcases Nat.lt_or_eq_of_le hn with hlt | heq
  · have hserve := serveSmbFile_range pace mime htag hrange
    rw [skipping_fromPosition hmax] at hserve
    rcases hserve with ⟨hle, -⟩ | ⟨-, hserve⟩
    · exact absurd hlt (by omega)
    · have hskip : min (pace 0) n = n := Nat.min_eq_right (Nat.le_trans hmax hpace)
      have hsent := @sent_partialResponse file pace mime n tag (-1)
      rw [hskip] at hsent
      exact ⟨_, hserve, hsent⟩
  · refine ⟨((createResponse .rangeNotSatisfiable mimePlaintext "").addHeader "Content-Range"
      (contentRange 0 0 file.length)).addHeader "ETag" tag, ?_, ?_⟩
    · unfold serveSmbFile
      rw [htag, hrange]
      simp only [bind, Except.bind, skipping_fromPosition hmax]
      rw [if_pos ⟨rfl, Int.natCast_nonneg n⟩, if_pos (by omega)]
      rfl
    · rw [heq]
      exact sendAsFixedLength_eq.trans List.drop_length.symm

/-- **The answer to a request** on any connection. -/
theorem answer_playable (hP : Playable P x) (hn : n ≤ (P.smbFile (smbUrlLan ++ x)).length)
    (kept : Kept) :
    ∃ kept' r,
      answer P.server [requestLine (contentExportUri ++ Form.encode x), rangeLine n] kept =
        (kept', .reply (some .get, r)) ∧
      r.Ok ∧ r.Announces ∧
        sendAsFixedLength r.pending r.data = (P.smbFile (smbUrlLan ++ x)).content.drop n := by
  obtain ⟨mime, hmime⟩ := hP.video
  have htokens : tokens whitespace (requestLine (contentExportUri ++ Form.encode x)) =
      ["GET".toList, contentExportUri ++ Form.encode x, "HTTP/1.1".toList] :=
    tokens_requestLine (fun c hc => not_mem_whitespace_path hc) path_ne_nil
  have hheaders := readHeaders_rangeLine (n := n) hP kept.headers
  obtain ⟨served, hserve, hsent⟩ : ∃ served,
      serveSmbFile (P.hashCode (readHeaders P.toLowerCase [rangeLine n] kept.headers)
        (contentExportUri ++ x))
        (fun name => readHeaders P.toLowerCase [rangeLine n] kept.headers name.toList)
        (P.smbFile (smbUrlLan ++ x)) (P.copyStream (smbUrlLan ++ x)) (String.ofList mime) =
          .ok served ∧
      sendAsFixedLength (Reply.served served).pending (Reply.served served).data =
        (P.smbFile (smbUrlLan ++ x)).content.drop n :=
    serveSmbFile_fromPosition hP.named hheaders hn (hP.skips _)
  have hrespond : respond P (readHeaders P.toLowerCase [rangeLine n] kept.headers)
      (contentExportUri ++ x) = .ok (.served served) := by
    simp only [respond, cropStreamSmbURL_playable hP, hmime, isSmbUrl_append, bind, Except.bind,
      if_true, hserve]
    rfl
  obtain ⟨hok, hannounces⟩ := ok_respond hP.skips hrespond
  have hmethod : Method.lookup "GET".toList = some .get := by decide
  have hdecoded : kept.decoded P.toLowerCase (contentExportUri ++ Form.encode x)
      ["HTTP/1.1".toList] [rangeLine n] =
      ⟨readHeaders P.toLowerCase [rangeLine n] kept.headers, kept.queryParameterString⟩ := by
    have hmark : '?' ∉ contentExportUri ++ Form.encode x := fun h => (ne_of_mem_path h).1 rfl
    rw [Kept.decoded, if_neg (List.cons_ne_nil _ _), if_neg hmark]
  have hdecode : decodeHeader P.server.toLowerCase
      [requestLine (contentExportUri ++ Form.encode x), rangeLine n] kept =
      .ok ⟨some ("GET".toList, contentExportUri ++ x), fun _ => none,
        ⟨readHeaders P.toLowerCase [rangeLine n] kept.headers, kept.queryParameterString⟩⟩ := by
    simp only [decodeHeader, htokens, decodeUri_path]
    rw [← hdecoded]
    rfl
  refine ⟨⟨readHeaders P.toLowerCase [rangeLine n] kept.headers, kept.queryParameterString⟩,
    .served served, ?_, hok, hannounces, hsent⟩
  rw [answer, hdecode]
  simp only [Option.bind_some, hmethod, Option.map_some, Streamer.server, hrespond, bind,
    Except.bind]
  rfl

/-- **The response to a request**: a header, and the rest of the file. -/
theorem response_eq (hP : Playable P x) (hn : n ≤ (P.smbFile (smbUrlLan ++ x)).length)
    (host : Host) (port : ℕ) (f : Fetch) : ∃ header front,
      cut headerMark header = some (front, []) ∧
      f.response P (request ("http://".toList ++ addressed x host port) n) =
        header ++ (P.smbFile (smbUrlLan ++ x)).content.drop n := by
  have hmax : n ≤ longMax := Nat.le_trans hn (SmbFile.length_le _)
  have hrequest : request ("http://".toList ++ addressed x host port) n =
      (playerHead hP hmax).bytes := by
    rw [request, pathOf_addressed]
    rfl
  obtain ⟨kept', r, hanswer, hok, ⟨m, hlength, hframed⟩, hrest⟩ :=
    answer_playable hP hn ⟨fun _ => none, none⟩
  have hcontent : (Connection.start (f.pieces (playerHead hP hmax).bytes) :
      Connection (Option Method × Reply)).inputStream.content =
      [playerHead hP hmax].flatMap Head.bytes := by
    rw [Connection.start, Pushback.content, f.arrived_pieces, List.flatMap_cons, List.flatMap_nil,
      List.append_nil]
    rfl
  have hsent := (Connection.run_heads (S := P.server) (n := f.rounds)
    (Connection.ready_start (f.steady _)) rfl hcontent f.rounds_pos).2
  have hreplies : Exchange.replies P.server ⟨fun _ => none, none⟩ [playerHead hP hmax] =
      [(some .get, r)] := by
    have hlines : answer P.server ((playerHead hP hmax).first :: (playerHead hP hmax).lines)
        ⟨fun _ => none, none⟩ = (kept', .reply (some .get, r)) := hanswer
    rw [Exchange.replies, hlines]
    rfl
  have hsending : (f.sending (some .get, r)).Ok :=
    ⟨hok.mimeType, f.date_isLine, fun e he => hok.name e ((f.order_perm _).mem_iff.mp he),
      fun e he => hok.value e ((f.order_perm _).mem_iff.mp he)⟩
  have hline : (f.sending (some .get, r)).lengthLine = .ok [announced m] :=
    lengthLine_of_contentLength hsending rfl hlength
  obtain ⟨-, hsend⟩ := send_of_lengthLine hline
  obtain ⟨front, hcut⟩ := cut_lines (of_statusLine (x := f.sending (some .get, r))).1.2
    fun l hl => ⟨(isLine_of_mem_fields hsending isLine_announced fieldLine_ne_nil l hl).1.2,
      (isLine_of_mem_fields hsending isLine_announced fieldLine_ne_nil l hl).2⟩
  refine ⟨_, front, hcut, ?_⟩
  have hbody : (f.sending (some .get, r)).body =
      (P.smbFile (smbUrlLan ++ x)).content.drop n := hrest
  have hone : ((Connection.start (f.pieces (playerHead hP hmax).bytes)).run P.server
      f.rounds).sent = [(some .get, r)] := hsent.trans hreplies
  rw [Fetch.response, hrequest, hone, List.flatMap_singleton, hsend]
  simp only [Sending.sentWith, hbody]
  rfl

/-- What an attempt brings is what comes through of the rest of the file. -/
theorem bring_eq (hP : Playable P x) (hn : n ≤ (P.smbFile (smbUrlLan ++ x)).length)
    (host : Host) (port : ℕ) (f : Fetch) :
    ∃ m, bring P ("http://".toList ++ addressed x host port) f n =
        ((P.smbFile (smbUrlLan ++ x)).content.drop n).take m ∧
      ((f.response P (request ("http://".toList ++ addressed x host port) n)).length ≤ f.through →
        (P.smbFile (smbUrlLan ++ x)).length - n ≤ m) := by
  obtain ⟨header, front, hcut, hresponse⟩ := response_eq hP hn host port f
  refine ⟨f.through - header.length, ?_, fun hle => ?_⟩
  · rw [bring, bodyOf, hresponse, behind_cut_take hcut]
  · rw [hresponse, List.length_append, List.length_drop] at hle
    change header.length + ((P.smbFile (smbUrlLan ++ x)).length - n) ≤ f.through at hle
    omega

/-- **A download that is resumed is right**: whatever the player was given
for the URL of a film, and however its attempts were broken off, what it has
is the beginning of the film; and it is the whole film as soon as a response
came through. -/
theorem resume_bring (hP : Playable P x) {host : Host} {port : ℕ} {wrapped : List Char}
    (hwrapped : wrapStreamSmbURL (smbUrlLan ++ x) host port = some wrapped)
    (fetches : List Fetch) :
    resume (bring P wrapped) fetches <+: (P.smbFile (smbUrlLan ++ x)).content ∧
      ∀ before f after, fetches = before ++ f :: after →
        (f.response P (request wrapped (resume (bring P wrapped) before).length)).length ≤
          f.through →
        resume (bring P wrapped) fetches = (P.smbFile (smbUrlLan ++ x)).content := by
  rw [wrapStreamSmbURL_append] at hwrapped
  obtain rfl := Option.some.inj hwrapped
  have hbrings : Brings (P.smbFile (smbUrlLan ++ x)).content
      (bring P ("http://".toList ++ addressed x host port)) := by
    intro f n hn
    obtain ⟨m, heq, -⟩ := bring_eq hP hn host port f
    rw [heq]
    exact List.take_prefix _ _
  refine ⟨hbrings.isPrefix fetches, fun before f after heq hthrough => ?_⟩
  have hcopy : resume (bring P ("http://".toList ++ addressed x host port)) before <+:
      (P.smbFile (smbUrlLan ++ x)).content := hbrings.isPrefix before
  obtain ⟨m, hbring, hall⟩ := bring_eq hP hcopy.length_le host port f
  rw [heq]
  refine hbrings.complete ?_
  rw [hbring, List.take_of_length_le]
  rw [List.length_drop]
  exact hall hthrough

theorem playable_film : Playable filmStreamer "nas/film.mkv".toList where
  ne_nil := by decide
  plain := forall_mem_of_all (by decide)
  short := by decide
  video := ⟨"video/mkv".toList, by decide⟩
  named := fun h => by cases h
  range := by decide
  skips := fun _ => Nat.le_refl _

/-- The URL the player is given. -/
def filmUrl : List Char := "http://".toList ++ addressed "nas/film.mkv".toList device 8080

/-- An attempt of which so many bytes come through. -/
def attempt (through : ℕ) : Fetch where
  pieces bytes := leave bytes []
  steady _ := Connection.steady_piece
  arrived_pieces _ := by rw [arrived_leave, arrived, List.append_nil]
  rounds := 2
  rounds_pos := by decide
  date := "now".toList
  date_isLine := isLine_of_all (by decide)
  order header := header
  order_perm _ := List.Perm.refl _
  through := through

/-- An attempt that is not broken off, after one that is. -/
def wholeAttempt : Fetch :=
  attempt ((attempt 0).response filmStreamer
    (request filmUrl (resume (bring filmStreamer filmUrl) [attempt 20]).length)).length

theorem resume_bring_film :
    resume (bring filmStreamer filmUrl) [attempt 20, wholeAttempt] = film.content :=
  (resume_bring playable_film wrapStreamSmbURL_append [attempt 20, wholeAttempt]).2
    [attempt 20] wholeAttempt [] rfl (Nat.le_refl _)

end NanoHTTPD

end SambaProvider

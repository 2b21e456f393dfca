import SambaProvider.Streaming.KeepAlive
import SambaProvider.Streaming.NanoStreamer

/-!
# The answers of the streamer

`NanoStreamer.respond`, behind the session of a connection. The headers of a
session are never cleared, so a range that was asked for once is read in
every request that follows; and with the file that `respond` opens as it
stands nothing is ever found.
-/

namespace SambaProvider

open Lib Lib.Percent

namespace NanoHTTPD

/-- A response: a text, or what `serveSmbFile` gives. -/
inductive Reply
  | message (status : Status) (mimeType text : String) (header : List (String × List Char))
  | served (r : SambaProvider.Response)

/-- The status in the line that is sent. -/
def Reply.status : Reply → Status
  | .message status _ _ _ => status
  | .served r =>
    match r.status with
    | .ok => .ok
    | .partialContent => .partialContent
    | .notModified => .notModified
    | .rangeNotSatisfiable => .rangeNotSatisfiable

/-- What the streamer is given: the platform's lower case and the extension
it reads off a URL, the hashes of the builders that are made for a request,
and the file and the stream that `respond` has still to set for an SMB URL. -/
structure Streamer where
  toLowerCase : List Char → List Char
  getFileExtensionFromUrl : List Char → List Char
  hashCode : Texts → List Char → String → BitVec 32
  smbFile : List Char → SmbFile
  copyStream : List Char → ℕ → ℕ

/-- `SUPPORTED_VIDEOS`. -/
def supportedVideos : List Char := "_mp4_3gp_mkv_mov_avi_rmvb_wav_m3u8_".toList

/-- `getVideoMimeType`. -/
def getVideoMimeType (P : Streamer) (path : List Char) : Option (List Char) :=
  let extension := P.getFileExtensionFromUrl path
  if extension = [] then none
  else
    let extension := P.toLowerCase extension
    if extension <:+: supportedVideos then some ("video/".toList ++ extension) else none

/-- `isSmbUrl`. -/
def isSmbUrl (url : List Char) : Bool := url ≠ [] ∧ smbUrlLan <+: trim url

/-- The response where there is no file. -/
def fileNotFound : Reply :=
  .message .notFound mimePlaintext "Error 404, file not found." [("Accept-Ranges", "bytes".toList)]

/-- `respond`. What `cropStreamSmbURL` throws is not caught. -/
def respond (P : Streamer) (headers : Texts) (uri : List Char) : Except Exn Reply := do
  let mimeTypeForFile := getVideoMimeType P uri
  let smbUri ← cropStreamSmbURL uri
  match smbUri, mimeTypeForFile with
  | some smbUri, some mime =>
    if isSmbUrl smbUri then
      match serveSmbFile (P.hashCode headers uri) (fun name => headers name.toList)
        (P.smbFile smbUri) (P.copyStream smbUri) (String.ofList mime) with
      | .ok r => return .served r
      | .error _ => return fileNotFound
    else return fileNotFound
  | _, _ => return fileNotFound

/-- The server with `serve`, and what it sends with the method that was
asked for, if it got so far. -/
def Streamer.server (P : Streamer) : Server (Option Method × Reply) where
  toLowerCase := P.toLowerCase
  serve method uri _ kept := do
    let response ← respond P kept.headers uri
    return some (some method, response)
  error status message := (none, .message status mimePlaintext message [])

/-- What is sent for a request. -/
def Outcome.sent {ρ : Type} : Outcome ρ → List ρ
  | .reply r => [r]
  | .refused r => [r]
  | .dropped => []

/-! ## What a request keeps -/

variable {ρ : Type} {S : Server ρ} {kept kept' : Kept} {outcome : Outcome ρ}
variable {lines : List (List Char)} {name : List Char}

/-- A header that is set stays set. -/
theorem readHeaders_ne_none {toLowerCase : List Char → List Char} {headers : Texts}
    (h : headers name ≠ none) : readHeaders toLowerCase lines headers name ≠ none := by
  obtain ⟨value, hvalue⟩ := Option.ne_none_iff_exists'.mp h
  rw [readHeaders_eq, hvalue]
  cases readHeaders toLowerCase lines (fun _ => none) name <;> exact Option.some_ne_none _

theorem decodeHeader_ne_none {toLowerCase : List Char → List Char} {decoded : Decoded}
    (hdecode : decodeHeader toLowerCase lines kept = .ok decoded)
    (h : kept.headers name ≠ none) : decoded.kept.headers name ≠ none := by
  unfold decodeHeader at hdecode
  split at hdecode
  · cases hdecode
    exact h
  · split at hdecode
    · cases hdecode
    · cases hdecode
    · split at hdecode
      · cases hdecode
      · cases hdecode
        unfold Kept.decoded
        simp only
        split
        · exact h
        · exact readHeaders_ne_none h

/-- The requests that are refused before `serve`. -/
theorem decodeHeader_error {toLowerCase : List Char → List Char} {status : Status}
    {message : String}
    (h : decodeHeader toLowerCase lines kept = .error (.response status message)) :
    status = .badRequest := by
  unfold decodeHeader at h
  split at h
  · cases h
  · split at h
    · cases h
      rfl
    · cases h
      rfl
    · split at h
      · cases h
      · cases h

/-- **What a request does**: a header that is set stays set, and what is
sent is an error or what `serve` gives for the headers that are kept. -/
theorem answer_cases (h : answer S lines kept = (kept', outcome)) :
    (∀ name, kept.headers name ≠ none → kept'.headers name ≠ none) ∧
      (outcome = .dropped ∨ (∃ message, outcome = .refused (S.error .badRequest message)) ∨
        ∃ method uri parms,
          (S.serve method uri parms kept' = .ok none ∧ outcome = .refused (S.error .internalError
            "SERVER INTERNAL ERROR: Serve() returned a null response.")) ∨
          ∃ r, S.serve method uri parms kept' = .ok (some r) ∧ outcome = .reply r) := by
  unfold answer at h
  split at h
  · rename_i status message hdecode
    cases h
    obtain rfl := decodeHeader_error hdecode
    exact ⟨fun _ hname => hname, .inr (.inl ⟨message, rfl⟩)⟩
  · cases h
    exact ⟨fun _ hname => hname, .inl rfl⟩
  · rename_i decoded hdecode
    split at h
    · cases h
      exact ⟨fun _ => decodeHeader_ne_none hdecode, .inr (.inl ⟨_, rfl⟩)⟩
    · rename_i method uri hmethod
      split at h
      · cases h
        exact ⟨fun _ => decodeHeader_ne_none hdecode, .inl rfl⟩
      · rename_i hserve
        cases h
        exact ⟨fun _ => decodeHeader_ne_none hdecode,
          .inr (.inr ⟨method, uri, decoded.parms, .inl ⟨hserve, rfl⟩⟩)⟩
      · rename_i r hserve
        cases h
        exact ⟨fun _ => decodeHeader_ne_none hdecode,
          .inr (.inr ⟨method, uri, decoded.parms, .inr ⟨r, hserve, rfl⟩⟩)⟩

namespace Connection

variable {c : Connection ρ} {I : Connection ρ → Prop} {n : ℕ}

/-- What was put back fits, so that there is always room for it. -/
theorem execute_finish (h : c.inputStream.back.length ≤ bufSize) :
    ((c.execute S).inputStream.back.length ≤ bufSize ∧ (c.execute S).closed = true ∧
        (c.execute S).kept = c.kept ∧ (c.execute S).sent = c.sent) ∨
      ∃ s lines, s.back.length ≤ bufSize ∧ c.execute S = c.finish s (answer S lines c.kept) := by
  rcases hread : c.inputStream.read bufSize with ⟨bytes | - | -, s⟩
  · cases hfill : s.fill (fun buf => 0 < findHeaderEnd buf) bufSize bytes with
    | none =>
      left
      rw [execute, hread]
      simp only [hfill]
      exact ⟨h, trivial, trivial, trivial⟩
    | some filled =>
      obtain ⟨buf, s'⟩ := filled
      have hlen := Pushback.length_le_of_read hread
      have hback := Pushback.length_back_of_read hread
      have hroom := Pushback.length_le_of_fill hfill (by omega)
      have hfits : (buf.drop (findHeaderEnd buf)).length + s'.back.length ≤ bufSize := by
        rw [List.length_drop]
        omega
      refine .inr ⟨⟨buf.drop (findHeaderEnd buf) ++ s'.back, s'.wire⟩,
        SambaConfiguration.readLines false (decodeUtf8 buf), ?_, ?_⟩
      · rw [List.length_append]
        exact hfits
      · rw [execute, hread]
        simp only [hfill, Pushback.unread, if_pos hfits]
  · left
    have hback := Pushback.back_of_read hread fun as h => by cases h
    rw [execute, hread]
    exact ⟨by rw [hback]; exact Nat.zero_le _, rfl, rfl, rfl⟩
  · left
    have hback := Pushback.back_of_read hread fun as h => by cases h
    rw [execute, hread]
    exact ⟨by rw [hback]; exact Nat.zero_le _, rfl, rfl, rfl⟩

theorem finish_eq (s : Pushback UInt8) (answered : Kept × Outcome ρ) :
    (c.finish s answered).inputStream = s ∧ (c.finish s answered).kept = answered.1 ∧
      (c.finish s answered).sent = c.sent ++ answered.2.sent := by
  obtain ⟨kept', r | r | -⟩ := answered
  · exact ⟨rfl, rfl, rfl⟩
  · exact ⟨rfl, rfl, rfl⟩
  · exact ⟨rfl, rfl, (List.append_nil _).symm⟩

/-- **What each request keeps** holds in every run, whatever arrives. -/
theorem run_of_answer {I : Kept → List ρ → Prop}
    (hanswer : ∀ kept sent lines, I kept sent →
      I (answer S lines kept).1 (sent ++ (answer S lines kept).2.sent))
    (hback : c.inputStream.back.length ≤ bufSize) (h : I c.kept c.sent) :
    I (c.run S n).kept (c.run S n).sent := by
  induction n generalizing c with
  | zero => exact h
  | succ n ih =>
    rw [run]
    split
    · exact ih hback h
    · rcases execute_finish (S := S) hback with
        ⟨hback', -, hkept, hsent⟩ | ⟨s, lines, hback', hexecute⟩
      · exact ih hback' (by rw [hkept, hsent]; exact h)
      · obtain ⟨hstream, hkept, hsent⟩ := finish_eq (c := c) s (answer S lines c.kept)
        rw [hexecute]
        refine ih (by rw [hstream]; exact hback') ?_
        rw [hkept, hsent]
        exact hanswer c.kept c.sent lines h

end Connection

/-! ## A range that sticks -/

/-- The answers to a range. -/
def Status.Ranged (status : Status) : Prop :=
  status = .partialContent ∨ status = .rangeNotSatisfiable

/-- The answers where no range is read. -/
def Status.Whole (status : Status) : Prop := status = .ok ∨ status = .notModified

theorem not_ranged_badRequest : ¬ Status.Ranged .badRequest := by
  rintro (h | h) <;> cases h

theorem not_whole_badRequest : ¬ Status.Whole .badRequest := by
  rintro (h | h) <;> cases h

theorem not_ranged_notFound : ¬ fileNotFound.status.Ranged := by
  rintro (h | h) <;> cases h

theorem not_whole_notFound : ¬ fileNotFound.status.Whole := by
  rintro (h | h) <;> cases h

theorem not_ranged_of_whole {status : Status} (h : status.Whole) : ¬ status.Ranged := by
  rcases h with rfl | rfl
  · rintro (h | h) <;> cases h
  · rintro (h | h) <;> cases h

variable {P : Streamer} {headers : Texts} {uri : List Char} {r : Reply}

/-- **A range decides** what a file is served with. -/
theorem ranged_serveSmbFile {hashCode : String → BitVec 32}
    {header : String → Option (List Char)} {file : SmbFile}
    {pace : ℕ → ℕ} {mime : String} {served : SambaProvider.Response}
    (h : serveSmbFile hashCode header file pace mime = .ok served) :
    (header "range" ≠ none ∧ (Reply.served served).status.Ranged) ∨
      (header "range" = none ∧ (Reply.served served).status.Whole) := by
  cases htag : eTag hashCode file with
  | error e =>
    rw [serveSmbFile, htag] at h
    cases h
  | ok tag =>
    cases hrange : header "range" with
    | none =>
      obtain ⟨r, hserve, hstatus⟩ := serveSmbFile_whole pace mime htag hrange
      obtain rfl := Except.ok.inj (hserve.symm.trans h)
      refine .inr ⟨rfl, ?_⟩
      rcases hstatus with hstatus | ⟨hstatus, -⟩
      · exact .inr (by rw [Reply.status, hstatus])
      · exact .inl (by rw [Reply.status, hstatus])
    | some range =>
      refine .inl ⟨Option.some_ne_none _, ?_⟩
      rcases serveSmbFile_range pace mime htag hrange with ⟨-, r, hserve, hstatus⟩ | ⟨-, hserve⟩
      · obtain rfl := Except.ok.inj (hserve.symm.trans h)
        exact .inr (by rw [Reply.status, hstatus])
      · obtain rfl := Except.ok.inj (hserve.symm.trans h)
        exact .inl rfl

/-- **What `respond` gives**: there is no file, or it is served. -/
theorem respond_cases (h : respond P headers uri = .ok r) : r = fileNotFound ∨
    ∃ smbUri mime served, r = .served served ∧ getVideoMimeType P uri = some mime ∧
      serveSmbFile (P.hashCode headers uri) (fun name => headers name.toList) (P.smbFile smbUri)
        (P.copyStream smbUri) (String.ofList mime) = .ok served := by
  unfold respond at h
  cases hcrop : cropStreamSmbURL uri with
  | error e =>
    rw [hcrop] at h
    cases h
  | ok cropped =>
    rw [hcrop] at h
    simp only [bind, Except.bind] at h
    split at h
    · rename_i smbUri mime hmime
      split at h
      · split at h
        · rename_i served hserve
          cases h
          exact .inr ⟨smbUri, mime, served, rfl, hmime, hserve⟩
        · cases h
          exact .inl rfl
      · cases h
        exact .inl rfl
    · cases h
      exact .inl rfl

/-- What `serve` gives. -/
theorem serve_cases {method : Method} {parms : Texts} {kept : Kept}
    {sent : Option (Option Method × Reply)} (h : P.server.serve method uri parms kept = .ok sent) :
    ∃ r, respond P kept.headers uri = .ok r ∧ sent = some (some method, r) := by
  cases hrespond : respond P kept.headers uri with
  | error e =>
    simp only [Streamer.server, hrespond, bind, Except.bind] at h
    cases h
  | ok r =>
    simp only [Streamer.server, hrespond, bind, Except.bind] at h
    cases h
    exact ⟨r, rfl, rfl⟩

/-- **What is sent for a request** to the streamer: nothing, an error, or
what `respond` gives for the headers that are kept. -/
theorem answer_streamer (P : Streamer) (lines : List (List Char)) (kept : Kept) :
    (∀ name, kept.headers name ≠ none → (answer P.server lines kept).1.headers name ≠ none) ∧
      ∀ a ∈ (answer P.server lines kept).2.sent,
        (∃ text, a.2 = .message .badRequest mimePlaintext text []) ∨
          ∃ uri, respond P (answer P.server lines kept).1.headers uri = .ok a.2 := by
  rcases hanswer : answer P.server lines kept with ⟨kept', outcome⟩
  obtain ⟨hkept, rfl | ⟨message, rfl⟩ | ⟨method, uri, parms, ⟨hserve, -⟩ | ⟨r, hserve, rfl⟩⟩⟩ :=
    answer_cases hanswer
  · exact ⟨hkept, fun a ha => absurd ha List.not_mem_nil⟩
  · refine ⟨hkept, fun a ha => .inl ⟨message, ?_⟩⟩
    rw [List.mem_singleton.mp ha]
    rfl
  · obtain ⟨r, -, hsome⟩ := serve_cases hserve
    cases hsome
  · obtain ⟨r', hrespond, hsome⟩ := serve_cases hserve
    obtain rfl := Option.some.inj hsome
    refine ⟨hkept, fun a ha => .inr ⟨uri, ?_⟩⟩
    rw [List.mem_singleton.mp ha]
    exact hrespond

/-- What holds of the headers and of what was sent: a range that was
answered is still there, and nothing is answered without it any more. -/
structure Sticks (kept : Kept) (sent : List (Option Method × Reply)) : Prop where
  range_ne : ∀ a ∈ sent, a.2.status.Ranged → kept.headers "range".toList ≠ none
  pairwise : sent.Pairwise fun a b => a.2.status.Ranged → ¬ b.2.status.Whole

theorem Sticks.answer {sent : List (Option Method × Reply)} (h : Sticks kept sent) :
    Sticks (answer P.server lines kept).1 (sent ++ (answer P.server lines kept).2.sent) := by
  obtain ⟨hkept, hsent⟩ := answer_streamer P lines kept
  have hstatus (a : Option Method × Reply)
      (ha : a ∈ (NanoHTTPD.answer P.server lines kept).2.sent) :
      (a.2.status.Ranged → (NanoHTTPD.answer P.server lines kept).1.headers "range".toList ≠ none) ∧
        (a.2.status.Whole →
          (NanoHTTPD.answer P.server lines kept).1.headers "range".toList = none) := by
    rcases hsent a ha with ⟨text, hbad⟩ | ⟨uri, hrespond⟩
    · rw [hbad]
      exact ⟨fun h => absurd h not_ranged_badRequest, fun h => absurd h not_whole_badRequest⟩
    · rcases respond_cases hrespond with hnone | ⟨smbUri, mime, served, hserved, -, hserve⟩
      · rw [hnone]
        exact ⟨fun h => absurd h not_ranged_notFound, fun h => absurd h not_whole_notFound⟩
      · rw [hserved]
        rcases ranged_serveSmbFile hserve with ⟨hrange, hranged⟩ | ⟨hrange, hwhole⟩
        · exact ⟨fun _ => hrange, fun h => absurd hranged (not_ranged_of_whole h)⟩
        · exact ⟨fun h => absurd h (not_ranged_of_whole hwhole), fun _ => hrange⟩
  constructor
  · intro a ha hranged
    rcases List.mem_append.mp ha with ha | ha
    · exact hkept _ (h.range_ne a ha hranged)
    · exact (hstatus a ha).1 hranged
  · rw [List.pairwise_append]
    refine ⟨h.pairwise, ?_, fun a ha b hb hranged hwhole => ?_⟩
    · cases (NanoHTTPD.answer P.server lines kept).2 with
      | reply r => exact List.pairwise_singleton _ _
      | refused r => exact List.pairwise_singleton _ _
      | dropped => exact List.Pairwise.nil
    · exact hkept _ (h.range_ne a ha hranged) ((hstatus b hb).2 hwhole)

/-- **What the streamer sends** in a run, whatever arrives. -/
theorem mem_sent {wire : List (Arrival UInt8)} {n : ℕ} :
    ∀ a ∈ ((Connection.start wire).run P.server n).sent,
      (∃ text, a.2 = .message .badRequest mimePlaintext text []) ∨
        ∃ headers uri, respond P headers uri = .ok a.2 := by
  refine Connection.run_of_answer (S := P.server) (c := Connection.start wire) (n := n)
    (I := fun _ sent => ∀ a ∈ sent, (∃ text, a.2 = .message .badRequest mimePlaintext text []) ∨
      ∃ headers uri, respond P headers uri = .ok a.2)
    (fun kept sent lines h a ha => ?_) (Nat.zero_le _) fun a ha => absurd ha List.not_mem_nil
  rcases List.mem_append.mp ha with ha | ha
  · exact h a ha
  · rcases (answer_streamer P lines kept).2 a ha with htext | ⟨uri, hrespond⟩
    · exact .inl htext
    · exact .inr ⟨_, uri, hrespond⟩

/-- **A range sticks**: once it is answered on a connection, no request that
follows is answered with a whole file, whatever it asks for. -/
theorem pairwise_sent_of_range (P : Streamer) (wire : List (Arrival UInt8)) (n : ℕ) :
    ((Connection.start wire).run P.server n).sent.Pairwise fun a b =>
      a.2.status.Ranged → ¬ b.2.status.Whole := by
  have hrun := Connection.run_of_answer (S := P.server) (c := Connection.start wire) (n := n)
    (I := Sticks) (fun kept sent lines h => h.answer) (Nat.zero_le _)
    ⟨fun a ha => absurd ha List.not_mem_nil, List.Pairwise.nil⟩
  exact hrun.pairwise

/-! ## A file without a name -/

/-- **No file is served as it stands**: the file that `respond` opens has no
name yet. -/
theorem sent_of_name (P : Streamer) (hname : ∀ smbUri, (P.smbFile smbUri).name = none)
    (wire : List (Arrival UInt8)) (n : ℕ) :
    ∀ a ∈ ((Connection.start wire).run P.server n).sent,
      a.2.status = .badRequest ∨ a.2 = fileNotFound := by
  intro a ha
  rcases mem_sent a ha with ⟨text, htext⟩ | ⟨headers, uri, hrespond⟩
  · exact .inl (by rw [htext]; rfl)
  · rcases respond_cases hrespond with hnone | ⟨smbUri, mime, served, -, -, hserve⟩
    · exact .inr hnone
    · rw [serveSmbFile, eTag, hname] at hserve
      cases hserve

/-- The streamer as it stands. -/
def unfinished : Streamer where
  toLowerCase := List.map Char.toLower
  getFileExtensionFromUrl url := (url.reverse.takeWhile (· ≠ '.')).reverse
  hashCode _ _ _ := 0
  smbFile _ := ⟨none, 0, [0], List.cons_ne_nil 0 [], by decide⟩
  copyStream _ _ := longMax

/-- A request for a film, and the path in it. -/
def filmPath : List Char := "/smb=nas/media/film.mkv".toList

def filmHead : Head where
  first := "GET ".toList ++ (filmPath ++ " HTTP/1.1".toList)
  lines := Connection.getHead.lines
  first_oneLine := by decide
  lines_oneLine := Connection.getHead.lines_oneLine
  lines_ne := Connection.getHead.lines_ne
  length_le := by decide

/-- What is sent for requests that arrive in one piece. -/
theorem sent_heads (heads : List Head) :
    ((Connection.start (leave (heads.flatMap Head.bytes) [])).run P.server
      (heads.length + 1)).sent = Exchange.replies P.server ⟨fun _ => none, none⟩ heads := by
  have hcontent : (Connection.start (leave (heads.flatMap Head.bytes) []) :
      Connection (Option Method × Reply)).view.content = heads.flatMap Head.bytes :=
    Connection.content_piece
  have hrun := (Exchange.run_replies (S := P.server) rfl hcontent (Nat.lt_succ_self _)).2
  rw [← Connection.view_run (Connection.ready_start Connection.steady_piece)] at hrun
  exact hrun

/-- A film's URL is asked for twice: its extension is that of a video and it
stands for a URL of the share, but what is opened there has no name. -/
theorem sent_of_name_film :
    getVideoMimeType unfinished filmPath = some "video/mkv".toList ∧
      (cropStreamSmbURL filmPath).toOption.join.any isSmbUrl = true ∧
      ((Connection.start (leave ([filmHead, filmHead].flatMap Head.bytes) [])).run
        unfinished.server 3).sent = [(some .get, fileNotFound), (some .get, fileNotFound)] ∧
      ∀ a ∈ ((Connection.start (leave ([filmHead, filmHead].flatMap Head.bytes) [])).run
        unfinished.server 3).sent, a.2.status = .badRequest ∨ a.2 = fileNotFound :=
  ⟨by decide +kernel, by decide +kernel, sent_heads [filmHead, filmHead],
    sent_of_name unfinished (fun _ => rfl) _ 3⟩

end NanoHTTPD

end SambaProvider

import Mathlib.Data.List.TakeWhile
import SambaProvider.Base.Numbers
import SambaProvider.Document.SharePath
import SambaProvider.Lib.Pieces

/-!
# Partial content

`NanoStreamer.serveSmbFile` and its `StreamResponse`. The range that was
asked for is read from one header and written to another; the length that
is announced is read from the header that was written, and the bytes that
are sent are those the stream still has. The three agree where the range
runs to the end of the file.
-/

namespace SambaProvider

/-! ## The file and its stream -/

/-- A file that is served, of one byte at least. -/
structure SmbFile where
  name : Option String
  lastModified : ℤ
  content : List UInt8
  content_ne : content ≠ []
  length_le : content.length ≤ longMax

/-- `getLength`. -/
def SmbFile.length (file : SmbFile) : ℕ := file.content.length

/-- A stream over bytes, and how far its coming calls get at most. -/
structure InputStream where
  data : List UInt8
  pace : ℕ → ℕ

namespace InputStream

/-- `skip`. -/
def skip (is : InputStream) (n : ℤ) : ℕ × InputStream :=
  let n := min (is.pace 0) n.toNat
  (min n is.data.length, ⟨is.data.drop n, fun i => is.pace (i + 1)⟩)

/-- `read(buff, 0, len)`: the bytes that were read, one at least, unless
the stream has ended. -/
def read (is : InputStream) (len : ℕ) : List UInt8 × InputStream :=
  let n := max 1 (min (is.pace 0) len)
  (is.data.take n, ⟨is.data.drop n, fun i => is.pace (i + 1)⟩)

end InputStream

/-! ## The response -/

/-- `Response.Status`. -/
inductive Status
  | ok
  | partialContent
  | notModified
  | rangeNotSatisfiable
deriving DecidableEq, Repr

/-- What a response is made of: a text, or a stream with `available`
bytes. -/
inductive Body
  | text (message : String)
  | stream (is : InputStream) (available : ℕ)

structure Response where
  status : Status
  mimeType : String
  data : Body
  header : List (String × List Char)

namespace Response

def addHeader (r : Response) (name : String) (value : List Char) : Response :=
  { r with header := (name, value) :: r.header }

def getHeader (r : Response) (name : String) : Option (List Char) := r.header.lookup name

/-- `sendContentLengthHeaderIfNotAlreadyPresent`: the length that is
announced. -/
def contentLength (r : Response) : Except Exn ℤ :=
  match r.data with
  | .text message => .ok message.utf8ByteSize
  | .stream _ available =>
    match r.getHeader "Content-Range" with
    | none => .ok available
    | some string =>
      let string :=
        if "bytes ".toList <+: string then string.drop "bytes ".length else string
      match split string '-' with
      | [] => .error ⟨.indexOutOfBounds, ""⟩
      | first :: _ =>
        match parseLong first with
        | none => .error ⟨.illegalArgument, ""⟩
        | some start => .ok (available - start)

end Response

/-- The body loop of `sendAsFixedLength`. -/
def sendAsFixedLength (pending : ℕ) (is : InputStream) : List UInt8 :=
  if pending = 0 then []
  else
    match is.read (min pending (16 * 1024)) with
    | ([], _) => []
    | (b :: bytes, is) => (b :: bytes) ++ sendAsFixedLength (pending - (bytes.length + 1)) is
termination_by pending

/-- The bytes that are sent, unless the request is for the head alone. -/
def Response.sent (r : Response) : List UInt8 :=
  match r.data with
  | .text message => message.toUTF8.data.toList
  | .stream is available => sendAsFixedLength available is

/-! ## Serving a file -/

/-- The `ETag` of a file. A builder has the hash of an object, which its text
does not settle: another builder with the same text may have another one. And
it cannot be made of a name that is `null`. -/
def eTag (hashCode : String → BitVec 32) (file : SmbFile) : Except Exn (List Char) :=
  match file.name with
  | none => .error ⟨.nullPointer, ""⟩
  | some name =>
    .ok (Nat.toDigits 16
      (hashCode (name ++ toString file.lastModified ++ toString file.length)).toNat)

/-- `startFrom` and `endAt`, from the `range` header. -/
def skipping (range : Option (List Char)) : ℤ × ℤ :=
  match range with
  | none => (0, -1)
  | some range =>
    if "bytes=".toList <+: range then
      let range := range.drop "bytes=".length
      let before := range.takeWhile (· ≠ '-')
      if '-' ∈ range ∧ before ≠ [] then
        match parseLong before with
        | none => (0, -1)
        | some startFrom =>
          match parseLong (range.dropWhile (· ≠ '-')).tail with
          | none => (startFrom, -1)
          | some endAt => (startFrom, endAt)
      else (0, -1)
    else (0, -1)

/-- `createResponse`. -/
def createResponse (status : Status) (mimeType message : String) : Response :=
  (Response.mk status mimeType (.text message) []).addHeader "Accept-Ranges" "bytes".toList

/-- `createNonBufferedResponse`. -/
def createNonBufferedResponse (status : Status) (mimeType : String) (message : InputStream)
    (len : ℕ) : Response :=
  (Response.mk status mimeType (.stream message len) []).addHeader "Accept-Ranges" "bytes".toList

/-- `MIME_PLAINTEXT`. -/
def mimePlaintext : String := "text/plain"

/-- The text of a range. -/
def contentRange (startFrom endAt : ℤ) (fileLen : ℕ) : List Char :=
  "bytes ".toList ++ ((toString startFrom).toList ++ '-' :: ((toString endAt).toList ++
    '/' :: (toString fileLen).toList))

/-- `serveSmbFile`, of a stream over the whole file. -/
def serveSmbFile (hashCode : String → BitVec 32) (header : String → Option (List Char))
    (file : SmbFile) (pace : ℕ → ℕ) (mime : String) : Except Exn Response := do
  let eTag ← eTag hashCode file
  let is : InputStream := ⟨file.content, pace⟩
  let range := header "range"
  let (startFrom, endAt) := skipping range
  let fileLen := file.length
  if range.isSome ∧ 0 ≤ startFrom then
    if (fileLen : ℤ) ≤ startFrom then
      let res := createResponse .rangeNotSatisfiable mimePlaintext ""
      let res := res.addHeader "Content-Range" (contentRange 0 0 fileLen)
      return res.addHeader "ETag" eTag
    else
      let endAt := if endAt < 0 then (fileLen : ℤ) - 1 else endAt
      let is := (is.skip startFrom).2
      let res := createNonBufferedResponse .partialContent mime is fileLen
      let res := res.addHeader "Content-Range" (contentRange startFrom endAt fileLen)
      return res.addHeader "ETag" eTag
  else if header "if-none-match" = some eTag then
    return createResponse .notModified mime ""
  else
    let res := createNonBufferedResponse .ok mime is fileLen
    return res.addHeader "ETag" eTag

/-! ## What was asked for -/

/-- The first and the last position that a header asks for, of a file of
`length` bytes. -/
def askedRange (length : ℕ) (range : List Char) : Option (ℕ × ℕ) :=
  if "bytes=".toList <+: range ∧ '-' ∈ range.drop "bytes=".length then
    let range := range.drop "bytes=".length
    let first := range.takeWhile (· ≠ '-')
    let last := (range.dropWhile (· ≠ '-')).tail
    match number first, number last with
    | some s, some e => if s ≤ e ∧ s < length then some (s, min e (length - 1)) else none
    | some s, none => if last = [] ∧ s < length then some (s, length - 1) else none
    | none, some n => if first = [] ∧ 0 < n then some (length - min n length, length - 1) else none
    | none, none => none
  else none

/-- **A partial response is consistent**: what is announced, what is sent
and what was asked for are one range. -/
def Honours (file : SmbFile) (range : Option (List Char)) (r : Response) : Prop :=
  ∃ s e : ℕ, r.getHeader "Content-Range" = some (contentRange s e file.length) ∧
    s ≤ e ∧ e < file.length ∧ range.bind (askedRange file.length) = some (s, e) ∧
    r.contentLength = .ok ((e : ℤ) - s + 1) ∧
    r.sent = (file.content.drop s).take (e - s + 1)

/-- **The responses are consistent**, partial or whole. -/
def Consistent (hashCode : String → BitVec 32) (header : String → Option (List Char))
    (file : SmbFile) (pace : ℕ → ℕ) (mime : String) : Prop :=
  ∀ r, serveSmbFile hashCode header file pace mime = .ok r →
    (r.status = .partialContent → Honours file (header "range") r) ∧
    (r.status = .ok → r.contentLength = .ok (file.length : ℤ) ∧ r.sent = file.content)

/-- The ranges that are answered as they should be: one that begins behind
the file, the last bytes where they are all of them, and what runs to the
end of the file, if the stream skips what is before. -/
inductive ToEnd (length : ℕ) (skips : ℕ) : List Char → List Char → Prop
  | behind {first last : List Char} {s : ℤ} (hs : parseLong first = some s)
      (hlen : (length : ℤ) ≤ s) : ToEnd length skips first last
  | suffix {last : List Char} {n : ℕ} (hn : number last = some n) (hlen : length ≤ n) :
      ToEnd length skips [] last
  | fromFirst {first : List Char} {s : ℕ} (hs : number first = some s) (hlen : s < length)
      (hskip : s ≤ skips) : ToEnd length skips first []
  | fromFirstToLast {first last : List Char} {s e : ℕ} (hs : number first = some s)
      (hlen : s < length) (hskip : s ≤ skips) (he : number last = some e)
      (hend : e + 1 = length ∨ longMax < e) : ToEnd length skips first last

variable {hashCode : String → BitVec 32}
variable {header : String → Option (List Char)} {file : SmbFile} {pace : ℕ → ℕ} {mime : String}
variable {is : InputStream} {pending s : ℕ} {range first last tag : List Char} {e : ℤ}

/-! ## The body -/

/-- The first bytes, and as many of the others as are still wanted. -/
theorem take_append_take_drop (data : List UInt8) {n : ℕ} (h : n ≤ pending) :
    data.take n ++ (data.drop n).take (pending - (data.take n).length) = data.take pending := by
  rcases Nat.le_total n data.length with hn | hn
  · obtain ⟨m, rfl⟩ := Nat.exists_eq_add_of_le h
    rw [List.length_take_of_le hn, Nat.add_sub_cancel_left, List.take_add]
  · rw [List.drop_of_length_le hn, List.take_of_length_le hn,
      List.take_of_length_le (Nat.le_trans hn h), List.take_nil, List.append_nil]

/-- **The body** is what remains in the stream, however it is read. -/
theorem sendAsFixedLength_eq : sendAsFixedLength pending is = is.data.take pending := by
  induction pending using Nat.strongRecOn generalizing is with
  | ind pending ih =>
    rw [sendAsFixedLength]
    split
    · rename_i hzero
      rw [hzero, List.take_zero]
    · rename_i hpos
      obtain ⟨n, hn, hle, hread⟩ : ∃ n, 1 ≤ n ∧ n ≤ pending ∧
          is.read (min pending (16 * 1024)) =
            (is.data.take n, ⟨is.data.drop n, fun i => is.pace (i + 1)⟩) :=
        ⟨max 1 (min (is.pace 0) (min pending (16 * 1024))), by omega, by omega, rfl⟩
      have hrest := take_append_take_drop is.data hle
      rw [hread]
      cases htake : is.data.take n with
      | nil =>
        have hdata : is.data = [] := by
          rcases List.take_eq_nil_iff.mp htake with hzero | hnil
          · omega
          · exact hnil
        rw [hdata, List.take_nil]
      | cons b bytes =>
        rw [htake, List.length_cons] at hrest
        have hlt : pending - (bytes.length + 1) < pending := by omega
        rw [← hrest]
        exact congrArg (b :: bytes ++ ·) (ih _ hlt)

/-! ## The length -/

/-- The position that is read back from the text of a range. -/
theorem head?_split_range : (split ((toString s).toList ++ '-' :: last) '-').head? =
    some (toString s).toList := by
  have hnot : '-' ∉ (toString s).toList := not_mem_of_number number_toString
  have hne : (toString s).toList ≠ [] := (isDigit_of_number number_toString).1
  rw [split, if_pos (List.mem_append_right _ List.mem_cons_self),
    List.splitOn_append_cons_self_of_not_mem hnot]
  exact congrArg List.head? (Lib.dropTrailing_cons hne)

/-- **The length that is announced** runs from the position to the end. -/
theorem contentLength_ranged (hs : s ≤ longMax) {r : Response} {available : ℕ}
    (hdata : r.data = .stream is available)
    (hrange : r.getHeader "Content-Range" = some (contentRange s e pending)) :
    r.contentLength = .ok ((available : ℤ) - s) := by
  have hdrop : (contentRange s e pending).drop "bytes ".length =
      (toString s).toList ++ '-' :: ((toString e).toList ++ '/' :: (toString pending).toList) := by
    exact List.drop_left
  have hstart : "bytes ".toList <+: contentRange s e pending := List.prefix_append _ _
  have hparse : parseLong (toString s).toList = some (s : ℤ) := by
    rw [parseLong_of_number number_toString, if_pos hs]
  have hhead := @head?_split_range s ((toString e).toList ++ '/' :: (toString pending).toList)
  rw [Response.contentLength, hdata, hrange]
  simp only
  rw [if_pos hstart, hdrop]
  split
  · rename_i hnil
    rw [hnil] at hhead
    cases hhead
  · rename_i first rest hsplit
    rw [hsplit] at hhead
    obtain rfl := Option.some.inj hhead
    rw [hparse]

/-! ## The range -/

/-- What is skipped is not negative. -/
theorem skipping_nonneg : 0 ≤ (skipping (some range)).1 := by
  unfold skipping
  simp only
  split
  · split
    · split
      · exact Int.le_refl 0
      · rename_i startFrom hparse
        have hstart : 0 ≤ startFrom := nonneg_of_parseLong hparse fun hmem => by
          simpa using List.mem_takeWhile_imp hmem
        split
        · exact hstart
        · exact hstart
    · exact Int.le_refl 0
  · exact Int.le_refl 0

/-- The response with a range. -/
def partialResponse (file : SmbFile) (pace : ℕ → ℕ) (mime : String) (tag : List Char)
    (skipped : ℤ × ℤ) : Response :=
  let endAt := if skipped.2 < 0 then (file.length : ℤ) - 1 else skipped.2
  let is : InputStream := ((InputStream.mk file.content pace).skip skipped.1).2
  ((createNonBufferedResponse .partialContent mime is file.length).addHeader "Content-Range"
    (contentRange skipped.1 endAt file.length)).addHeader "ETag" tag

/-- **What is served** where a range is asked for. -/
theorem serveSmbFile_range (pace : ℕ → ℕ) (mime : String) (htag : eTag hashCode file = .ok tag)
    (hrange : header "range" = some range) :
    ((file.length : ℤ) ≤ (skipping (some range)).1 ∧
        ∃ r, serveSmbFile hashCode header file pace mime = .ok r ∧
          r.status = .rangeNotSatisfiable) ∨
      ((skipping (some range)).1 < file.length ∧ serveSmbFile hashCode header file pace mime =
        .ok (partialResponse file pace mime tag (skipping (some range)))) := by
  have hsome : (some range).isSome ∧ 0 ≤ (skipping (some range)).1 := ⟨rfl, skipping_nonneg⟩
  unfold serveSmbFile
  rw [htag, hrange]
  simp only [bind, Except.bind]
  rw [if_pos hsome]
  split
  · rename_i hle
    exact .inl ⟨hle, _, rfl, rfl⟩
  · rename_i hlt
    exact .inr ⟨Int.lt_of_not_ge hlt, rfl⟩

/-- **What is served** where none is. -/
theorem serveSmbFile_whole (pace : ℕ → ℕ) (mime : String) (htag : eTag hashCode file = .ok tag)
    (hrange : header "range" = none) :
    ∃ r, serveSmbFile hashCode header file pace mime = .ok r ∧
      (r.status = .notModified ∨ r.status = .ok ∧
        r.contentLength = .ok (file.length : ℤ) ∧ r.sent = file.content) := by
  unfold serveSmbFile
  rw [htag, hrange]
  simp only [bind, Except.bind]
  rw [if_neg (fun h => by cases h.1)]
  split
  · exact ⟨_, rfl, .inl rfl⟩
  · refine ⟨_, rfl, .inr ⟨rfl, rfl, ?_⟩⟩
    exact sendAsFixedLength_eq.trans (List.take_length)

/-! ## Where the parts agree -/

theorem SmbFile.length_pos (file : SmbFile) : 0 < file.length :=
  List.length_pos_of_ne_nil file.content_ne

theorem contentRange_partialResponse {skipped : ℤ × ℤ} :
    (partialResponse file pace mime tag skipped).getHeader "Content-Range" =
      some (contentRange skipped.1 (if skipped.2 < 0 then (file.length : ℤ) - 1 else skipped.2)
        file.length) := rfl

/-- What is sent, from the position the stream has come to. -/
theorem sent_partialResponse : (partialResponse file pace mime tag ((s : ℤ), e)).sent =
    file.content.drop (min (pace 0) s) := by
  refine sendAsFixedLength_eq.trans ?_
  refine List.take_of_length_le ?_
  exact (List.drop_sublist _ _).length_le

/-- The range that was read is refused, or it is the rest of the file that
was asked for and read, and the stream gets to where it begins. -/
def AgreesWith (length skips : ℕ) (range : List Char) : Prop :=
  (length : ℤ) ≤ (skipping (some range)).1 ∨
    ∃ s : ℕ, (skipping (some range)).1 = s ∧ s < length ∧
      askedRange length range = some (s, length - 1) ∧
      ((skipping (some range)).2 < 0 ∨ (skipping (some range)).2 = (length : ℤ) - 1) ∧ s ≤ skips

/-- **A partial response is consistent** where what was asked for is the
rest of the file, the end that was read is that of the file, and the
stream is where the range begins. -/
theorem honours_iff (hs : s < file.length) :
    Honours file (some range) (partialResponse file pace mime tag ((s : ℤ), e)) ↔
      askedRange file.length range = some (s, file.length - 1) ∧
        (e < 0 ∨ e = (file.length : ℤ) - 1) ∧ s ≤ pace 0 := by
  have hpos := file.length_pos
  have hmax : s ≤ longMax := Nat.le_trans (Nat.le_of_lt hs) file.length_le
  have hlength : (partialResponse file pace mime tag ((s : ℤ), e)).contentLength =
      .ok ((file.length : ℤ) - s) := contentLength_ranged hmax rfl contentRange_partialResponse
  constructor
  · rintro ⟨s', e', hrange, hle, hlt, hask, hannounced, hsent⟩
    have hmax' : s' ≤ longMax := Nat.le_trans (Nat.le_trans hle (Nat.le_of_lt hlt)) file.length_le
    have hsame := (contentLength_ranged hmax' rfl hrange).symm.trans hlength
    obtain rfl : s' = s := by
      have heq := Except.ok.inj hsame
      omega
    have heq := Except.ok.inj (hannounced.symm.trans hlength)
    obtain rfl : e' = file.length - 1 := by omega
    refine ⟨hask, ?_, ?_⟩
    · rcases Int.lt_or_le e 0 with hneg | hnonneg
      · exact .inl hneg
      · right
        obtain ⟨m, rfl⟩ := Int.eq_ofNat_of_zero_le hnonneg
        rw [contentRange_partialResponse, if_neg (Int.not_lt.mpr hnonneg)] at hrange
        have htail := List.append_cancel_left (Option.some.inj hrange)
        have hend := List.append_cancel_right (List.cons.inj (List.append_cancel_left htail)).2
        have hnumber : some m = some (file.length - 1) := by
          rw [← number_toString, ← number_toString]
          exact congrArg number hend
        have hm := Option.some.inj hnumber
        change (m : ℤ) = _
        omega
    · rw [sent_partialResponse] at hsent
      have hlen := congrArg List.length hsent
      rw [List.length_drop, List.length_take, List.length_drop] at hlen
      change file.length - _ = min _ (file.length - s') at hlen
      omega
  · rintro ⟨hask, hend, hskip⟩
    refine ⟨s, file.length - 1, ?_, by omega, by omega, hask, ?_, ?_⟩
    · have hlast : (if e < 0 then (file.length : ℤ) - 1 else e) =
          ((file.length - 1 : ℕ) : ℤ) := by
        split <;> omega
      rw [contentRange_partialResponse, hlast]
    · rw [hlength]
      congr 1
      omega
    · rw [sent_partialResponse, Nat.min_eq_right hskip]
      refine (List.take_of_length_le ?_).symm
      rw [List.length_drop]
      change file.length - s ≤ _
      omega

/-! ## What was asked for -/

/-- The text that follows the unit, cut at its first dash. -/
theorem range_cases (range : List Char) :
    (∃ first last, range = "bytes=".toList ++ (first ++ '-' :: last) ∧ '-' ∉ first) ∨
      (skipping (some range) = (0, -1) ∧ ∀ length, askedRange length range = none) := by
  by_cases h : "bytes=".toList <+: range ∧ '-' ∈ range.drop "bytes=".length
  · obtain ⟨⟨rest, rfl⟩, hmem⟩ := h
    have hdrop : ("bytes=".toList ++ rest).drop "bytes=".length = rest := List.drop_left
    rw [hdrop] at hmem
    obtain ⟨first, last, rfl, hnot⟩ := List.eq_append_cons_of_mem hmem
    exact .inl ⟨first, last, rfl, hnot⟩
  · right
    constructor
    · unfold skipping
      simp only
      split
      · rename_i hstart
        rw [if_neg fun hdash => h ⟨hstart, hdash.1⟩]
      · rfl
    · intro length
      rw [askedRange, if_neg h]

section Spec

variable (hnot : '-' ∉ first)
include hnot

/-- What is before the first dash, and what is behind it. -/
theorem parts_eq : (first ++ '-' :: last).takeWhile (· ≠ '-') = first ∧
    ((first ++ '-' :: last).dropWhile (· ≠ '-')).tail = last := by
  have hall (c : Char) (hc : c ∈ first) : decide (c ≠ '-') = true :=
    decide_eq_true fun heq => hnot (heq ▸ hc)
  constructor
  · rw [List.takeWhile_append_of_pos hall, List.takeWhile_cons_of_neg (by decide), List.append_nil]
  · rw [List.dropWhile_append_of_pos hall, List.dropWhile_cons_of_neg (by decide), List.tail_cons]

/-- The two positions that the code reads. -/
theorem skipping_eq : skipping (some ("bytes=".toList ++ (first ++ '-' :: last))) =
    ((parseLong first).getD 0,
      (parseLong first).elim (-1) fun _ => (parseLong last).getD (-1)) := by
  have hdrop : ("bytes=".toList ++ (first ++ '-' :: last)).drop "bytes=".length =
      first ++ '-' :: last := List.drop_left
  have hstart : "bytes=".toList <+: "bytes=".toList ++ (first ++ '-' :: last) :=
    List.prefix_append _ _
  unfold skipping
  simp only [hdrop, parts_eq hnot]
  rw [if_pos hstart]
  split
  · cases parseLong first <;> cases parseLong last <;> rfl
  · rename_i hnil
    have hfirst : first = [] := by
      by_contra hne
      exact hnil ⟨List.mem_append_right _ List.mem_cons_self, hne⟩
    subst hfirst
    rfl

/-- The two positions that are asked for. -/
theorem askedRange_eq {length : ℕ} :
    askedRange length ("bytes=".toList ++ (first ++ '-' :: last)) =
      match number first, number last with
      | some s, some e => if s ≤ e ∧ s < length then some (s, min e (length - 1)) else none
      | some s, none => if last = [] ∧ s < length then some (s, length - 1) else none
      | none, some n =>
        if first = [] ∧ 0 < n then some (length - min n length, length - 1) else none
      | none, none => none := by
  have hdrop : ("bytes=".toList ++ (first ++ '-' :: last)).drop "bytes=".length =
      first ++ '-' :: last := List.drop_left
  have hasked : "bytes=".toList <+: "bytes=".toList ++ (first ++ '-' :: last) ∧
      '-' ∈ first ++ '-' :: last :=
    ⟨List.prefix_append _ _, List.mem_append_right _ List.mem_cons_self⟩
  unfold askedRange
  simp only [hdrop, parts_eq hnot]
  rw [if_pos hasked]

/-- The texts where the parts agree. -/
theorem AgreesWith.toEnd {length skips : ℕ} (hpos : 0 < length) (hmax : length ≤ longMax)
    (h : AgreesWith length skips ("bytes=".toList ++ (first ++ '-' :: last))) :
    ToEnd length skips first last := by
  unfold AgreesWith at h
  rw [skipping_eq hnot, askedRange_eq hnot] at h
  rcases h with hbehind | ⟨s, hstart, hlt, hask, hend, hskip⟩
  · cases hs : parseLong first with
    | none =>
      rw [hs] at hbehind
      change (length : ℤ) ≤ 0 at hbehind
      omega
    | some v =>
      rw [hs] at hbehind
      exact .behind hs hbehind
  · split at hask
    · rename_i f l hf hl
      split at hask
      · rename_i hle
        obtain ⟨rfl, hmin⟩ := Prod.mk.inj (Option.some.inj hask)
        refine .fromFirstToLast hf hlt hskip hl ?_
        by_cases hlmax : l ≤ longMax
        · rw [parseLong_of_number hf, parseLong_of_number hl, if_pos hlmax,
            if_pos (by omega)] at hend
          change (l : ℤ) < 0 ∨ (l : ℤ) = length - 1 at hend
          omega
        · exact .inr (Nat.lt_of_not_le hlmax)
      · cases hask
    · rename_i f hf _
      split at hask
      · rename_i hnil
        obtain ⟨rfl, -⟩ := Prod.mk.inj (Option.some.inj hask)
        obtain ⟨rfl, -⟩ := hnil
        exact .fromFirst hf hlt hskip
      · cases hask
    · rename_i n _ hn
      split at hask
      · rename_i hnil
        obtain ⟨hfirst, -⟩ := Prod.mk.inj (Option.some.inj hask)
        obtain ⟨rfl, -⟩ := hnil
        change (0 : ℤ) = s at hstart
        exact .suffix hn (by omega)
      · cases hask
    · cases hask

/-- And the other way round. -/
theorem ToEnd.agrees {length skips : ℕ} (hpos : 0 < length) (hmax : length ≤ longMax)
    (h : ToEnd length skips first last) :
    AgreesWith length skips ("bytes=".toList ++ (first ++ '-' :: last)) := by
  have hneg : (-1 : ℤ) < 0 := by decide
  have hread {cs : List Char} {s : ℕ} (hs : number cs = some s) (hlen : s < length) :
      parseLong cs = some (s : ℤ) := by
    rw [parseLong_of_number hs, if_pos (by omega)]
  unfold AgreesWith
  rw [skipping_eq hnot, askedRange_eq hnot]
  cases h with
  | behind hs hlen =>
    left
    rw [hs]
    exact hlen
  | suffix hn hlen =>
    refine .inr ⟨0, rfl, hpos, ?_, .inl hneg, Nat.zero_le _⟩
    rw [hn]
    change (if ([] : List Char) = [] ∧ _ then _ else _) = _
    rw [if_pos ⟨rfl, by omega⟩, Nat.min_eq_right hlen, Nat.sub_self]
  | fromFirst hs hlen hskip =>
    refine .inr ⟨_, ?_, hlen, ?_, ?_, hskip⟩
    · rw [hread hs hlen]
      rfl
    · rw [hs]
      exact if_pos ⟨rfl, hlen⟩
    · rw [hread hs hlen]
      exact .inl hneg
  | @fromFirstToLast _ _ s e hs hlen hskip he hend =>
    refine .inr ⟨s, ?_, hlen, ?_, ?_, hskip⟩
    · rw [hread hs hlen]
      rfl
    · rw [hs, he]
      simp only
      rw [if_pos (by omega), Nat.min_eq_right (by omega)]
    · rw [hread hs hlen]
      rcases hend with hend | hend
      · right
        rw [hread he (by omega)]
        change (e : ℤ) = _
        omega
      · left
        rw [parseLong_of_number he, if_neg (by omega)]
        exact hneg

end Spec

/-! ## The result -/

/-- **A range is answered consistently** where the parts agree on it. -/
theorem consistent_iff_agrees (htag : eTag hashCode file = .ok tag)
    (hrange : header "range" = some range) :
    Consistent hashCode header file pace mime ↔ AgreesWith file.length (pace 0) range := by
  rcases serveSmbFile_range pace mime htag hrange with
    ⟨hbehind, r, hserve, hstatus⟩ | ⟨hlt, hserve⟩
  · refine iff_of_true (fun r' hr' => ?_) (.inl hbehind)
    obtain rfl := Except.ok.inj (hserve.symm.trans hr')
    rw [hstatus]
    exact ⟨(fun h => by cases h), (fun h => by cases h)⟩
  · obtain ⟨s, hs⟩ := Int.eq_ofNat_of_zero_le (@skipping_nonneg range)
    have hpair : skipping (some range) = ((s : ℤ), (skipping (some range)).2) := Prod.ext hs rfl
    have hlen : s < file.length := by omega
    constructor
    · intro h
      have hhonours := (h _ hserve).1 rfl
      rw [hrange, hpair] at hhonours
      obtain ⟨hask, hend, hskip⟩ := (honours_iff hlen).mp hhonours
      exact .inr ⟨s, hs, hlen, hask, hend, hskip⟩
    · rintro (hbehind | ⟨s', hs', -, hask, hend, hskip⟩) r hr
      · omega
      · obtain rfl : s' = s := by omega
        obtain rfl := Except.ok.inj (hserve.symm.trans hr)
        refine ⟨fun _ => ?_, fun h => by cases h⟩
        rw [hrange, hpair]
        exact (honours_iff hlen).mpr ⟨hask, hend, hskip⟩

/-- **The responses are consistent** exactly where nothing is asked for, or
what is asked for is one of the texts that the parts agree on. -/
theorem consistent_iff (hashCode : String → BitVec 32) (header : String → Option (List Char))
    (file : SmbFile) (pace : ℕ → ℕ) (mime : String) : Consistent hashCode header file pace mime ↔
      file.name = none ∨ ∀ range ∈ header "range", ∃ first last,
        range = "bytes=".toList ++ (first ++ '-' :: last) ∧ '-' ∉ first ∧
          ToEnd file.length (pace 0) first last := by
  cases hname : file.name with
  | none =>
    refine iff_of_true (fun r hr => ?_) (.inl rfl)
    have htag : eTag hashCode file = .error ⟨.nullPointer, ""⟩ := by rw [eTag, hname]
    rw [serveSmbFile, htag] at hr
    cases hr
  | some name =>
    have htag : ∃ tag, eTag hashCode file = .ok tag := by
      rw [eTag, hname]
      exact ⟨_, rfl⟩
    obtain ⟨tag, htag⟩ := htag
    cases hrange : header "range" with
    | none =>
      refine iff_of_true (fun r hr => ?_) (.inr (by simp))
      obtain ⟨r', hserve, hr'⟩ := serveSmbFile_whole pace mime htag hrange
      obtain rfl := Except.ok.inj (hserve.symm.trans hr)
      rcases hr' with hnot | ⟨hok, hwhole⟩
      · rw [hnot]
        exact ⟨(fun h => by cases h), (fun h => by cases h)⟩
      · rw [hok]
        exact ⟨(fun h => by cases h), fun _ => hwhole⟩
    | some range =>
      rw [consistent_iff_agrees htag hrange]
      simp only [reduceCtorEq, false_or, Option.mem_def, Option.some.injEq, forall_eq']
      have hpos := file.length_pos
      rcases range_cases range with ⟨first, last, rfl, hnot⟩ | ⟨hskip, hask⟩
      · constructor
        · intro h
          exact ⟨first, last, rfl, hnot, h.toEnd hnot hpos file.length_le⟩
        · rintro ⟨first', last', heq, hnot', h⟩
          rw [heq]
          exact h.agrees hnot' hpos file.length_le
      · have hnone : ¬ AgreesWith file.length (pace 0) range := by
          rintro (hbehind | ⟨s, -, -, hasked, -⟩)
          · rw [hskip] at hbehind
            change (file.length : ℤ) ≤ 0 at hbehind
            omega
          · rw [hask] at hasked
            cases hasked
        refine iff_of_false hnone ?_
        rintro ⟨first, last, rfl, hnot, h⟩
        exact hnone (h.agrees hnot hpos file.length_le)

/-- A film of three bytes. -/
def film : SmbFile := ⟨some "film", 0, [1, 2, 3], by decide, by decide⟩

/-- The first two bytes are asked for and named in the response, but all
three are announced and sent. -/
theorem not_consistent_firstBytes :
    ¬ Consistent (fun _ => 0)
      (fun name => if name = "range" then some "bytes=0-1".toList else none) film
      (fun _ => 16) "video/x-matroska" := by
  intro h
  have hasked : askedRange film.length "bytes=0-1".toList = some (0, 1) := by decide +kernel
  rcases (consistent_iff_agrees rfl rfl).mp h with hbehind | ⟨s, -, -, hask, -⟩
  · exact absurd hbehind (by decide +kernel)
  · rw [hasked] at hask
    have hend : 1 = film.length - 1 := congrArg Prod.snd (Option.some.inj hask)
    exact absurd hend (by decide)

end SambaProvider

import Mathlib.Data.List.TakeWhile
import SambaProvider.Base.Numbers
import SambaProvider.Document.SharePath
import SambaProvider.Lib.Form

/-!
# Streaming URLs

`SambaUtil.java`: the URL a player is given for a file, and back. The URL
is encoded once, and decoded twice: by the server, when it reads the
request, and by `cropStreamSmbURL`, which also cuts it at a `&`.
-/

namespace SambaProvider

open Lib

/-! ## The code -/

/-- `SMB_URL_LAN`. -/
def smbUrlLan : List Char := "smb://".toList

/-- `CONTENT_EXPORT_URI`. -/
def contentExportUri : List Char := "/smb=".toList

/-- The byte of an escape, read by `Integer.parseInt`; a negative one is
refused. -/
def escapedByte (a b : Char) : Option UInt8 :=
  match parseNumber 16 intMax [a, b] with
  | some v => if v < 0 then none else some (UInt8.ofNat v.toNat)
  | none => none

/-- `URLDecoder.decode`. The text of its exception is the platform's. -/
def urlDecode (text : List Char) : Except Exn (List Char) :=
  match Form.decode escapedByte text with
  | some decoded => .ok decoded
  | none => .error ⟨.illegalArgument, ""⟩

/-- The address of a host, as it stands in a URL. -/
structure Host where
  ip : String
  plain : ∀ c ∈ ip.toList, c ≠ '/' ∧ c ≠ '?' ∧ c ≠ '#'

/-- `wrapStreamSmbURL`. -/
def wrapStreamSmbURL (url : List Char) (host : Host) (port : ℕ) : Option (List Char) :=
  if url = [] then none
  else if smbUrlLan <+: url then
    some ("http://".toList ++ (host.ip.toList ++ (':' :: ((toString port).toList ++
      (contentExportUri ++ Form.encode (url.drop smbUrlLan.length))))))
  else none

/-- The path of a URL. -/
def pathOf (url : List Char) : List Char :=
  (((behindSlashes (schemeSpecificPart url)).getD []).dropWhile fun c =>
    c ≠ '/' ∧ c ≠ '?' ∧ c ≠ '#').takeWhile fun c => c ≠ '?' ∧ c ≠ '#'

/-- `decodeHeader`: the URI of a request, up to its parameters. -/
def requestUri (uri : List Char) : Except Exn (List Char) :=
  urlDecode (uri.takeWhile (· ≠ '?'))

/-- `cropStreamSmbURL`. -/
def cropStreamSmbURL (url : List Char) : Except Exn (Option (List Char)) :=
  if url = [] then .ok none
  else do
    let url ← urlDecode url
    if ¬ contentExportUri <+: url then return some url
    if url.length ≤ contentExportUri.length then return some url
    let filePaths := smbUrlLan ++ url.drop contentExportUri.length
    return some (filePaths.takeWhile (· ≠ '&'))

/-! ## The round trip -/

/-- What becomes of a URL that is wrapped, requested and cropped. -/
def streamed (url : List Char) (host : Host) (port : ℕ) : Except Exn (Option (List Char)) :=
  match wrapStreamSmbURL url host port with
  | some wrapped => do cropStreamSmbURL (← requestUri (pathOf wrapped))
  | none => .ok none

/-- **A streaming URL round-trips.** -/
def Streams (url : String) (host : Host) (port : ℕ) : Prop :=
  streamed url.toList host port = .ok (some url.toList)

/-- The characters that do not survive being decoded once more, and the
cut. -/
def fragile : List Char := ['%', '+', '&']

variable {x : List Char} {host : Host} {port : ℕ}

/-! ## The request -/

/-- The escapes that are written can be read. -/
theorem escapedByte_hexDigit (b : UInt8) : escapedByte (Percent.hexDigit (b.toNat / 16))
    (Percent.hexDigit (b.toNat % 16)) = some b := by
  have hall : ∀ n < 256, escapedByte (Percent.hexDigit (n / 16)) (Percent.hexDigit (n % 16)) =
      some (UInt8.ofNat n) := by decide +kernel
  rw [hall b.toNat b.toNat_lt, UInt8.ofNat_toNat]

/-- An encoded text has no character that ends a path. -/
theorem ne_of_mem_encode_form {c : Char} (h : c ∈ Form.encode x) :
    c ≠ '/' ∧ c ≠ '?' ∧ c ≠ '#' := by
  rcases Form.mem_encode h with rfl | rfl | hplain
  · decide
  · decide
  · refine ⟨?_, ?_, ?_⟩ <;> rintro rfl <;> exact absurd hplain (by decide)

/-- Nor has the number of a port. -/
theorem ne_of_mem_port {c : Char} (h : c ∈ (toString port).toList) :
    c ≠ '/' ∧ c ≠ '?' ∧ c ≠ '#' := by
  have hdigits : (toString port).toList = Nat.toDigits 10 port := Nat.toList_repr
  have hdigit : c.isDigit = true :=
    Nat.isDigit_of_mem_toDigits (by decide) (by decide) (hdigits ▸ h)
  refine ⟨?_, ?_, ?_⟩ <;> rintro rfl <;> exact absurd hdigit (by decide)

/-- Nor has the path that is asked for. -/
theorem ne_of_mem_path {c : Char} (h : c ∈ contentExportUri ++ Form.encode x) :
    c ≠ '?' ∧ c ≠ '#' := by
  have hexport : ∀ d ∈ contentExportUri, d ≠ '?' ∧ d ≠ '#' := by simp [contentExportUri]
  rcases List.mem_append.mp h with h | h
  · exact hexport c h
  · exact (ne_of_mem_encode_form h).2

/-- The text behind the scheme of a wrapped URL. -/
def addressed (x : List Char) (host : Host) (port : ℕ) : List Char :=
  (host.ip.toList ++ ':' :: (toString port).toList) ++ (contentExportUri ++ Form.encode x)

theorem wrapStreamSmbURL_append : wrapStreamSmbURL (smbUrlLan ++ x) host port =
    some ("http://".toList ++ addressed x host port) := by
  rw [wrapStreamSmbURL, if_neg (by simp [smbUrlLan]), if_pos (List.prefix_append _ _),
    List.drop_left, addressed, List.append_assoc]
  rfl

/-- **The path of a wrapped URL** is the prefix of an export and the
encoded rest. -/
theorem pathOf_addressed :
    pathOf ("http://".toList ++ addressed x host port) = contentExportUri ++ Form.encode x := by
  have haddress (c : Char) (hc : c ∈ host.ip.toList ++ ':' :: (toString port).toList) :
      c ≠ '/' ∧ c ≠ '?' ∧ c ≠ '#' := by
    rcases List.mem_append.mp hc with hc | hc
    · exact host.plain c hc
    · rcases List.mem_cons.mp hc with rfl | hc
      · decide
      · exact ne_of_mem_port hc
  have hbehind : behindSlashes (schemeSpecificPart ("http://".toList ++ addressed x host port)) =
      some (addressed x host port) := by
    simp [schemeSpecificPart, behindSlashes]
  rw [pathOf, hbehind, Option.getD_some, addressed,
    List.dropWhile_append_of_pos fun c hc => decide_eq_true (haddress c hc)]
  rw [contentExportUri, String.toList_ofList, List.cons_append,
    List.dropWhile_cons_of_neg (by decide)]
  exact List.takeWhile_eq_self_iff.mpr fun c hc => decide_eq_true (ne_of_mem_path hc)

/-- **The server reads the URL as it was** before it was encoded. -/
theorem streamed_append :
    streamed (smbUrlLan ++ x) host port = cropStreamSmbURL (contentExportUri ++ x) := by
  have hmark : (contentExportUri ++ Form.encode x).takeWhile (· ≠ '?') =
      contentExportUri ++ Form.encode x := by
    exact List.takeWhile_eq_self_iff.mpr fun c hc => decide_eq_true (ne_of_mem_path hc).1
  have hdecode : urlDecode (contentExportUri ++ Form.encode x) = .ok (contentExportUri ++ x) := by
    rw [urlDecode, Form.decode_append_encode escapedByte_hexDigit (by decide) (by decide)]
  simp only [streamed, wrapStreamSmbURL_append, pathOf_addressed, requestUri, hmark, hdecode]
  rfl

/-! ## The second time -/

/-- What is cropped behind the prefix of an export. -/
theorem cropStreamSmbURL_append {y : List Char} (hy : y ≠ [])
    (h : urlDecode (contentExportUri ++ x) = .ok (contentExportUri ++ y)) :
    cropStreamSmbURL (contentExportUri ++ x) =
      .ok (some (smbUrlLan ++ y.takeWhile (· ≠ '&'))) := by
  have hlen : ¬ (contentExportUri ++ y).length ≤ contentExportUri.length := by
    have hpos : 0 < y.length := List.length_pos_of_ne_nil hy
    rw [List.length_append]
    omega
  have hscheme : (smbUrlLan ++ y).takeWhile (· ≠ '&') = smbUrlLan ++ y.takeWhile (· ≠ '&') :=
    List.takeWhile_append_of_pos (List.all_eq_true.mp (by decide))
  rw [cropStreamSmbURL, if_neg (by simp [contentExportUri]), h]
  simp only [bind, Except.bind]
  rw [if_neg (not_not.mpr (List.prefix_append _ _)), if_neg hlen, List.drop_left, hscheme]
  rfl

/-- Cropping makes a decoded text longer by one character at most. -/
theorem length_cropStreamSmbURL_le {url cropped : List Char}
    (h : cropStreamSmbURL url = .ok (some cropped)) :
    ∃ decoded, urlDecode url = .ok decoded ∧ cropped.length ≤ decoded.length + 1 := by
  unfold cropStreamSmbURL at h
  split at h
  · cases h
  · cases hdecode : urlDecode url with
    | error e =>
      rw [hdecode] at h
      cases h
    | ok decoded =>
      rw [hdecode] at h
      simp only [bind, Except.bind] at h
      refine ⟨decoded, rfl, ?_⟩
      split at h
      · cases h
        omega
      · split at h
        · cases h
          omega
        · cases h
          refine Nat.le_trans (List.takeWhile_sublist _).length_le ?_
          have hlan : smbUrlLan.length = contentExportUri.length + 1 := rfl
          rw [List.length_append, List.length_drop]
          omega

/-- A text is decoded to one of its length where it has no percent sign;
only its plus signs change. -/
theorem urlDecode_cases {decoded : List Char}
    (h : urlDecode (contentExportUri ++ x) = .ok decoded) :
    decoded.length < (contentExportUri ++ x).length ∨
      '%' ∉ x ∧ decoded = contentExportUri ++ x.map Form.plusToSpace := by
  unfold urlDecode at h
  split at h
  · rename_i text htext
    obtain rfl := Except.ok.inj h
    rcases Form.decode_cases htext with hlt | ⟨hmem, rfl⟩
    · exact .inl hlt
    · exact .inr ⟨fun hx => hmem (List.mem_append_right _ hx), List.map_append⟩
  · cases h

theorem urlDecode_of_not_mem (h : '%' ∉ x) : urlDecode (contentExportUri ++ x) =
    .ok (contentExportUri ++ x.map Form.plusToSpace) := by
  have hmem : '%' ∉ contentExportUri ++ x := by
    rw [List.mem_append, not_or]
    exact ⟨by decide, h⟩
  rw [urlDecode, Form.decode_of_not_mem hmem, List.map_append]
  rfl

/-- What is left of a text without percent signs. -/
theorem takeWhile_map_eq_self_iff :
    (x.map Form.plusToSpace).takeWhile (· ≠ '&') = x ↔ '+' ∉ x ∧ '&' ∉ x := by
  constructor
  · intro h
    have hand : '&' ∉ x := by
      intro hmem
      rw [← h] at hmem
      simpa using List.mem_takeWhile_imp hmem
    have hstart : x <+: x.map Form.plusToSpace := by
      have htake := List.takeWhile_prefix (l := x.map Form.plusToSpace) (p := (· ≠ '&'))
      rwa [h] at htake
    have hmap : x.map Form.plusToSpace = x :=
      (hstart.eq_of_length (List.length_map _).symm).symm
    exact ⟨Form.map_plusToSpace_eq_self_iff.mp hmap, hand⟩
  · rintro ⟨hplus, hand⟩
    rw [Form.map_plusToSpace_eq_self_iff.mpr hplus]
    refine List.takeWhile_eq_self_iff.mpr fun c hc => decide_eq_true ?_
    rintro rfl
    exact hand hc

/-! ## The result -/

/-- **The URLs that round-trip** are those without a fragile character. -/
theorem streams_iff (x : String) (hx : x ≠ "") (host : Host) (port : ℕ) :
    Streams ("smb://" ++ x) host port ↔ ∀ c ∈ fragile, c ∉ x.toList := by
  have hchars : x.toList ≠ [] := fun hnil => hx (String.toList_eq_nil_iff.mp hnil)
  have hmapped : x.toList.map Form.plusToSpace ≠ [] := by simpa using hx
  have htext : ("smb://" ++ x).toList = smbUrlLan ++ x.toList := String.toList_append
  simp only [fragile, List.mem_cons, List.not_mem_nil, or_false, forall_eq_or_imp, forall_eq]
  rw [Streams, htext, streamed_append]
  constructor
  · intro h
    obtain ⟨decoded, hdecode, hle⟩ := length_cropStreamSmbURL_le h
    have hlan : smbUrlLan.length = contentExportUri.length + 1 := rfl
    rw [List.length_append] at hle
    rcases urlDecode_cases hdecode with hlt | ⟨hpercent, rfl⟩
    · rw [List.length_append] at hlt
      omega
    · rw [cropStreamSmbURL_append hmapped hdecode] at h
      have htake := List.append_cancel_left (Option.some.inj (Except.ok.inj h))
      exact ⟨hpercent, takeWhile_map_eq_self_iff.mp htake⟩
  · rintro ⟨hpercent, hrest⟩
    rw [cropStreamSmbURL_append hmapped (urlDecode_of_not_mem hpercent),
      takeWhile_map_eq_self_iff.mpr hrest]

/-- The address of a device. -/
def device : Host := ⟨"192.168.0.7", by simp⟩

/-- A name with a space, in a folder. -/
theorem streams_space : Streams ("smb://" ++ "nas/my film.mkv") device 8080 :=
  (streams_iff _ (by decide) device 8080).mpr (by simp [fragile])

/-- A name with a plus sign is another one, and a name with a percent sign
is refused. -/
theorem not_streams_plus : ¬ Streams ("smb://" ++ "nas/a+b.mkv") device 8080 ∧
    streamed ("smb://" ++ "nas/100%.mkv").toList device 8080 =
      .error ⟨.illegalArgument, ""⟩ := by
  constructor
  · unfold Streams
    decide +kernel
  · decide +kernel

end SambaProvider

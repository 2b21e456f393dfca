import Mathlib.Data.List.TakeWhile
import SambaProvider.Document.SharePath

/-!
# The URI of a share

A share the user has named is handed out as a document id and read back
from there. The host comes back whatever it is, since it is encoded. The
share is stored as it is: it comes back where the text of a URI takes it
for one piece that means itself.
-/

namespace SambaProvider

open Lib

/-! ## Parsing -/

/-- A URI as `Uri.parse` leaves it: its text. -/
structure StringUri where
  uriString : String

namespace StringUri

/-- What follows the scheme. -/
def specificPart (u : StringUri) : List Char := schemeSpecificPart u.uriString.toList

def getAuthority (u : StringUri) : Option String := parseAuthority u.uriString.toList

def getPathSegments (u : StringUri) : List String := parsePathSegments u.uriString.toList

/-- `getQuery`: what stands between the first `?` and the fragment. -/
def getQuery (u : StringUri) : Option String :=
  let text := u.specificPart.takeWhile (· ≠ '#')
  if '?' ∈ text then some (Percent.decode (String.ofList (text.dropWhile (· ≠ '?')).tail))
  else none

/-- `getFragment`: what follows the first `#`. -/
def getFragment (u : StringUri) : Option String :=
  let text := u.specificPart
  if '#' ∈ text then some (Percent.decode (String.ofList (text.dropWhile (· ≠ '#')).tail))
  else none

end StringUri

/-- `toDocumentId`. -/
def toDocumentId (u : Uri) : String := u.toString

/-- `toUri`. -/
def toUri (documentId : String) : StringUri := ⟨documentId⟩

/-- The entry of `createShare(String, String)`. -/
def createShare (host share : String) : DirectoryEntry :=
  ⟨.fileShare, "", (Uri.ofShare host share).getLastPathSegment⟩

/-- **A share path denotes the share it names**: what is read back from
the document id is the host and the share, and nothing else. -/
structure Denotes (host share : String) : Prop where
  authority : (toUri (toDocumentId (.ofShare host share))).getAuthority = some host
  pathSegments : (toUri (toDocumentId (.ofShare host share))).getPathSegments = [share]
  query : (toUri (toDocumentId (.ofShare host share))).getQuery.getD "" = ""
  fragment : (toUri (toDocumentId (.ofShare host share))).getFragment.getD "" = ""
  displayName : (createShare host share).name = some share

variable {host share path : String}

/-! ## Splitting -/

/-- The pieces of a text are taken from it. -/
theorem sublist_of_mem_splitOn {l piece : List Char} (h : piece ∈ l.splitOn '/') :
    piece.Sublist l := by
  induction l generalizing piece with
  | nil =>
    rw [List.splitOn_nil, List.mem_singleton] at h
    rw [h]
  | cons c l ih =>
    rw [List.splitOn_cons_eq_if_modifyHead] at h
    split at h
    · rcases List.mem_cons.mp h with rfl | h
      · exact List.nil_sublist _
      · exact (ih h).cons c
    · obtain ⟨first, rest, hl⟩ := List.exists_cons_of_ne_nil (List.splitOn_ne_nil '/' l)
      rw [hl, List.modifyHead_cons] at h
      rcases List.mem_cons.mp h with rfl | h
      · exact (ih (hl ▸ List.mem_cons_self)).cons_cons c
      · exact (ih (hl ▸ List.mem_cons_of_mem first h)).cons c

/-- A piece that decodes to the whole text is the whole text. -/
theorem eq_of_decode_eq {piece : List Char} {text : String} (hsub : piece.Sublist text.toList)
    (h : Percent.decode (String.ofList piece) = text) : piece = text.toList := by
  have hle := @Percent.length_decode_le (String.ofList piece)
  rw [h, String.toList_ofList] at hle
  exact hsub.eq_of_length_le hle

/-! ## The text of a share -/

/-- A share that is read back as its own last segment is one piece. -/
theorem Denotes.not_mem (h : Denotes host share) : '/' ∉ share.toList ∧ '%' ∉ share.toList := by
  have hmem : share ∈ (Uri.ofShare host share).getPathSegments :=
    List.mem_of_getLast? h.displayName
  obtain ⟨piece, hpiece, hdecode⟩ := List.mem_map.mp hmem
  have hpieces : piece ∈ (share.toList.splitOn '/').map String.ofList := by
    have hpath : piece ∈ (Uri.ofShare host share).encodedPath := (List.mem_filter.mp hpiece).1
    change piece ∈ (if share = "" then _ else _) at hpath
    split at hpath
    · cases hpath
    · split at hpath
      · exact List.mem_of_mem_tail hpath
      · exact hpath
  obtain ⟨text, htext, rfl⟩ := List.mem_map.mp hpieces
  have heq : text = share.toList := eq_of_decode_eq (sublist_of_mem_splitOn htext) hdecode
  subst heq
  rw [String.ofList_toList] at hdecode
  exact ⟨Uri.not_mem_of_mem_splitOn htext, Percent.decode_eq_self_iff.mp hdecode⟩

end SambaProvider

import SambaProvider.Lib.Percent
import Mathlib.Data.Int.Notation

/-!
# Document URIs

A document is named by its SMB URI, and the tree of the documents is in
the paths: a child appends a segment to its parent, and the parent of a
URI is rebuilt from all segments but the last. The parts of a URI are
kept in their encoded form, as `android.net.Uri` keeps them, and two URIs
are equal when all parts are.

The URIs are the ones with an absolute path, which the provider's all
are; opaque and relative ones are left out.
-/

namespace SambaProvider

open Lib

/-- The type of a directory entry, by its code. -/
inductive EntryType
  | workgroup
  | server
  | fileShare
  | printerShare
  | commsShare
  | ipcShare
  | dir
  | file
  | link
  /-- A code the application does not know. -/
  | other (code : ℤ)
deriving DecidableEq, Repr

/-- An entry of a directory; the name of one made from a URI is `none`
where the URI has no last segment. -/
structure DirectoryEntry where
  type : EntryType
  comment : String
  name : Option String
deriving DecidableEq, Repr

/-- A hierarchical URI by its encoded parts. The path is the list of what
follows each of its slashes: `/a/b` is `["a", "b"]` and `/` is `[""]`. -/
structure Uri where
  scheme : String
  encodedAuthority : Option String
  encodedPath : List String
  encodedQuery : Option String
  encodedFragment : Option String
deriving DecidableEq, Repr

namespace Uri

def getAuthority (u : Uri) : Option String := u.encodedAuthority.map Percent.decode

/-- The decoded path segments; an empty one is none. -/
def getPathSegments (u : Uri) : List String :=
  (u.encodedPath.filter (· ≠ "")).map Percent.decode

def getLastPathSegment (u : Uri) : Option String := u.getPathSegments.getLast?

/-- `buildUpon().authority(authority).build()`. -/
def withAuthority (u : Uri) (authority : Option String) : Uri :=
  { u with encodedAuthority := authority.map Percent.encode }

/-- A path with one more piece; a trailing slash is not doubled. -/
def appendPiece : List String → String → List String
  | [], piece => [piece]
  | [last], piece => if last = "" then [piece] else [last, piece]
  | p :: q :: ps, piece => p :: appendPiece (q :: ps) piece

/-- `buildUpon().appendPath(segment).build()`. -/
def appendPath (u : Uri) (segment : String) : Uri :=
  { u with encodedPath := appendPiece u.encodedPath (Percent.encode segment) }

/-- `smb://`. -/
def smbBaseUri : Uri where
  scheme := "smb"
  encodedAuthority := some ""
  encodedPath := []
  encodedQuery := none
  encodedFragment := none

/-- `buildChildUri(Uri, String)`. A name that is `null` is appended as
Java prints it. -/
def buildNamedChildUri (parentUri : Uri) (displayName : Option String) : Option Uri :=
  if displayName = some "." ∨ displayName = some ".." then none
  else some (parentUri.appendPath (displayName.getD "null"))

/-- `buildChildUri(Uri, DirectoryEntry)`. -/
def buildChildUri (parentUri : Uri) (entry : DirectoryEntry) : Option Uri :=
  match entry.type with
  | .link | .commsShare | .ipcShare | .printerShare => none
  | .workgroup | .server => some (smbBaseUri.withAuthority entry.name)
  | .fileShare | .dir | .file => parentUri.buildNamedChildUri entry.name
  | .other _ => none

def buildParentUri (childUri : Uri) : Uri :=
  let segments := childUri.getPathSegments
  -- A server or a workgroup: its exact parent is not known.
  if segments.isEmpty then smbBaseUri
  else segments.dropLast.foldl appendPath (smbBaseUri.withAuthority childUri.getAuthority)

/-- The URI of `createShare(String, String)`. The share is stored as it
is, behind a slash where it has none of its own. -/
def ofShare (host share : String) : Uri :=
  let pieces := (share.toList.splitOn '/').map String.ofList
  { smbBaseUri.withAuthority (some host) with
    encodedPath :=
      if share = "" then []
      else if pieces.head? = some "" then pieces.tail
      else pieces }

/-- `v` lies strictly below `d`: the same authority, and `d`'s segments
are a strict prefix of `v`'s. -/
def StrictlyBelow (d v : Uri) : Prop :=
  v.getAuthority = d.getAuthority ∧ d.getPathSegments <+: v.getPathSegments ∧
    d.getPathSegments.length < v.getPathSegments.length

instance (d v : Uri) : Decidable (StrictlyBelow d v) :=
  inferInstanceAs (Decidable (_ ∧ _ ∧ _))

variable {u v w d k : Uri} {s : String} {a : Option String}

/-! ## Segments -/

theorem ne_empty_of_mem_getPathSegments (h : s ∈ u.getPathSegments) : s ≠ "" := by
  obtain ⟨piece, hpiece, rfl⟩ := List.mem_map.mp h
  have hne := (List.mem_filter.mp hpiece).2
  simpa using hne

theorem filter_appendPiece {ps : List String} {piece : String} (h : piece ≠ "") :
    (appendPiece ps piece).filter (· ≠ "") = ps.filter (· ≠ "") ++ [piece] := by
  fun_induction appendPiece ps piece with
  | case1 piece => simp [h]
  | case2 piece => simp [h]
  | case3 last piece hlast => simp [h, hlast]
  | case4 p q ps piece ih =>
    rw [List.filter_cons, List.filter_cons, ih h]
    split <;> rfl

/-- **Appending a segment appends it to the segments.** -/
theorem getPathSegments_appendPath (h : s ≠ "") :
    (u.appendPath s).getPathSegments = u.getPathSegments ++ [s] := by
  have hne : Percent.encode s ≠ "" := fun he => h (Percent.encode_eq_empty.mp he)
  unfold getPathSegments appendPath
  rw [filter_appendPiece hne, List.map_append]
  simp

@[simp] theorem getAuthority_appendPath : (u.appendPath s).getAuthority = u.getAuthority := rfl

@[simp] theorem getAuthority_withAuthority : (u.withAuthority a).getAuthority = a := by
  cases a <;> simp [getAuthority, withAuthority]

@[simp] theorem getPathSegments_withAuthority :
    (u.withAuthority a).getPathSegments = u.getPathSegments := rfl

@[simp] theorem getPathSegments_smbBaseUri : smbBaseUri.getPathSegments = [] := rfl

theorem getPathSegments_foldl_appendPath {ss : List String} (h : ∀ s ∈ ss, s ≠ "") :
    (ss.foldl appendPath u).getPathSegments = u.getPathSegments ++ ss := by
  induction ss generalizing u with
  | nil => simp
  | cons s ss ih =>
    rw [List.foldl_cons, ih fun t ht => h t (List.mem_cons_of_mem s ht),
      getPathSegments_appendPath (h s List.mem_cons_self), List.append_assoc]
    rfl

theorem getAuthority_foldl_appendPath {ss : List String} :
    (ss.foldl appendPath u).getAuthority = u.getAuthority := by
  induction ss generalizing u with
  | nil => rfl
  | cons s ss ih => rw [List.foldl_cons, ih, getAuthority_appendPath]

/-! ## The parent -/

/-- **The parent has all segments but the last.** -/
@[simp] theorem getPathSegments_buildParentUri :
    (buildParentUri u).getPathSegments = u.getPathSegments.dropLast := by
  simp only [buildParentUri]
  split
  · rename_i h
    rw [List.isEmpty_iff.mp h]
    rfl
  · rw [getPathSegments_foldl_appendPath fun s hs =>
      ne_empty_of_mem_getPathSegments (List.dropLast_subset _ hs)]
    simp

theorem getAuthority_buildParentUri (h : u.getPathSegments ≠ []) :
    (buildParentUri u).getAuthority = u.getAuthority := by
  simp only [buildParentUri]
  rw [if_neg (by simpa using h), getAuthority_foldl_appendPath, getAuthority_withAuthority]

/-- What has a parent inside a share, or the share as its parent, has
segments of its own. -/
theorem getPathSegments_ne_nil_of_buildParentUri (hd : d.getPathSegments ≠ [])
    (h : buildParentUri k = d) : k.getPathSegments ≠ [] := by
  intro hk
  apply hd
  rw [← h, getPathSegments_buildParentUri, hk]
  rfl

/-! ## The order of the tree -/

theorem not_strictlyBelow_self : ¬ StrictlyBelow d d := fun h => Nat.lt_irrefl _ h.2.2

/-- **A child lies strictly below its parent.** -/
theorem strictlyBelow_of_buildParentUri (hd : d.getPathSegments ≠ [])
    (h : buildParentUri k = d) : StrictlyBelow d k := by
  have hk := getPathSegments_ne_nil_of_buildParentUri hd h
  subst h
  have hlen : 0 < k.getPathSegments.length := List.length_pos_of_ne_nil hk
  refine ⟨(getAuthority_buildParentUri hk).symm, ?_, ?_⟩
  · rw [getPathSegments_buildParentUri]
    exact List.dropLast_prefix _
  · rw [getPathSegments_buildParentUri, List.length_dropLast]
    omega

end Uri

end SambaProvider

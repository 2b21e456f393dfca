import Mathlib.Logic.Relation
import SambaProvider.Document.SharePath

/-!
# Parents, children and descendants

The tree of the documents is in their URIs: a child is found from its
parent by appending a name, a parent from its child by rebuilding the
path, and `isChildDocument` tells a descendant by its text. These agree
as long as the path of a share is what appending its segments would have
written; the share is stored as it is, so it need not be.
-/

namespace SambaProvider

open Lib

namespace Uri

variable {u v w p c : Uri} {s n m host share : String} {ps qs : List String}

/-! ## Rebuilding a path -/

/-- A segment of a path as `appendPath` writes it. -/
def Written (piece : String) : Prop := piece ≠ "" ∧ Percent.encode (Percent.decode piece) = piece

instance (piece : String) : Decidable (Written piece) := inferInstanceAs (Decidable (_ ∧ _))

/-- All segments are as `appendPath` writes them. -/
def Normal (u : Uri) : Prop := ∀ piece ∈ u.encodedPath, Written piece

instance (u : Uri) : Decidable u.Normal :=
  inferInstanceAs (Decidable (∀ piece ∈ u.encodedPath, Written piece))

theorem written_encode (h : n ≠ "") : Written (Percent.encode n) :=
  ⟨fun he => h (Percent.encode_eq_empty.mp he), by rw [Percent.decode_encode]⟩

theorem appendPiece_of_ne {ps : List String} {piece : String} (h : ps.getLast? ≠ some "") :
    appendPiece ps piece = ps ++ [piece] := by
  fun_induction appendPiece ps piece with
  | case1 piece => rfl
  | case2 piece => exact absurd rfl h
  | case3 last piece hlast => rfl
  | case4 p q ps piece ih =>
    rw [ih (by simpa using h)]
    rfl

/-- Appending segments to a path without an empty one. -/
theorem encodedPath_foldl_appendPath {ss : List String} (hss : ∀ s ∈ ss, s ≠ "")
    (hu : u.encodedPath.getLast? ≠ some "") :
    (ss.foldl appendPath u).encodedPath = u.encodedPath ++ ss.map Percent.encode := by
  induction ss generalizing u with
  | nil => simp
  | cons s ss ih =>
    have hs : Percent.encode s ≠ "" :=
      fun he => hss s List.mem_cons_self (Percent.encode_eq_empty.mp he)
    have happend : (u.appendPath s).encodedPath = u.encodedPath ++ [Percent.encode s] :=
      appendPiece_of_ne hu
    rw [List.foldl_cons, ih (fun t ht => hss t (List.mem_cons_of_mem s ht)), happend]
    · simp
    · rw [happend, List.getLast?_concat]
      exact fun he => hs (Option.some.inj he)

theorem foldl_appendPath_eq {ss : List String} :
    ss.foldl appendPath u = { u with encodedPath := (ss.foldl appendPath u).encodedPath } := by
  induction ss generalizing u with
  | nil => rfl
  | cons s ss ih =>
    rw [List.foldl_cons, ih]
    rfl

/-- **The parent of a child**: the host, and the segments written again. -/
theorem Plain.buildParentUri_appendPath (h : u.Plain (Percent.encode host)) (hn : n ≠ "") :
    buildParentUri (u.appendPath n) =
      { u with
        encodedPath := u.getPathSegments.map Percent.encode } := by
  have hsegments := getPathSegments_appendPath (u := u) hn
  simp only [buildParentUri]
  rw [if_neg (by simp [hsegments]), hsegments, List.dropLast_concat, foldl_appendPath_eq,
    encodedPath_foldl_appendPath (fun s hs => ne_empty_of_mem_getPathSegments hs)
      (by simp [withAuthority, smbBaseUri])]
  have hauthority : (u.appendPath n).getAuthority = some host := by
    rw [getAuthority_appendPath, getAuthority, h.authority, Option.map_some,
      Percent.decode_encode]
  rw [hauthority]
  cases u
  simp only [Uri.mk.injEq]
  exact ⟨h.scheme.symm, h.authority.symm, rfl, h.query.symm, h.fragment.symm⟩

/-- **Writing the segments again** gives the path back, if and only if
they were written. -/
theorem map_encode_getPathSegments_eq_iff :
    u.getPathSegments.map Percent.encode = u.encodedPath ↔ u.Normal := by
  unfold getPathSegments Normal
  rw [List.map_map]
  constructor
  · intro h
    have hall : ∀ piece ∈ u.encodedPath, piece ≠ "" := by
      have hlength := congrArg List.length h
      rw [List.length_map, List.length_filter_eq_length_iff] at hlength
      simpa using hlength
    have hfilter : u.encodedPath.filter (· ≠ "") = u.encodedPath :=
      List.filter_eq_self.mpr (by simpa using hall)
    rw [hfilter] at h
    have hwritten := List.map_inj_left.mp (h.trans (List.map_id _).symm)
    exact fun piece hpiece => ⟨hall piece hpiece, hwritten piece hpiece⟩
  · intro h
    have hfilter : u.encodedPath.filter (· ≠ "") = u.encodedPath :=
      List.filter_eq_self.mpr fun piece hpiece => by simpa using (h piece hpiece).1
    rw [hfilter]
    refine (List.map_inj_left.mpr fun piece hpiece => ?_).trans (List.map_id _)
    exact (h piece hpiece).2

/-! ## The algebra -/

/-- A name that can be appended. -/
def IsName (n : String) : Prop := n ≠ "" ∧ n ≠ "." ∧ n ≠ ".."

instance (n : String) : Decidable (IsName n) := inferInstanceAs (Decidable (_ ∧ _ ∧ _))

/-- **Parent and child**: the parent of a child is the document, the child
has its name, and children of different names are different. Documents
are equal when their texts are. -/
def Algebra (u : Uri) : Prop :=
  ∀ n, IsName n → ∃ v, u.buildNamedChildUri (some n) = some v ∧
    v.buildParentUri.toString = u.toString ∧ v.getLastPathSegment = some n ∧
    ∀ m w, IsName m → u.buildNamedChildUri (some m) = some w → w.toString = v.toString → m = n

theorem getLastPathSegment_appendPath (hn : n ≠ "") :
    (u.appendPath n).getLastPathSegment = some n := by
  unfold getLastPathSegment
  rw [getPathSegments_appendPath hn, List.getLast?_concat]

theorem appendPath_injective (hn : n ≠ "") (hm : m ≠ "")
    (h : u.appendPath m = u.appendPath n) : m = n := by
  have hlast := congrArg getLastPathSegment h
  rw [getLastPathSegment_appendPath hm, getLastPathSegment_appendPath hn] at hlast
  exact Option.some.inj hlast

theorem Plain.setPath (h : u.Plain host) (hps : ∀ p ∈ ps, '/' ∉ p.toList) :
    ({ u with encodedPath := ps } : Uri).Plain host :=
  ⟨h.scheme, h.authority, h.query, h.fragment, h.host, hps⟩

/-- **The parent of a child has the text of the document**, if and only if
its path is written. -/
theorem Handed.toString_buildParentUri_iff (h : Handed u) (hn : n ≠ "") :
    (buildParentUri (u.appendPath n)).toString = u.toString ↔ u.Normal := by
  obtain ⟨host, hplain⟩ := h.plain
  rw [hplain.buildParentUri_appendPath hn, ← map_encode_getPathSegments_eq_iff]
  constructor
  · intro htext
    refine congrArg encodedPath (Plain.eq_of_toString_eq (hplain.setPath fun p hp => ?_) hplain
      htext)
    obtain ⟨s, _, rfl⟩ := List.mem_map.mp hp
    exact not_mem_encode
  · intro hpath
    rw [hpath]

/-- **The algebra of parents and children** holds of a document, if and
only if every segment of its path is as `appendPath` writes it. -/
theorem algebra_iff_normal (h : Handed u) : u.Algebra ↔ u.Normal := by
  constructor
  · intro halgebra
    obtain ⟨v, hv, hparent, _⟩ := halgebra "a" (by decide)
    obtain ⟨_, rfl⟩ := buildNamedChildUri_eq_some_iff.mp hv
    exact (h.toString_buildParentUri_iff (by decide)).mp hparent
  · rintro hnormal n ⟨hn, hdot⟩
    refine ⟨u.appendPath n, buildNamedChildUri_eq_some_iff.mpr ⟨hdot, rfl⟩,
      (h.toString_buildParentUri_iff hn).mpr hnormal, getLastPathSegment_appendPath hn, ?_⟩
    rintro m w ⟨hm, _⟩ hw htext
    obtain ⟨_, rfl⟩ := buildNamedChildUri_eq_some_iff.mp hw
    obtain ⟨host, hplain⟩ := h.plain
    exact appendPath_injective hn hm
      (Plain.eq_of_toString_eq hplain.appendPath hplain.appendPath htext)

/-- A document in a share with a plain name. -/
theorem algebra_media : ((ofShare "nas" "media").appendPath "a b").Algebra := by
  have hchild : (ofShare "nas" "media").buildNamedChildUri (some "a b") =
      some ((ofShare "nas" "media").appendPath "a b") := by decide
  exact (algebra_iff_normal (.child .share hchild)).mpr (by decide)

/-- **A share with a blank in its name** is not the parent of its
children. -/
theorem not_algebra_blank :
    parseSharePath "\\\\nas\\my media" = .ok (some ("nas", "my media")) ∧
      ¬ (ofShare "nas" "my media").Algebra := by
  refine ⟨by decide, fun halgebra => ?_⟩
  obtain ⟨v, hv, hparent, _⟩ := halgebra "a" (by decide)
  obtain ⟨_, rfl⟩ := buildNamedChildUri_eq_some_iff.mp hv
  exact absurd hparent (by decide)

/-! ## Descendants -/

/-- A child, by any name. -/
def IsChild (u v : Uri) : Prop := ∃ name : String, u.buildNamedChildUri (some name) = some v

/-- A descendant: one or more times a child. -/
abbrev Descends : Uri → Uri → Prop := Relation.TransGen IsChild

/-- `toDocumentId`. -/
def toDocumentId (u : Uri) : String := u.toString

/-- `isChildDocument`. -/
def isChildDocument (parentDocumentId documentId : String) : Bool :=
  parentDocumentId.toList.isPrefixOf documentId.toList

/-- **The tree relation**: the text of `p` starts that of `c`, if and only
if `c` is `p` or a descendant. -/
def TreeExact (p c : Uri) : Prop :=
  isChildDocument p.toDocumentId c.toDocumentId = true ↔ c = p ∨ Descends p c

/-- A segment that a name other than `.` and `..` is written as. -/
def NameWritten (piece : String) : Prop := Written piece ∧ piece ≠ "." ∧ piece ≠ ".."

instance (piece : String) : Decidable (NameWritten piece) :=
  inferInstanceAs (Decidable (_ ∧ _ ∧ _))

/-- A path without the empty segment behind a trailing slash. -/
def openPath (ps : List String) : List String :=
  if ps.getLast? = some "" then ps.dropLast else ps

/-- `c` goes on behind the path of `p`, with segments that names are
written as; the last one may be empty. -/
def GoesOn (p c : Uri) : Prop :=
  p.encodedAuthority = c.encodedAuthority ∧ ∃ front last,
    c.encodedPath = openPath p.encodedPath ++ (front ++ [last]) ∧
      (∀ piece ∈ front, NameWritten piece) ∧ (last = "" ∨ NameWritten last)

/-- `c` has the host and the segments of `p`, except that the last of
these may be a part of its segment only; or `p` is a host alone, which
may be a part of the host. -/
def Overlaps (p c : Uri) : Prop :=
  (p.encodedPath = [] ∧ ∃ a b, p.encodedAuthority = some a ∧ c.encodedAuthority = some b ∧
      a.toList <+: b.toList) ∨
    p.encodedAuthority = c.encodedAuthority ∧ ∃ front last more rest,
      p.encodedPath = front ++ [last] ∧ c.encodedPath = front ++ more :: rest ∧
        last.toList <+: more.toList

theorem encode_dot : Percent.encode "." = "." ∧ Percent.encode ".." = ".." := by decide

theorem appendPiece_eq {piece : String} : appendPiece ps piece = openPath ps ++ [piece] := by
  unfold openPath
  split
  · rename_i hlast
    obtain ⟨front, rfl⟩ := List.getLast?_eq_some_iff.mp hlast
    rw [List.dropLast_concat]
    induction front with
    | nil => rfl
    | cons q qs ih =>
      have hne : qs ++ [""] ≠ [] := by simp
      obtain ⟨r, rs, hr⟩ := List.exists_cons_of_ne_nil hne
      have ih := ih (by simp)
      rw [List.cons_append, hr] at *
      rw [appendPiece, ih]
      rfl
  · rename_i hlast
    exact appendPiece_of_ne hlast

/-- What a name is written as. -/
theorem nameWritten_encode (hn : n ≠ "" ∧ n ≠ "." ∧ n ≠ "..") :
    NameWritten (Percent.encode n) := by
  refine ⟨written_encode hn.1, fun h => hn.2.1 ?_, fun h => hn.2.2 ?_⟩
  · rw [← encode_dot.1] at h
    simpa using congrArg Percent.decode h
  · rw [← encode_dot.2] at h
    simpa using congrArg Percent.decode h

theorem last_encode (hn : n ≠ "." ∧ n ≠ "..") :
    Percent.encode n = "" ∨ NameWritten (Percent.encode n) := by
  by_cases h : n = ""
  · exact .inl (Percent.encode_eq_empty.mpr h)
  · exact .inr (nameWritten_encode ⟨h, hn⟩)

/-- A segment that a name is written as is appended by that name. -/
theorem isChild_of_written {piece : String} (h : piece = "" ∨ NameWritten piece) :
    IsChild u { u with encodedPath := openPath u.encodedPath ++ [piece] } := by
  have hwritten : Percent.encode (Percent.decode piece) = piece := by
    rcases h with rfl | h
    · decide
    · exact h.1.2
  refine ⟨Percent.decode piece,
    buildNamedChildUri_eq_some_iff.mpr ⟨⟨fun hd => ?_, fun hd => ?_⟩, ?_⟩⟩
  · rw [hd, encode_dot.1] at hwritten
    rcases h with rfl | h
    · exact absurd hwritten (by decide)
    · exact h.2.1 hwritten.symm
  · rw [hd, encode_dot.2] at hwritten
    rcases h with rfl | h
    · exact absurd hwritten (by decide)
    · exact h.2.2 hwritten.symm
  · unfold appendPath
    rw [hwritten, appendPiece_eq]

theorem openPath_concat {piece : String} (h : piece ≠ "") :
    openPath (ps ++ [piece]) = ps ++ [piece] := by
  unfold openPath
  rw [List.getLast?_concat, if_neg (fun he => h (Option.some.inj he))]

theorem openPath_concat_empty : openPath (ps ++ [""]) = ps := by
  unfold openPath
  rw [List.getLast?_concat, if_pos rfl, List.dropLast_concat]

theorem goesOn_of_descends (h : Descends p c) : GoesOn p c := by
  induction h with
  | single h =>
    obtain ⟨n, hn⟩ := h
    obtain ⟨hdot, rfl⟩ := buildNamedChildUri_eq_some_iff.mp hn
    exact ⟨rfl, [], _, appendPiece_eq, nofun, last_encode hdot⟩
  | tail _ h ih =>
    obtain ⟨n, hn⟩ := h
    obtain ⟨hdot, rfl⟩ := buildNamedChildUri_eq_some_iff.mp hn
    obtain ⟨hauthority, front, last, hpath, hfront, hlast⟩ := ih
    refine ⟨hauthority, ?_⟩
    change ∃ front last, appendPiece _ _ = _ ∧ _
    rw [hpath, appendPiece_eq, ← List.append_assoc]
    rcases hlast with rfl | hlast
    · refine ⟨front, _, ?_, hfront, last_encode hdot⟩
      rw [openPath_concat_empty, List.append_assoc]
    · refine ⟨front ++ [last], _, ?_, fun piece hpiece => ?_, last_encode hdot⟩
      · rw [openPath_concat hlast.1.1]
        simp only [List.append_assoc]
      · rcases List.mem_append.mp hpiece with h | h
        · exact hfront piece h
        · exact List.mem_singleton.mp h ▸ hlast

theorem descends_path {front : List String} {last : String}
    (hfront : ∀ piece ∈ front, NameWritten piece) (hlast : last = "" ∨ NameWritten last) :
    Descends p { p with encodedPath := openPath p.encodedPath ++ (front ++ [last]) } := by
  induction front generalizing p with
  | nil => exact .single (isChild_of_written hlast)
  | cons piece front ih =>
    have hpiece := hfront piece List.mem_cons_self
    refine .head (isChild_of_written (.inr hpiece)) ?_
    have hrest := ih (p := { p with encodedPath := openPath p.encodedPath ++ [piece] })
      fun q hq => hfront q (List.mem_cons_of_mem piece hq)
    dsimp only at hrest
    rw [openPath_concat hpiece.1.1, List.append_assoc] at hrest
    exact hrest

/-- **A descendant is what goes on** behind the path. -/
theorem descends_iff_goesOn (hp : Handed p) (hc : Handed c) : Descends p c ↔ GoesOn p c := by
  refine ⟨goesOn_of_descends, ?_⟩
  rintro ⟨hauthority, front, last, hpath, hfront, hlast⟩
  obtain ⟨a, hpa⟩ := hp.plain
  obtain ⟨b, hcb⟩ := hc.plain
  have heq : c = { p with encodedPath := openPath p.encodedPath ++ (front ++ [last]) } := by
    cases c
    simp only [Uri.mk.injEq]
    exact ⟨hcb.scheme.trans hpa.scheme.symm, hauthority.symm, hpath,
      hcb.query.trans hpa.query.symm, hcb.fragment.trans hpa.fragment.symm⟩
  rw [heq]
  exact descends_path hfront hlast

/-! ## The text of a descendant -/

/-- **Overlapping documents** are those whose texts start alike. -/
theorem isChildDocument_iff_overlaps (hp : Handed p) (hc : Handed c) :
    isChildDocument p.toDocumentId c.toDocumentId = true ↔ Overlaps p c := by
  obtain ⟨a, hpa⟩ := hp.plain
  obtain ⟨b, hcb⟩ := hc.plain
  unfold isChildDocument toDocumentId
  rw [List.isPrefixOf_iff_prefix]
  constructor
  · intro h
    rcases hpa.prefix_cases hcb h with ⟨hnil, hhost⟩ | ⟨hab, hpath⟩
    · exact .inl ⟨hnil, _, _, hpa.authority, hcb.authority, hhost⟩
    · exact .inr ⟨by rw [hpa.authority, hcb.authority, hab], hpath⟩
  · rw [hpa.toList_toString, hcb.toList_toString, List.prefix_append_right_inj]
    rintro (⟨hnil, a', b', ha, hb, hhost⟩ | ⟨hauthority, front, last, more, rest, hps, hcs, hlast⟩)
    · obtain rfl := Option.some.inj (hpa.authority.symm.trans ha)
      obtain rfl := Option.some.inj (hcb.authority.symm.trans hb)
      rw [hnil, pathChars, List.flatMap_nil, List.append_nil]
      exact hhost.trans (List.prefix_append _ _)
    · have hab := Option.some.inj (hpa.authority.symm.trans (hauthority.trans hcb.authority))
      rw [hab, List.prefix_append_right_inj, hps, hcs, pathChars_append, pathChars_append,
        List.prefix_append_right_inj, pathChars, List.flatMap_singleton]
      obtain ⟨tail, htail⟩ := hlast
      refine ⟨tail ++ pathChars rest, ?_⟩
      change '/' :: last.toList ++ _ = '/' :: more.toList ++ pathChars rest
      rw [← htail]
      simp

theorem overlaps_self (hp : Handed p) : Overlaps p p := by
  rw [← isChildDocument_iff_overlaps hp hp]
  exact List.isPrefixOf_iff_prefix.mpr List.prefix_rfl

theorem overlaps_of_goesOn (hp : Handed p) (hc : Handed c) (h : GoesOn p c) : Overlaps p c := by
  obtain ⟨hauthority, front, last, hpath, _⟩ := h
  obtain ⟨a, hpa⟩ := hp.plain
  obtain ⟨b, hcb⟩ := hc.plain
  obtain ⟨more, rest, hmore⟩ := List.exists_cons_of_ne_nil (show front ++ [last] ≠ [] by simp)
  rcases List.eq_nil_or_concat p.encodedPath with hnil | ⟨ps, piece, hps⟩
  · refine .inl ⟨hnil, _, _, hpa.authority, hcb.authority, ?_⟩
    have hab := Option.some.inj (hpa.authority.symm.trans (hauthority.trans hcb.authority))
    exact hab ▸ List.prefix_rfl
  · refine .inr ⟨hauthority, ?_⟩
    rw [List.concat_eq_append] at hps
    by_cases hpiece : piece = ""
    · subst hpiece
      rw [hps, openPath_concat_empty, hmore] at hpath
      exact ⟨ps, "", more, rest, hps, hpath, List.nil_prefix⟩
    · rw [hps, openPath_concat hpiece, List.append_assoc] at hpath
      exact ⟨ps, piece, piece, front ++ [last], hps, hpath, List.prefix_rfl⟩

/-- **`isChildDocument` is the tree relation** for two documents, if and
only if they do not overlap, or are the same, or the one goes on behind
the path of the other. -/
theorem treeExact_iff (hp : Handed p) (hc : Handed c) :
    TreeExact p c ↔ (Overlaps p c → c = p ∨ GoesOn p c) := by
  unfold TreeExact
  rw [isChildDocument_iff_overlaps hp hc, descends_iff_goesOn hp hc]
  refine ⟨fun h => h.mp, fun h => ⟨h, ?_⟩⟩
  rintro (rfl | hgoes)
  · exact overlaps_self hp
  · exact overlaps_of_goesOn hp hc hgoes

/-- A file in a directory. -/
theorem treeExact_inside :
    TreeExact (ofShare "nas" "media") ((ofShare "nas" "media").appendPath "a") := by
  have hchild : (ofShare "nas" "media").buildNamedChildUri (some "a") =
      some ((ofShare "nas" "media").appendPath "a") := by decide
  exact (treeExact_iff .share (.child .share hchild)).mpr fun _ =>
    .inr ⟨rfl, [], "a", by decide, nofun, .inr (by decide)⟩

/-- **A share is no child of another one** whose name begins alike. -/
theorem not_treeExact_sibling : ¬ TreeExact (ofShare "nas" "media") (ofShare "nas" "media2") := by
  intro h
  rcases h.mp (by decide) with heq | hdescends
  · exact absurd heq (by decide)
  · obtain ⟨_, front, last, hpath, _⟩ := goesOn_of_descends hdescends
    have hmedia : openPath (ofShare "nas" "media").encodedPath = ["media"] := by decide
    have hmedia2 : (ofShare "nas" "media2").encodedPath = ["media2"] := by decide
    rw [hmedia, hmedia2] at hpath
    have hlength := congrArg List.length hpath
    simp at hlength

end Uri

end SambaProvider

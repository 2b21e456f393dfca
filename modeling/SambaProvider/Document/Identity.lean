import SambaProvider.Document.Uri

/-!
# Document ids

A document id is the text of its URI, and two URIs are the same document
if their texts are. A text is read from left to right: no part contains
the slash that ends it, so the text of one URI is a prefix of that of
another one only if the parts are, up to the last.

The URIs the provider hands out are a share and what child URIs are
built from it. The share is stored as it is, and everything below is
encoded, which is where the two differ.
-/

namespace SambaProvider

open Lib

namespace Uri

/-! ## The text -/

/-- The authority, as it stands in the text. -/
def authorityText (u : Uri) : String := u.encodedAuthority.elim "" ("//" ++ ·)

def pathText (ps : List String) : String := String.join (ps.map ("/" ++ ·))

/-- A query or a fragment, with the character before it. -/
def suffixText (mark : String) (part : Option String) : String :=
  if part.getD "" = "" then "" else mark ++ part.getD ""

/-- `toString()`. -/
def toString (u : Uri) : String :=
  u.scheme ++ ":" ++ u.authorityText ++ pathText u.encodedPath ++
    suffixText "?" u.encodedQuery ++ suffixText "#" u.encodedFragment

/-- An SMB URI that is an authority and a path. -/
structure Plain (u : Uri) (host : String) : Prop where
  scheme : u.scheme = "smb"
  authority : u.encodedAuthority = some host
  query : u.encodedQuery = none
  fragment : u.encodedFragment = none
  host : '/' ∉ host.toList
  pieces : ∀ p ∈ u.encodedPath, '/' ∉ p.toList

/-- The characters of a path. -/
def pathChars (ps : List String) : List Char := ps.flatMap fun p => '/' :: p.toList

variable {u v w : Uri} {a b s n : String} {ps qs : List String} {p q x y : List Char}

theorem toList_pathText : (pathText ps).toList = pathChars ps := by
  unfold pathText pathChars
  rw [String.toList_join, List.flatMap_map]
  refine List.flatMap_congr fun p _ => ?_
  rw [String.toList_append]
  rfl

theorem Plain.toList_toString (h : u.Plain a) :
    u.toString.toList = "smb://".toList ++ (a.toList ++ pathChars u.encodedPath) := by
  unfold toString
  rw [h.scheme, authorityText, h.authority, h.query, h.fragment]
  have hmark : "smb://".toList = "smb".toList ++ ":".toList ++ "//".toList := by decide
  simp only [suffixText, Option.getD_none, if_true, Option.elim_some, String.toList_append,
    toList_pathText, hmark, List.append_assoc]
  simp

/-! ## Prefixes -/

/-- What follows a part of the text: nothing, or a slash. -/
def Ended (x : List Char) : Prop := x = [] ∨ ∃ y, x = '/' :: y

theorem ended_pathChars : Ended (pathChars ps) := by
  cases ps with
  | nil => exact .inl rfl
  | cons p ps => exact .inr ⟨_, rfl⟩

/-- A part ends at the first slash. -/
theorem prefix_of_prefix_append (hp : '/' ∉ p) (hy : Ended y) (h : p <+: q ++ y) : p <+: q := by
  induction p generalizing q with
  | nil => exact List.nil_prefix
  | cons c p ih =>
    have hc : c ≠ '/' := fun hc => hp (hc ▸ List.mem_cons_self)
    cases q with
    | nil =>
      rcases hy with rfl | ⟨z, rfl⟩
      · exact h
      · exact absurd (List.cons_prefix_cons.mp h).1 hc
    | cons d q =>
      obtain ⟨rfl, hrest⟩ := List.cons_prefix_cons.mp h
      exact List.cons_prefix_cons.mpr ⟨rfl, ih (fun hm => hp (List.mem_cons_of_mem c hm)) hrest⟩

/-- Two parts that go on are equal. -/
theorem eq_of_append_prefix_append (hp : '/' ∉ p) (hq : '/' ∉ q) (hy : Ended y)
    (h : p ++ '/' :: x <+: q ++ y) : p = q ∧ '/' :: x <+: y := by
  induction p generalizing q with
  | nil =>
    cases q with
    | nil => exact ⟨rfl, h⟩
    | cons d q =>
      obtain ⟨rfl, _⟩ := List.cons_prefix_cons.mp h
      exact absurd List.mem_cons_self hq
  | cons c p ih =>
    have hc : c ≠ '/' := fun hc => hp (hc ▸ List.mem_cons_self)
    cases q with
    | nil =>
      rcases hy with rfl | ⟨z, rfl⟩
      · cases List.prefix_nil.mp h
      · exact absurd (List.cons_prefix_cons.mp h).1 hc
    | cons d q =>
      obtain ⟨rfl, hrest⟩ := List.cons_prefix_cons.mp h
      obtain ⟨rfl, hxy⟩ := ih (fun hm => hp (List.mem_cons_of_mem c hm))
        (fun hm => hq (List.mem_cons_of_mem c hm)) hrest
      exact ⟨rfl, hxy⟩

/-- **A path whose text is a prefix** is a prefix up to its last piece. -/
theorem pathChars_prefix (hps : ∀ p ∈ ps, '/' ∉ p.toList) (hqs : ∀ q ∈ qs, '/' ∉ q.toList)
    (h : pathChars ps <+: pathChars qs) :
    ps = [] ∨ ∃ front last more rest, ps = front ++ [last] ∧ qs = front ++ more :: rest ∧
      last.toList <+: more.toList := by
  induction ps generalizing qs with
  | nil => exact .inl rfl
  | cons p ps ih =>
    right
    cases qs with
    | nil => cases List.prefix_nil.mp h
    | cons q qs =>
      have hp := hps p List.mem_cons_self
      have hq := hqs q List.mem_cons_self
      replace h : p.toList ++ pathChars ps <+: q.toList ++ pathChars qs :=
        (List.cons_prefix_cons.mp h).2
      cases ps with
      | nil =>
        rw [pathChars, List.flatMap_nil, List.append_nil] at h
        exact ⟨[], p, q, qs, rfl, rfl, prefix_of_prefix_append hp ended_pathChars h⟩
      | cons p' ps =>
        obtain ⟨heq, hrest⟩ := eq_of_append_prefix_append hp hq ended_pathChars h
        obtain rfl := String.toList_inj.mp heq
        rcases ih (fun r hr => hps r (List.mem_cons_of_mem p hr))
          (fun r hr => hqs r (List.mem_cons_of_mem p hr)) hrest with hnil | ⟨front, last, more,
            rest, hfront, hmore, hlast⟩
        · cases hnil
        · exact ⟨p :: front, last, more, rest, by rw [hfront]; rfl, by rw [hmore]; rfl, hlast⟩

/-- **A text that is a prefix**: one of an authority alone, whose
authority is a prefix, or one of the same authority and a path. -/
theorem Plain.prefix_cases (hu : u.Plain a) (hv : v.Plain b)
    (h : u.toString.toList <+: v.toString.toList) :
    (u.encodedPath = [] ∧ a.toList <+: b.toList) ∨
      a = b ∧ ∃ front last more rest, u.encodedPath = front ++ [last] ∧
        v.encodedPath = front ++ more :: rest ∧ last.toList <+: more.toList := by
  rw [hu.toList_toString, hv.toList_toString, List.prefix_append_right_inj] at h
  rcases hps : u.encodedPath with _ | ⟨p, ps⟩
  · rw [hps, pathChars, List.flatMap_nil, List.append_nil] at h
    exact .inl ⟨rfl, prefix_of_prefix_append hu.host ended_pathChars h⟩
  · right
    rw [hps] at h
    obtain ⟨heq, hrest⟩ := eq_of_append_prefix_append hu.host hv.host ended_pathChars h
    have hpath : pathChars u.encodedPath <+: pathChars v.encodedPath := hps ▸ hrest
    rw [← hps]
    rcases pathChars_prefix hu.pieces hv.pieces hpath with hnil | hcases
    · cases hps.symm.trans hnil
    · exact ⟨String.toList_inj.mp heq, hcases⟩

theorem pathChars_append : pathChars (ps ++ qs) = pathChars ps ++ pathChars qs :=
  List.flatMap_append

/-- Two texts that are equal are so part by part. -/
theorem eq_of_append_eq (hp : '/' ∉ p) (hq : '/' ∉ q) (hx : Ended x) (hy : Ended y)
    (h : p ++ x = q ++ y) : p = q ∧ x = y := by
  have hpq : p = q := by
    refine List.IsPrefix.eq_of_length_le ?_ ?_
    · exact prefix_of_prefix_append hp hy ⟨x, h⟩
    · exact (prefix_of_prefix_append hq hx ⟨y, h.symm⟩).length_le
  subst hpq
  exact ⟨rfl, List.append_cancel_left h⟩

theorem eq_of_pathChars_eq (hps : ∀ p ∈ ps, '/' ∉ p.toList) (hqs : ∀ q ∈ qs, '/' ∉ q.toList)
    (h : pathChars ps = pathChars qs) : ps = qs := by
  induction ps generalizing qs with
  | nil =>
    cases qs with
    | nil => rfl
    | cons q qs => cases h
  | cons p ps ih =>
    cases qs with
    | nil => cases h
    | cons q qs =>
      have hcons : p.toList ++ pathChars ps = q.toList ++ pathChars qs := (List.cons.inj h).2
      obtain ⟨hpq, hrest⟩ := eq_of_append_eq (hps p List.mem_cons_self)
        (hqs q List.mem_cons_self) ended_pathChars ended_pathChars hcons
      rw [String.toList_inj.mp hpq, ih (fun r hr => hps r (List.mem_cons_of_mem p hr))
        (fun r hr => hqs r (List.mem_cons_of_mem q hr)) hrest]

/-- **A text names one URI.** -/
theorem Plain.eq_of_toString_eq (hu : u.Plain a) (hv : v.Plain b)
    (h : u.toString = v.toString) : u = v := by
  have hchars : a.toList ++ pathChars u.encodedPath = b.toList ++ pathChars v.encodedPath := by
    have hlist := congrArg String.toList h
    rwa [hu.toList_toString, hv.toList_toString, List.append_cancel_left_eq] at hlist
  obtain ⟨hhost, hpath⟩ :=
    eq_of_append_eq hu.host hv.host ended_pathChars ended_pathChars hchars
  obtain rfl := String.toList_inj.mp hhost
  cases u
  cases v
  simp only [Uri.mk.injEq]
  exact ⟨hu.scheme.trans hv.scheme.symm, hu.authority.trans hv.authority.symm,
    eq_of_pathChars_eq hu.pieces hv.pieces hpath, hu.query.trans hv.query.symm,
    hu.fragment.trans hv.fragment.symm⟩

/-! ## What is handed out -/

theorem not_mem_encode : '/' ∉ (Percent.encode s).toList := by
  have hdigit : ∀ m < 16, Percent.hexDigit m ≠ '/' := by decide
  have hescape (byte : UInt8) : '/' ∉ Percent.escape byte := by
    have hlt : byte.toNat < 256 := byte.toNat_lt
    simp only [Percent.escape, List.mem_cons, List.not_mem_nil, or_false, not_or]
    exact ⟨by decide, (hdigit _ (by omega)).symm, (hdigit _ (by omega)).symm⟩
  unfold Percent.encode
  rw [String.toList_ofList, List.mem_flatMap]
  rintro ⟨c, _, hc⟩
  unfold Percent.encodeChar at hc
  split at hc
  · rename_i hunreserved
    obtain rfl := List.mem_singleton.mp hc
    exact absurd hunreserved (by decide)
  · obtain ⟨byte, _, hbyte⟩ := List.mem_flatMap.mp hc
    exact hescape byte hbyte

theorem not_mem_of_mem_splitOn {mark : Char} {l piece : List Char}
    (h : piece ∈ l.splitOn mark) : mark ∉ piece := by
  induction l generalizing piece with
  | nil =>
    rw [List.splitOn_nil, List.mem_singleton] at h
    rw [h]
    exact List.not_mem_nil
  | cons c l ih =>
    rw [List.splitOn_cons_eq_if_modifyHead] at h
    split at h
    · rcases List.mem_cons.mp h with rfl | h
      · exact List.not_mem_nil
      · exact ih h
    · rename_i hc
      obtain ⟨first, rest, hl⟩ := List.exists_cons_of_ne_nil (List.splitOn_ne_nil mark l)
      rw [hl, List.modifyHead_cons] at h
      rcases List.mem_cons.mp h with rfl | h
      · have hfirst := ih (hl ▸ List.mem_cons_self)
        simp only [List.mem_cons, not_or]
        exact ⟨fun he => hc (by simp [← he]), hfirst⟩
      · exact ih (hl ▸ List.mem_cons_of_mem first h)

/-- **The URIs the provider hands out**: a share, and what is below. -/
inductive Handed : Uri → Prop
  | share {host share : String} : Handed (ofShare host share)
  | child {u v : Uri} {name : String} :
    Handed u → u.buildNamedChildUri (some name) = some v → Handed v

theorem buildNamedChildUri_eq_some_iff :
    u.buildNamedChildUri (some n) = some v ↔ (n ≠ "." ∧ n ≠ "..") ∧ v = u.appendPath n := by
  unfold buildNamedChildUri
  by_cases h : n = "." ∨ n = ".."
  · rw [if_pos (by simpa using h)]
    constructor
    · exact nofun
    · rintro ⟨⟨h₁, h₂⟩, _⟩
      rcases h with h | h
      · exact absurd h h₁
      · exact absurd h h₂
  · rw [if_neg (by simpa using h), Option.some.injEq, eq_comm]
    rw [not_or] at h
    exact ⟨fun hv => ⟨h, hv⟩, fun hv => hv.2⟩

theorem mem_appendPiece {piece p' : String} (h : p' ∈ appendPiece ps piece) :
    p' ∈ ps ∨ p' = piece := by
  fun_induction appendPiece ps piece with
  | case1 piece => exact .inr (List.mem_singleton.mp h)
  | case2 piece => exact .inr (List.mem_singleton.mp h)
  | case3 last piece hlast =>
    rcases List.mem_cons.mp h with rfl | h
    · exact .inl List.mem_cons_self
    · exact .inr (List.mem_singleton.mp h)
  | case4 p q ps piece ih =>
    rcases List.mem_cons.mp h with rfl | h
    · exact .inl List.mem_cons_self
    · rcases ih h with h | h
      · exact .inl (List.mem_cons_of_mem p h)
      · exact .inr h

theorem appendPiece_ne_nil {piece : String} : appendPiece ps piece ≠ [] := by
  fun_induction appendPiece ps piece with
  | case1 piece => exact List.cons_ne_nil _ _
  | case2 piece => exact List.cons_ne_nil _ _
  | case3 last piece hlast => exact List.cons_ne_nil _ _
  | case4 p q ps piece ih => exact List.cons_ne_nil _ _

theorem Plain.appendPath (h : u.Plain a) : (u.appendPath n).Plain a where
  scheme := h.scheme
  authority := h.authority
  query := h.query
  fragment := h.fragment
  host := h.host
  pieces p hp := by
    rcases mem_appendPiece hp with hp | rfl
    · exact h.pieces p hp
    · exact not_mem_encode

theorem plain_ofShare {host share : String} :
    (ofShare host share).Plain (Percent.encode host) where
  scheme := rfl
  authority := rfl
  query := rfl
  fragment := rfl
  host := not_mem_encode
  pieces p hp := by
    have hpieces : p ∈ (share.toList.splitOn '/').map String.ofList := by
      change p ∈ (if share = "" then _ else _) at hp
      split at hp
      · cases hp
      · split at hp
        · exact List.mem_of_mem_tail hp
        · exact hp
    obtain ⟨piece, hpiece, rfl⟩ := List.mem_map.mp hpieces
    rw [String.toList_ofList]
    exact not_mem_of_mem_splitOn hpiece

/-- A host stays as it was encoded, all the way down. -/
theorem Handed.plain (h : Handed u) : ∃ host, u.Plain (Percent.encode host) := by
  induction h with
  | share => exact ⟨_, plain_ofShare⟩
  | child _ hv ih =>
    obtain ⟨host, hplain⟩ := ih
    obtain ⟨_, rfl⟩ := buildNamedChildUri_eq_some_iff.mp hv
    exact ⟨host, hplain.appendPath⟩

end Uri

end SambaProvider

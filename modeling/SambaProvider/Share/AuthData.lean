import SambaProvider.Document.Family
import SambaProvider.Share.Atomic

/-!
# The key of the credentials

The credentials of a share are stored under the text of its URI. When
the library asks for them it names the server and the share, decoded, and
`GetAuthData` builds the key from these. On the Java side the host is
encoded and the share is not, so the two keys agree only where encoding
and decoding do nothing.
-/

namespace SambaProvider

open Lib Uri

/-! ## The native side -/

/-- The octets of a text. The JNI hands out a variant of UTF-8, on both
ways the same one. -/
def utf8 (s : String) : List UInt8 := s.toList.flatMap String.utf8EncodeChar

/-- The value of a hexadecimal digit. -/
def hexByte (b : UInt8) : Option ℕ := Percent.hexValue (Char.ofNat b.toNat)

/-- `smbc_urldecode`: a `%` without two digits is left as it is. -/
def urldecode : List UInt8 → List UInt8
  | 0x25 :: a :: b :: rest =>
    match hexByte a, hexByte b with
    | some x, some y => UInt8.ofNat (16 * x + y) :: urldecode rest
    | _, _ => 0x25 :: urldecode (a :: b :: rest)
  | c :: rest => c :: urldecode rest
  | [] => []

/-- A URL `smb://S/H/...` behind its scheme. -/
def urlRest (url : String) : List Char := url.toList.drop 6

/-- The server of a URL. -/
def urlServer (url : String) : List Char := (urlRest url).takeWhile (· ≠ '/')

/-- The share of a URL. -/
def urlShare (url : String) : List Char :=
  ((urlRest url).dropWhile (· ≠ '/')).tail.takeWhile (· ≠ '/')

/-- The key `GetAuthData` builds, from the server and the share the library
hands it for a URL. -/
def authKey (url : String) : List UInt8 :=
  utf8 "smb://" ++ urldecode (utf8 (String.ofList (urlServer url))) ++ utf8 "/" ++
    urldecode (utf8 (String.ofList (urlShare url)))

/-- `CredentialCache::get`, for the octets of a key. -/
def CredentialCache.getBytes (c : CredentialCache) (key : List UInt8) : CredentialTuple :=
  let text := String.ofList (Percent.readUtf8 key.length key)
  if utf8 text = key then c.get text else .empty

/-- The tuple `GetAuthData` looks up for a URL. -/
def getAuthData (c : CredentialCache) (url : String) : CredentialTuple := c.getBytes (authKey url)

/-! ## Octets -/

section Octets

variable {s t host : String} {bs : List UInt8} {c : CredentialCache}

theorem utf8_injective (h : utf8 s = utf8 t) : s = t := by
  have hread (s : String) : Percent.readUtf8 (utf8 s).length (utf8 s) = s.toList :=
    Percent.readUtf8_flatMap Percent.length_le_length_flatMap
  refine String.toList_inj.mp ?_
  rw [← hread s, ← hread t, h]

theorem getBytes_utf8 : c.getBytes (utf8 s) = c.get s := by
  have hread : String.ofList (Percent.readUtf8 (utf8 s).length (utf8 s)) = s := by
    rw [utf8, Percent.readUtf8_flatMap Percent.length_le_length_flatMap, String.ofList_toList]
  unfold CredentialCache.getBytes
  simp only [hread, if_true]

theorem length_urldecode_le : (urldecode bs).length ≤ bs.length := by
  fun_induction urldecode bs with
  | case1 a b rest x y hx hy ih =>
    simp only [List.length_cons]
    omega
  | case2 a b rest h ih =>
    simp only [List.length_cons] at ih ⊢
    omega
  | case3 c rest h ih =>
    simp only [List.length_cons]
    omega
  | case4 => exact Nat.le_refl _

theorem urldecode_cons {b : UInt8} (h : b ≠ 0x25) : urldecode (b :: bs) = b :: urldecode bs := by
  rw [urldecode]
  intro a c rest hb
  exact absurd hb h

theorem urldecode_escape {b : UInt8} :
    urldecode ((Percent.escape b).flatMap String.utf8EncodeChar ++ bs) = b :: urldecode bs := by
  have hdigit : ∀ m < 16, ∃ d, String.utf8EncodeChar (Percent.hexDigit m) = [d] ∧
      hexByte d = some m := by
    have hall : ∀ m < 16, String.utf8EncodeChar (Percent.hexDigit m) =
        [UInt8.ofNat (Percent.hexDigit m).toNat] ∧
        hexByte (UInt8.ofNat (Percent.hexDigit m).toNat) = some m := by decide
    exact fun m hm => ⟨_, hall m hm⟩
  have hlt : b.toNat < 256 := b.toNat_lt
  obtain ⟨x, hx, hxv⟩ := hdigit (b.toNat / 16) (by omega)
  obtain ⟨y, hy, hyv⟩ := hdigit (b.toNat % 16) (by omega)
  have hpercent : String.utf8EncodeChar '%' = [0x25] := by decide
  have hbyte : UInt8.ofNat (16 * (b.toNat / 16) + b.toNat % 16) = b := by
    rw [Nat.div_add_mod]
    exact UInt8.ofNat_toNat
  have hbytes : (Percent.escape b).flatMap String.utf8EncodeChar = [0x25, x, y] := by
    simp only [Percent.escape, List.flatMap_cons, List.flatMap_nil, hpercent, hx, hy]
    rfl
  rw [hbytes]
  change urldecode (0x25 :: x :: y :: bs) = _
  rw [urldecode, hxv, hyv]
  simp only [hbyte]

theorem urldecode_flatMap_escape {bytes : List UInt8} :
    urldecode ((bytes.flatMap Percent.escape).flatMap String.utf8EncodeChar ++ bs) =
      bytes ++ urldecode bs := by
  induction bytes with
  | nil => rfl
  | cons b bytes ih =>
    rw [List.flatMap_cons, List.flatMap_append, List.append_assoc, urldecode_escape, ih]
    rfl

/-- An unreserved character is one octet, and no `%`. -/
theorem utf8EncodeChar_of_isUnreserved {c : Char} (h : Percent.isUnreserved c = true) :
    ∃ b, String.utf8EncodeChar c = [b] ∧ b ≠ 0x25 := by
  have hlt : c.toNat < 128 ∧ c.toNat ≠ 37 := by
    unfold Percent.isUnreserved Char.isAlphanum Char.isAlpha Char.isUpper Char.isLower
      Char.isDigit at h
    simp only [Bool.or_eq_true, Bool.and_eq_true, decide_eq_true_eq, List.contains_iff_mem,
      List.mem_cons, List.not_mem_nil, or_false, UInt32.le_iff_toNat_le, ge_iff_le] at h
    rcases h with h | h
    · have hA : 'A'.val.toNat = 65 := rfl
      have hZ : 'Z'.val.toNat = 90 := rfl
      have ha : 'a'.val.toNat = 97 := rfl
      have hz : 'z'.val.toNat = 122 := rfl
      have h0 : '0'.val.toNat = 48 := rfl
      have h9 : '9'.val.toNat = 57 := rfl
      have hc : c.toNat = c.val.toNat := rfl
      omega
    · rcases h with rfl | rfl | rfl | rfl | rfl | rfl | rfl | rfl | rfl
      all_goals decide
  refine ⟨UInt8.ofNat c.toNat, ?_, fun hb => hlt.2 ?_⟩
  · unfold String.utf8EncodeChar
    exact if_pos (Nat.le_of_lt_succ hlt.1)
  · have hnat := congrArg UInt8.toNat hb
    rw [UInt8.toNat_ofNat'] at hnat
    have hmod : c.toNat % 2 ^ 8 = 37 := hnat
    omega

theorem urldecode_encodeChar {c : Char} :
    urldecode ((Percent.encodeChar c).flatMap String.utf8EncodeChar ++ bs) =
      String.utf8EncodeChar c ++ urldecode bs := by
  unfold Percent.encodeChar
  split
  · rename_i hc
    obtain ⟨b, hb, hne⟩ := utf8EncodeChar_of_isUnreserved hc
    rw [List.flatMap_singleton, hb]
    exact urldecode_cons hne
  · exact urldecode_flatMap_escape

/-- **Decoding gives the text back** that was encoded. -/
theorem urldecode_utf8_encode : urldecode (utf8 (Percent.encode host)) = utf8 host := by
  have hchars (cs : List Char) :
      urldecode ((cs.flatMap Percent.encodeChar).flatMap String.utf8EncodeChar) =
        cs.flatMap String.utf8EncodeChar := by
    induction cs with
    | nil => rfl
    | cons c cs ih =>
      rw [List.flatMap_cons, List.flatMap_append, urldecode_encodeChar, ih, List.flatMap_cons]
  unfold utf8 Percent.encode
  rw [String.toList_ofList, hchars]

/-- No octet of another character is a slash. -/
theorem not_mem_utf8 (h : '/' ∉ s.toList) : 0x2F ∉ utf8 s := by
  intro hmem
  obtain ⟨c, hc, hbyte⟩ := List.mem_flatMap.mp hmem
  have hne : c.val.toNat ≠ 47 := fun hnat => h ((Char.toNat_inj.mp hnat : c = '/') ▸ hc)
  -- the octet read as a number; a lead or a continuation octet is at least 128
  have hread {n : ℕ} (he : (0x2F : UInt8) = UInt8.ofNat n) : n % 256 = 47 := by
    have hnat := congrArg UInt8.toNat he
    rw [UInt8.toNat_ofNat'] at hnat
    exact hnat.symm
  unfold String.utf8EncodeChar at hbyte
  dsimp only at hbyte
  split at hbyte
  · have hnat := hread (List.mem_singleton.mp hbyte)
    omega
  · simp only [apply_ite (fun l : List UInt8 => (0x2F : UInt8) ∈ l), List.mem_cons,
      List.not_mem_nil, or_false] at hbyte
    split at hbyte
    · rcases hbyte with he | he
      all_goals have hnat := hread he; omega
    · split at hbyte
      · rcases hbyte with he | he | he
        all_goals have hnat := hread he; omega
      · rcases hbyte with he | he | he | he
        all_goals have hnat := hread he; omega

end Octets

/-! ## The two keys -/

/-- The octets of a path. -/
def pathBytes (ps : List String) : List UInt8 := (pathChars ps).flatMap String.utf8EncodeChar

section Keys

variable {u : Uri} {host share piece : String} {ps : List String}

theorem pathBytes_cons : pathBytes (piece :: ps) = 0x2F :: (utf8 piece ++ pathBytes ps) := by
  have hslash : String.utf8EncodeChar '/' = [0x2F] := by decide
  unfold pathBytes pathChars utf8
  rw [List.flatMap_cons, List.flatMap_append, List.flatMap_cons, hslash]
  rfl

/-- The key on the Java side: the text of the URI. -/
theorem utf8_toString (h : u.Plain host) :
    utf8 u.toString = utf8 "smb://" ++ (utf8 host ++ pathBytes u.encodedPath) := by
  unfold utf8 pathBytes
  rw [h.toList_toString, List.flatMap_append, List.flatMap_append]

theorem takeWhile_append_pathChars {p : List Char} (h : '/' ∉ p) :
    (p ++ pathChars ps).takeWhile (· ≠ '/') = p ∧
      (p ++ pathChars ps).dropWhile (· ≠ '/') = pathChars ps := by
  have hall : ∀ c ∈ p, decide (c ≠ '/') = true :=
    fun c hc => decide_eq_true fun he => h (he ▸ hc)
  rw [List.takeWhile_append_of_pos hall, List.dropWhile_append_of_pos hall]
  rcases ps with _ | ⟨q, qs⟩
  · exact ⟨List.append_nil p, rfl⟩
  · exact ⟨by simp [pathChars], by simp [pathChars]⟩

/-- **The key on the native side**: the host decoded, and the first piece
of the path decoded. -/
theorem authKey_toString (h : u.Plain (Percent.encode host)) (hpath : u.encodedPath = piece :: ps) :
    authKey u.toString = utf8 "smb://" ++ (utf8 host ++ 0x2F :: urldecode (utf8 piece)) := by
  have hpiece : '/' ∉ piece.toList := h.pieces piece (hpath ▸ List.mem_cons_self)
  have hrest : urlRest u.toString = (Percent.encode host).toList ++ pathChars (piece :: ps) := by
    unfold urlRest
    rw [h.toList_toString, hpath]
    rfl
  have hserver : urlServer u.toString = (Percent.encode host).toList := by
    unfold urlServer
    rw [hrest, (takeWhile_append_pathChars h.host).1]
  have hshare : urlShare u.toString = piece.toList := by
    unfold urlShare
    rw [hrest, (takeWhile_append_pathChars h.host).2]
    exact (takeWhile_append_pathChars hpiece).1
  have hslash : utf8 "/" = [0x2F] := by decide
  unfold authKey
  rw [hserver, hshare, String.ofList_toList, String.ofList_toList, urldecode_utf8_encode, hslash]
  simp only [List.append_assoc, List.singleton_append]

/-- **The host as it is, and a share of one piece**: nothing in the host is
encoded, and nothing in the share is decoded. -/
def KeysAgree (host share : String) : Prop :=
  Percent.encode host = host ∧ ∃ piece, (ofShare host share).encodedPath = [piece] ∧
    piece ≠ "" ∧ urldecode (utf8 piece) = utf8 piece

/-- A document in the share: the share, or a descendant. -/
def InShare (host share : String) (doc : Uri) : Prop :=
  Relation.ReflTransGen IsChild (ofShare host share) doc

/-- What is in a share of one piece has it as its first. -/
theorem InShare.path {doc : Uri} (h : InShare host share doc)
    (hpath : (ofShare host share).encodedPath = [piece]) (hpiece : piece ≠ "") :
    doc.Plain (Percent.encode host) ∧ ∃ ps, doc.encodedPath = piece :: ps := by
  have hplain : doc.Plain (Percent.encode host) := by
    clear hpath
    induction h with
    | refl => exact plain_ofShare
    | tail _ hchild ih =>
      obtain ⟨n, hn⟩ := hchild
      obtain ⟨_, rfl⟩ := buildNamedChildUri_eq_some_iff.mp hn
      exact ih.appendPath
  refine ⟨hplain, ?_⟩
  rcases Relation.reflTransGen_iff_eq_or_transGen.mp h with rfl | hbelow
  · exact ⟨[], hpath⟩
  · obtain ⟨_, front, last, hgoes, _⟩ := goesOn_of_descends hbelow
    rw [hpath, openPath, List.getLast?_singleton,
      if_neg (fun he => hpiece (Option.some.inj he))] at hgoes
    exact ⟨front ++ [last], hgoes⟩

/-- **Where the keys agree** they do so all over the share. -/
theorem KeysAgree.authKey_eq {doc : Uri} (h : KeysAgree host share)
    (hdoc : InShare host share doc) :
    authKey doc.toString = utf8 (ofShare host share).toString := by
  obtain ⟨hhost, piece, hpath, hpiece, hdecode⟩ := h
  obtain ⟨hplain, ps, hps⟩ := hdoc.path hpath hpiece
  rw [authKey_toString hplain hps, utf8_toString plain_ofShare, hpath, pathBytes_cons, hhost,
    hdecode]
  simp [pathBytes, pathChars]

/-- **Where they agree for a child** nothing is encoded and nothing is
decoded: the encoded host is no shorter than the host and has no slash,
and the decoded share is no longer than the share. -/
theorem keysAgree_of_authKey_eq
    (h : authKey ((ofShare host share).appendPath "x").toString =
      utf8 (ofShare host share).toString) : KeysAgree host share := by
  obtain ⟨first, rest, hfirst⟩ := List.exists_cons_of_ne_nil
    (show openPath (ofShare host share).encodedPath ++ ["x"] ≠ [] by simp)
  have hx : Percent.encode "x" = "x" := by decide
  have hchild : ((ofShare host share).appendPath "x").encodedPath = first :: rest := by
    rw [← hfirst, ← hx]
    exact appendPiece_eq
  rw [authKey_toString plain_ofShare.appendPath hchild, utf8_toString plain_ofShare,
    List.append_cancel_left_eq] at h
  have hle : (utf8 host).length ≤ (utf8 (Percent.encode host)).length := by
    rw [← urldecode_utf8_encode]
    exact length_urldecode_le
  have hslash : 0x2F ∉ utf8 (Percent.encode host) := not_mem_utf8 not_mem_encode
  obtain ⟨hhost, hpath⟩ : utf8 host = utf8 (Percent.encode host) ∧
      0x2F :: urldecode (utf8 first) = pathBytes (ofShare host share).encodedPath := by
    rcases List.append_eq_append_iff.mp h with ⟨more, hencode, hmore⟩ | ⟨more, hencode, hmore⟩
    · cases more with
      | nil =>
        rw [List.append_nil] at hencode
        exact ⟨hencode.symm, hmore⟩
      | cons b more =>
        obtain ⟨rfl, _⟩ := List.cons.inj hmore
        refine absurd ?_ hslash
        rw [hencode]
        exact List.mem_append_right _ List.mem_cons_self
    · have hnil : more = [] := by
        rw [hencode, List.length_append] at hle
        exact List.length_eq_zero_iff.mp (by omega)
      subst hnil
      rw [List.append_nil] at hencode
      exact ⟨hencode, hmore.symm⟩
  refine ⟨(utf8_injective hhost).symm, ?_⟩
  rcases hps : (ofShare host share).encodedPath with _ | ⟨piece, ps⟩
  · rw [hps] at hpath
    cases hpath
  · rw [hps, pathBytes_cons] at hpath
    have hdecode := (List.cons.inj hpath).2
    by_cases hopen : openPath (piece :: ps) = []
    · -- the child of a share that is a slash has another first piece
      rw [hps, hopen] at hfirst
      obtain ⟨rfl, _⟩ := List.cons.inj hfirst
      have hpair : piece = "" ∧ ps = [] := by
        unfold openPath at hopen
        split at hopen
        · rename_i hlast
          obtain ⟨front, hfront⟩ := List.getLast?_eq_some_iff.mp hlast
          rw [hfront, List.dropLast_concat] at hopen
          rw [hopen, List.nil_append] at hfront
          exact List.cons.inj hfront
        · cases hopen
      rw [hpair.1, hpair.2] at hdecode
      exact absurd hdecode (by decide)
    · have heq : first = piece := by
        rw [hps] at hfirst
        unfold openPath at hfirst hopen
        split at hfirst
        · rename_i hlast
          rw [if_pos hlast] at hopen
          obtain ⟨q, qs, hq⟩ := List.exists_cons_of_ne_nil hopen
          have hprefix := List.dropLast_prefix (piece :: ps)
          rw [hq] at hfirst hprefix
          exact (List.cons.inj hfirst).1.symm.trans (List.cons_prefix_cons.mp hprefix).1
        · exact (List.cons.inj hfirst).1.symm
      subst heq
      have hnil : pathBytes ps = [] := by
        have hlength := congrArg List.length hdecode
        rw [List.length_append] at hlength
        have hle : (urldecode (utf8 first)).length ≤ (utf8 first).length := length_urldecode_le
        exact List.length_eq_zero_iff.mp (by omega)
      have hps' : ps = [] := by
        rcases ps with _ | ⟨q, qs⟩
        · rfl
        · rw [pathBytes_cons] at hnil
          cases hnil
      subst hps'
      rw [hnil, List.append_nil] at hdecode
      refine ⟨first, rfl, fun he => hopen ?_, hdecode⟩
      rw [he]
      rfl

end Keys

/-! ## The credentials of a mounted share -/

namespace ShareManager

variable (J : JsonText)

/-- A call that neither unmounts the URI nor saves it again. A save that
is refused before its check is none. -/
def LeavesAlone (uri : String) (m : ShareManager) (op : ShareOp) : Prop :=
  op ≠ .unmountServer uri ∧ ∀ a, m.willCheck op = some a → a.uri ≠ uri

/-- **The credentials of a share are found**: once it is added with a user
name and a password, and until it is unmounted or saved again, for every
document in it. -/
def Found (host share : String) : Prop :=
  ∀ (m : ShareManager) (a : SaveArgs) (ops : List ShareOp),
    a.uri = (ofShare host share).toString → a.username ≠ "" → a.password ≠ "" →
    (m.addServer J a).1 = .ok () →
    EveryStep (fun m op => (m.call J op).2) (LeavesAlone a.uri) (m.addServer J a).2 ops →
    ∀ doc, InShare host share doc →
      getAuthData (ops.foldl (fun m op => (m.call J op).2) (m.addServer J a).2).credentialCache
        doc.toString = ⟨a.workgroup, a.username, a.password⟩

variable {m : ShareManager} {a : SaveArgs} {op : ShareOp} {uri host share : String}

/-- A save touches the credentials of its URI alone. -/
theorem get_saveServerInfo (h : a.uri ≠ uri) :
    (m.saveServerInfo J a).2.credentialCache.get uri = m.credentialCache.get uri := by
  unfold saveServerInfo checkServerCredentials
  rcases a.checker with _ | e
  · change CredentialCache.get (if _ then _ else _) uri = _
    split
    · exact CredentialCache.get_put_ne h.symm _ _
    · rfl
  · change CredentialCache.get (CredentialCache.remove (if _ then _ else _) a.uri) uri = _
    split
    · simp [CredentialCache.get, CredentialCache.remove, CredentialCache.put, h.symm]
    · simp [CredentialCache.get, CredentialCache.remove, h.symm]

theorem get_call (h : m.LeavesAlone uri op) :
    (m.call J op).2.credentialCache.get uri = m.credentialCache.get uri := by
  cases op with
  | addServer a =>
    change (m.addServer J a).2.credentialCache.get uri = _
    unfold addServer
    split
    · rfl
    · rename_i hm
      exact get_saveServerInfo J (h.2 a (if_neg hm))
  | addOrUpdateServer a => exact get_saveServerInfo J (h.2 a rfl)
  | unmountServer uri' =>
    have hne : uri ≠ uri' := fun he => h.1 (he ▸ rfl)
    change (m.unmountServer uri').2.credentialCache.get uri = _
    unfold unmountServer
    split
    · rfl
    · split
      · simp [CredentialCache.get, CredentialCache.remove, hne]
      · rfl

/-- **The credentials stay** as long as their URI is left alone. -/
theorem get_foldl_call {ops : List ShareOp}
    (h : EveryStep (fun m op => (m.call J op).2) (LeavesAlone uri) m ops) :
    (ops.foldl (fun m op => (m.call J op).2) m).credentialCache.get uri =
      m.credentialCache.get uri := by
  induction ops generalizing m with
  | nil => rfl
  | cons op ops ih => exact (ih h.2).trans (get_call J h.1)

theorem get_addServer (hu : a.username ≠ "") (hp : a.password ≠ "")
    (h : (m.addServer J a).1 = .ok ()) :
    (m.addServer J a).2.credentialCache.get a.uri = ⟨a.workgroup, a.username, a.password⟩ := by
  have hpassword : a.hasPassword = true := by simp [SaveArgs.hasPassword, hu, hp]
  unfold addServer at h ⊢
  split at h
  · cases h
  · rename_i hm
    rw [if_neg hm]
    unfold saveServerInfo checkServerCredentials at h ⊢
    rcases hc : a.checker with _ | e
    · rw [hpassword]
      exact CredentialCache.get_put_self _ _ _
    · rw [hc] at h
      cases h

/-- **The credentials are found**, if and only if the host is one that is
encoded as itself, and the share is one piece that is decoded as itself. -/
theorem found_iff_keysAgree : Found J host share ↔ KeysAgree host share := by
  constructor
  · intro hfound
    let a : SaveArgs := ⟨(ofShare host share).toString, "", "u", "p", none, true⟩
    have hok : (ShareRun.start.manager.addServer J a).1 = .ok () := rfl
    have hchild : InShare host share ((ofShare host share).appendPath "x") :=
      .single ⟨"x", buildNamedChildUri_eq_some_iff.mpr ⟨by decide, rfl⟩⟩
    have hget := hfound _ a [] rfl (show "u" ≠ "" by decide) (show "p" ≠ "" by decide) hok trivial _
      hchild
    refine keysAgree_of_authKey_eq ?_
    -- nothing else is in the cache
    have hcache : (ShareRun.start.manager.addServer J a).2.credentialCache =
        CredentialCache.put (fun _ => none) (ofShare host share).toString ⟨"", "u", "p"⟩ := rfl
    rw [List.foldl_nil, hcache, getAuthData, CredentialCache.getBytes] at hget
    split at hget
    · rename_i hkey
      rw [← hkey]
      by_contra hne
      rw [CredentialCache.get_put_ne fun he => hne (congrArg utf8 he)] at hget
      exact absurd hget (show CredentialTuple.empty ≠ ⟨"", "u", "p"⟩ by decide)
    · exact absurd hget (show CredentialTuple.empty ≠ ⟨"", "u", "p"⟩ by decide)
  · intro hagree m a ops huri hu hp hok hops doc hdoc
    rw [getAuthData, hagree.authKey_eq hdoc, getBytes_utf8, ← huri, get_foldl_call J hops,
      get_addServer J hu hp hok]

/-- A host with a blank. -/
theorem not_found_blank :
    parseSharePath "\\\\my nas\\media" = .ok (some ("my nas", "media")) ∧
      ¬ Found .compact "my nas" "media" := by
  refine ⟨by decide, fun hfound => ?_⟩
  let a : SaveArgs := ⟨(ofShare "my nas" "media").toString, "", "bob", "pw", none, true⟩
  have hget := hfound ShareRun.start.manager a [] rfl (by decide) (by decide) rfl trivial _ .refl
  revert hget
  decide

end ShareManager

end SambaProvider

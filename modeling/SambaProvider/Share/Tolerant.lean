import SambaProvider.Share.Reading

/-!
# Tolerating bad entries

The constructor loads every string that carries an entry, whatever else is
in the preference, exactly where each of the strings can be read: it is an
entry of known members, or breaks off before anything else is wrong with
it. A string that breaks off carries nothing and changes nothing; a string
that cannot be read takes all the others with it.
-/

namespace SambaProvider

open Lib

variable {ts w : List JsonToken}

/-! ## Words and values -/

theorem comparable_cons {s t : JsonToken} {p q : List JsonToken} :
    Comparable (s :: p) (t :: q) ↔ s = t ∧ Comparable p q := by
  unfold Comparable
  rw [List.cons_prefix_cons, List.cons_prefix_cons]
  constructor
  · rintro (⟨hst, h⟩ | ⟨hts, h⟩)
    · exact ⟨hst, .inl h⟩
    · exact ⟨hts.symm, .inr h⟩
  · rintro ⟨rfl, h | h⟩
    · exact .inl ⟨rfl, h⟩
    · exact .inr ⟨rfl, h⟩

section Members

variable {σ : Type} {M : σ → Language JsonToken (σ ⊕ σ)} {s s' : σ}

/-- A member loop goes on with a name, or the end of the object. -/
theorem MemberWords.head (hM : MemberWords M) (h : LoopWord M s w s') :
    ∃ t rest, w = t :: rest ∧ (t = .endObject ∨ ∃ key, t = .name key) := by
  have hround (s : σ) (w : List JsonToken) (x : σ ⊕ σ) (hw : M s w x) :
      ∃ t rest, w = t :: rest ∧ (t = .endObject ∨ ∃ key, t = .name key) := by
    rcases (hM s w x).mp hw with ⟨key, w', rfl, -⟩ | ⟨rfl, -⟩
    · exact ⟨_, _, rfl, .inr ⟨key, rfl⟩⟩
    · exact ⟨_, _, rfl, .inl rfl⟩
  cases h with
  | stop hw => exact hround _ _ _ hw
  | more hw _ =>
    obtain ⟨t, rest, rfl, ht⟩ := hround _ _ _ hw
    exact ⟨t, _, rfl, ht⟩

/-- **The words of a member loop and the members of an object**: they
agree, and what the loop ends with follows from the members. A name whose
value is not read is followed by a name, and in the object by a value. -/
theorem MemberWords.eq_tokens (hM : MemberWords M) {R : σ → JsonMembers → σ → Prop}
    (hstop : ∀ s w s', M s w (.inr s') → w = [.endObject] ∧ R s .nil s')
    (hmore : ∀ s key w s₁, M s (.name key :: w) (.inl s₁) → w = [] ∨
      ∀ v : Json, Comparable w v.tokens → w = v.tokens ∧
        ∀ ms s', R s₁ ms s' → R s (.cons key v ms) s')
    (h : LoopWord M s w s') {ms : JsonMembers} (hc : Comparable w ms.tokens) :
    w = ms.tokens ∧ R s ms s' := by
  induction h generalizing ms with
  | stop hw =>
    obtain ⟨rfl, hR⟩ := hstop _ _ _ hw
    cases ms with
    | nil => exact ⟨rfl, hR⟩
    | cons name value ms => cases (comparable_cons.mp hc).1
  | @more s s₁ w w' s' hw hrest ih =>
    rcases (hM s w _).mp hw with ⟨key, w₁, rfl, hmember⟩ | ⟨-, hx⟩
    · cases ms with
      | nil => cases (comparable_cons.mp hc).1
      | cons name value ms =>
        obtain ⟨hname, hvalue⟩ := comparable_cons.mp hc
        cases hname
        rcases hmore s key w₁ s₁ hmember with rfl | hvalues
        · -- The value would have to begin with a name.
          obtain ⟨t, rest, rfl, ht⟩ := hM.head hrest
          obtain ⟨t', rest', htokens, -, hend, hnot⟩ := value.tokens_head
          rw [htokens] at hvalue
          obtain ⟨rfl, -⟩ := comparable_cons.mp hvalue
          rcases ht with ht | ⟨key, ht⟩
          · exact absurd ht hend
          · exact absurd ht (hnot key)
        · have hw₁ : Comparable w₁ value.tokens := by
            rcases hvalue with hp | hp
            · exact comparable_of_prefix ((List.prefix_append w₁ w').trans hp)
                (List.prefix_append _ _)
            · exact comparable_of_prefix (List.prefix_append w₁ w')
                ((List.prefix_append _ _).trans hp)
          obtain ⟨rfl, hR⟩ := hvalues value hw₁
          obtain ⟨rfl, hms⟩ := ih (comparable_append_left.mp hvalue)
          exact ⟨rfl, hR ms s' hms⟩
    · cases hx

end Members

/-- What is found in an object is found behind its first member, or is
that. -/
theorem JsonMembers.elim_find_cons {β : Type} (name key : String) (value : Json)
    (ms : JsonMembers) (d : β) (g : Json → β) :
    ((JsonMembers.cons name value ms).find key).elim d g =
      (ms.find key).elim (if name = key then g value else d) g := by
  rw [JsonMembers.find]
  cases ms.find key with
  | some v => rfl
  | none =>
    dsimp only
    split <;> rfl

/-- A token `nextString` takes is a value of its own. -/
theorem Json.eq_tokens_of_text {t : JsonToken} {s : String} (ht : t.text = some s) {v : Json}
    (h : Comparable [t] v.tokens) : [t] = v.tokens ∧ v.text = some s := by
  cases v <;> cases (comparable_cons.mp h).1 <;> first
    | exact ⟨rfl, ht⟩
    | cases ht

theorem Json.eq_tokens_of_boolean {b : Bool} {v : Json}
    (h : Comparable [.boolean b] v.tokens) :
    [.boolean b] = v.tokens ∧ Json.flag (some v) = some b := by
  cases v <;> cases (comparable_cons.mp h).1
  exact ⟨rfl, rfl⟩

/-- The fields that the members of an object leave. -/
structure TupleFields.Left (f : TupleFields) (ms : JsonMembers) (f' : TupleFields) : Prop where
  workgroup : f'.workgroup = (ms.find "workgroup").elim f.workgroup Json.text
  username : f'.username = (ms.find "username").elim f.username Json.text
  password : f'.password = (ms.find "password").elim f.password Json.text
  mounted : some f'.mounted =
    (ms.find "mount").elim (some f.mounted) fun v => Json.flag (some v)

/-- What the first member leaves, and then the others. -/
theorem TupleFields.Left.cons {f f₁ f' : TupleFields} {key : String} {v : Json}
    {ms : JsonMembers} (h₁ : f.Left (.cons key v .nil) f₁) (h : f₁.Left ms f') :
    f.Left (.cons key v ms) f' := by
  refine ⟨?_, ?_, ?_, ?_⟩ <;> rw [JsonMembers.elim_find_cons]
  · rw [h.workgroup, h₁.workgroup, JsonMembers.elim_find_cons]
    rfl
  · rw [h.username, h₁.username, JsonMembers.elim_find_cons]
    rfl
  · rw [h.password, h₁.password, JsonMembers.elim_find_cons]
    rfl
  · rw [h.mounted, h₁.mounted, JsonMembers.elim_find_cons]
    rfl

/-- A member `decodeTuple` knows is read as its value says, and is the
last of its name where no other comes behind it. -/
theorem TupleRound.left {f f₁ : TupleFields} {key : String}
    (h : TupleRound f (.name key :: w) (.inl f₁)) : w = [] ∨
      ∀ v : Json, Comparable w v.tokens → w = v.tokens ∧
        ∀ ms f', f₁.Left ms f' → f.Left (.cons key v ms) f' := by
  rcases tupleRound_iff.mp h with ⟨s, ⟨t, ht, hw⟩, hf⟩ | ⟨s, ⟨t, ht, hw⟩, hf⟩ |
    ⟨s, ⟨t, ht, hw⟩, hf⟩ | ⟨b, hw, hf⟩ | ⟨key', -, hw, -⟩ | ⟨hw, -⟩
  · cases hw
    cases hf
    refine .inr fun v hv => ?_
    obtain ⟨htokens, hv⟩ := Json.eq_tokens_of_text ht hv
    exact ⟨htokens, fun ms f' => TupleFields.Left.cons ⟨hv.symm, rfl, rfl, rfl⟩⟩
  · cases hw
    cases hf
    refine .inr fun v hv => ?_
    obtain ⟨htokens, hv⟩ := Json.eq_tokens_of_text ht hv
    exact ⟨htokens, fun ms f' => TupleFields.Left.cons ⟨rfl, hv.symm, rfl, rfl⟩⟩
  · cases hw
    cases hf
    refine .inr fun v hv => ?_
    obtain ⟨htokens, hv⟩ := Json.eq_tokens_of_text ht hv
    exact ⟨htokens, fun ms f' => TupleFields.Left.cons ⟨rfl, rfl, hv.symm, rfl⟩⟩
  · cases hw
    cases hf
    refine .inr fun v hv => ?_
    obtain ⟨htokens, hv⟩ := Json.eq_tokens_of_boolean hv
    exact ⟨htokens, fun ms f' => TupleFields.Left.cons ⟨rfl, rfl, rfl, hv.symm⟩⟩
  · cases hw
    exact .inl rfl
  · cases hw

/-- What was not there before comes from a member. -/
theorem elim_eq_some {β : Type} {o : Option Json} {g : Json → Option β} {b : β}
    (h : some b = o.elim none g) : ∃ v, o = some v ∧ g v = some b := by
  cases o with
  | none => cases h
  | some v => exact ⟨v, rfl, h.symm⟩

/-- A tuple has all its parts. -/
theorem tuple_eq_ok {f : TupleFields} {t : ShareTuple} (h : f.tuple = .ok t) :
    ∃ workgroup username password, f.workgroup = some workgroup ∧
      f.username = some username ∧ f.password = some password ∧
      t = .tuple workgroup username password f.mounted := by
  obtain ⟨_ | workgroup, _ | username, _ | password, mounted⟩ := f
  all_goals cases h
  exact ⟨_, _, _, rfl, rfl, rfl, rfl⟩

/-- **The words of a tuple are values**, and stand for the tuple that is
read from them. -/
theorem TupleWord.eq_tokens {t : ShareTuple} (h : TupleWord w t) {v : Json}
    (hc : Comparable w v.tokens) : w = v.tokens ∧ v.tuple = some t := by
  cases h with
  | null =>
    cases v <;> cases (comparable_cons.mp hc).1
    exact ⟨rfl, rfl⟩
  | @object w f t hw ht =>
    cases v with
    | object ms =>
      obtain ⟨rfl, hleft⟩ := memberWords_tupleRound.eq_tokens (R := TupleFields.Left)
        (fun f w f' hw => by
          cases hw
          exact ⟨rfl, ⟨rfl, rfl, rfl, rfl⟩⟩)
        (fun f key w f₁ hw => hw.left) hw (comparable_cons.mp hc).2
      refine ⟨rfl, ?_⟩
      obtain ⟨workgroup, username, password, hwg, hun, hpw, rfl⟩ := tuple_eq_ok ht
      obtain ⟨v₁, hv₁, ht₁⟩ := elim_eq_some (hwg ▸ hleft.workgroup)
      obtain ⟨v₂, hv₂, ht₂⟩ := elim_eq_some (hun ▸ hleft.username)
      obtain ⟨v₃, hv₃, ht₃⟩ := elim_eq_some (hpw ▸ hleft.password)
      have hflag : Json.flag (ms.find "mount") = some f.mounted := by
        rw [hleft.mounted]
        cases ms.find "mount" <;> rfl
      simp [Json.tuple, hv₁, hv₂, hv₃, ht₁, ht₂, ht₃, hflag]
    | _ => cases (comparable_cons.mp hc).1

/-- What the members of an entry leave. -/
structure EntryLeft (s : EntryFields) (ms : JsonMembers) (s' : EntryFields) : Prop where
  uri : s'.1 = (ms.find "uri").elim s.1 Json.text
  credentialTuple : s'.2 = (ms.find "credentialTuple").elim s.2 Json.tuple

theorem EntryLeft.cons {s s₁ s' : EntryFields} {key : String} {v : Json} {ms : JsonMembers}
    (h₁ : EntryLeft s (.cons key v .nil) s₁) (h : EntryLeft s₁ ms s') :
    EntryLeft s (.cons key v ms) s' := by
  refine ⟨?_, ?_⟩ <;> rw [JsonMembers.elim_find_cons]
  · rw [h.uri, h₁.uri, JsonMembers.elim_find_cons]
    rfl
  · rw [h.credentialTuple, h₁.credentialTuple, JsonMembers.elim_find_cons]
    rfl

theorem EntryRound.left {s s₁ : EntryFields} {key : String}
    (h : EntryRound s (.name key :: w) (.inl s₁)) : w = [] ∨
      ∀ v : Json, Comparable w v.tokens → w = v.tokens ∧
        ∀ ms s', EntryLeft s₁ ms s' → EntryLeft s (.cons key v ms) s' := by
  rcases entryRound_iff.mp h with ⟨u, ⟨t, ht, hw⟩, hs⟩ | ⟨t, ⟨w', hw', hw⟩, hs⟩ |
    ⟨key', -, hw, -⟩ | ⟨hw, -⟩
  · cases hw
    cases hs
    refine .inr fun v hv => ?_
    obtain ⟨htokens, hv⟩ := Json.eq_tokens_of_text ht hv
    exact ⟨htokens, fun ms s' => EntryLeft.cons ⟨hv.symm, rfl⟩⟩
  · cases hw
    cases hs
    refine .inr fun v hv => ?_
    obtain ⟨htokens, hv⟩ := hw'.eq_tokens hv
    exact ⟨htokens, fun ms s' => EntryLeft.cons ⟨rfl, hv.symm⟩⟩
  · cases hw
    exact .inl rfl
  · cases hw

/-- **The words of an entry are values**, and carry what is read from
them. -/
theorem EntryWord.eq_tokens {p : String × ShareTuple} (h : EntryWord w p) {v : Json}
    (hc : Comparable w v.tokens) : w = v.tokens ∧ v.entry = some p := by
  cases h with
  | @object w u t hw =>
    cases v with
    | object ms =>
      obtain ⟨rfl, hleft⟩ := memberWords_entryRound.eq_tokens (R := EntryLeft)
        (fun s w s' hw => by
          cases hw
          exact ⟨rfl, ⟨rfl, rfl⟩⟩)
        (fun s key w s₁ hw => hw.left) hw (comparable_cons.mp hc).2
      obtain ⟨v₁, hv₁, ht₁⟩ := elim_eq_some hleft.uri
      obtain ⟨v₂, hv₂, ht₂⟩ := elim_eq_some hleft.credentialTuple
      exact ⟨rfl, by simp [Json.entry, hv₁, hv₂, ht₁, ht₂]⟩
    | _ => cases (comparable_cons.mp hc).1

/-! ## One string -/

/-- The text is that of an entry of known members, all of them complete,
or breaks off where it could still become one. -/
def Readable (ts : List JsonToken) : Prop := ∃ w p, EntryWord w p ∧ Comparable w ts

variable {J : JsonText} {s : String}

/-- `decode` throws nothing exactly where the text is readable. -/
theorem decode_ok_iff : (∃ o, decode J s = .ok o) ↔ Readable (J.tokens s) := by
  unfold Readable
  rw [← reads_decodeObject.not_wrong_iff viable_decodeObject, decode]
  cases decodeObject (J.tokens s) with
  | ok p => simp
  | error e =>
    dsimp only
    cases he : e.isIOException with
    | true => simp [EndsText, he]
    | false => simp [EndsText, he]

/-- **What `decode` hands out is what the text carries.** -/
theorem decode_eq_some_iff (hs : Grammatical (J.tokens s)) {o : Option (String × ShareTuple)}
    (ho : decode J s = .ok o) (p : String × ShareTuple) :
    o = some p ↔ Carries (J.tokens s) p := by
  unfold decode at ho
  cases hts : decodeObject (J.tokens s) with
  | ok q =>
    rw [hts] at ho
    obtain rfl := Except.ok.inj ho
    obtain ⟨w, q', rest, hw, htokens, rfl⟩ := reads_decodeObject.ok _ _ hts
    have hcarries : Carries (J.tokens s) q := by
      obtain ⟨v, hv⟩ := hs
      have hwts : w <+: J.tokens s := htokens ▸ List.prefix_append w rest
      have hwv : Comparable w v.tokens := by
        rcases hv with hv | hv
        · exact comparable_of_prefix hwts hv
        · exact .inl (hwts.trans hv)
      obtain ⟨rfl, hentry⟩ := hw.eq_tokens hwv
      exact ⟨v, hwts, hentry⟩
    constructor
    · intro h
      exact Option.some.inj h ▸ hcarries
    · intro h
      rw [hcarries.unique h]
  | error e =>
    rw [hts] at ho
    dsimp only at ho
    split at ho
    · rename_i hended
      obtain rfl := Except.ok.inj ho
      refine ⟨fun h => (by cases h), ?_⟩
      rintro ⟨v, hv, -⟩
      -- The text goes on to a word, and the value it holds would be all of that.
      obtain ⟨w, q, hw, hp⟩ := viable_decodeObject _ _ hts hended
      obtain ⟨rfl, -⟩ := hw.eq_tokens (.inr (hv.trans hp))
      have heq : J.tokens s = v.tokens := hp.eq_of_length_le hv.length_le
      have hword := reads_decodeObject.word _ _ hw []
      rw [List.append_nil, ← heq, hts] at hword
      cases hword
    · cases ho

/-! ## All the strings -/

namespace ShareManager

variable {order : List String} {cache : CredentialCache} {m : ShareManager}

/-- **What a manager has loaded**: the last of the strings that carry a
URI is what counts for it, whatever the others are. -/
structure Loads (J : JsonText) (order : List String) (cache : CredentialCache)
    (m : ShareManager) : Prop where
  contains : ∀ u, m.containsShare u = true ↔ ∃ s ∈ order, ∃ t, Carries (J.tokens s) (u, t)
  loaded : ∀ pre s post u t, order = pre ++ s :: post → Carries (J.tokens s) (u, t) →
    (∀ s' ∈ post, ∀ t', ¬ Carries (J.tokens s') (u, t')) →
    m.serverStringMap.lookup u = some s ∧ m.isShareMounted u = t.isMounted ∧
      m.credentialCache.get u = t.credential
  others : ∀ u, m.containsShare u = false →
    m.isShareMounted u = false ∧ m.credentialCache.get u = cache.get u

/-- **Loading tolerates the strings**: the constructor throws nothing, and
loads the entries there are. -/
def Tolerates (J : JsonText) (order : List String) : Prop :=
  ∀ cache, ∃ m, new J order cache = .ok m ∧ Loads J order cache m

/-- What the loading loop has made of the strings so far. -/
structure LoadedSo (J : JsonText) (done : List String) (l : Loaded) : Prop where
  contains : ∀ u, (l.serverStringMap.lookup u).isSome = true ↔
    ∃ s ∈ done, ∃ t, Carries (J.tokens s) (u, t)
  loaded : ∀ pre s post u t, done = pre ++ s :: post → Carries (J.tokens s) (u, t) →
    (∀ s' ∈ post, ∀ t', ¬ Carries (J.tokens s') (u, t')) →
    l.serverStringMap.lookup u = some s ∧ l.shareMap.lookup u = some t
  others : ∀ u, l.serverStringMap.lookup u = none → l.shareMap.lookup u = none

/-- What the strings carry with one more of them. -/
theorem exists_carries_concat {done : List String} {u : String} :
    (∃ x ∈ done ++ [s], ∃ t, Carries (J.tokens x) (u, t)) ↔
      (∃ x ∈ done, ∃ t, Carries (J.tokens x) (u, t)) ∨ ∃ t, Carries (J.tokens s) (u, t) := by
  simp [or_and_right, exists_or]

/-- A string among the others is the new one, or was there before. -/
theorem concat_eq_append_cons {done pre post : List String} {x : String}
    (h : done ++ [s] = pre ++ x :: post) :
    x = s ∧ post = [] ∨ ∃ post', post = post' ++ [s] ∧ done = pre ++ x :: post' := by
  rcases List.eq_nil_or_concat post with rfl | ⟨post', y, rfl⟩
  · obtain ⟨-, hsx⟩ := List.append_inj' h rfl
    cases hsx
    exact .inl ⟨rfl, rfl⟩
  · rw [List.concat_eq_append] at h ⊢
    have hassoc := (List.append_assoc pre (x :: post') [y]).symm
    obtain ⟨rfl, hsy⟩ := List.append_inj' (h.trans hassoc) rfl
    cases hsy
    exact .inr ⟨post', rfl, rfl⟩

/-- A string that carries nothing changes nothing. -/
theorem LoadedSo.skip {done : List String} {l : Loaded} (h : LoadedSo J done l)
    (hs : ∀ p, ¬ Carries (J.tokens s) p) : LoadedSo J (done ++ [s]) l := by
  refine ⟨fun u => ?_, fun pre x post u t heq hx hpost => ?_, h.others⟩
  · rw [h.contains, exists_carries_concat]
    exact (or_iff_left fun ⟨t, ht⟩ => hs (u, t) ht).symm
  · rcases concat_eq_append_cons heq with ⟨rfl, -⟩ | ⟨post', rfl, hdone⟩
    · exact absurd hx (hs _)
    · exact h.loaded pre x post' u t hdone hx fun s' hs' =>
        hpost s' (List.mem_append_left _ hs')

/-- A string that carries an entry is what counts for its URI from now
on. -/
theorem LoadedSo.insert {done : List String} {l : Loaded} (h : LoadedSo J done l) {u : String}
    {t : ShareTuple} (hs : Carries (J.tokens s) (u, t)) :
    LoadedSo J (done ++ [s])
      ⟨l.serverStringMap.insert u s, l.shareMap.insert u t⟩ := by
  refine ⟨fun v => ?_, fun pre x post v t' heq hx hpost => ?_, fun v hv => ?_⟩
  · by_cases hvu : v = u
    · subst hvu
      simp only [AList.lookup_insert, Option.isSome_some, true_iff]
      exact ⟨s, by simp, t, hs⟩
    · dsimp only
      rw [AList.lookup_insert_ne hvu, h.contains, exists_carries_concat]
      refine (or_iff_left ?_).symm
      rintro ⟨t', hcarries⟩
      cases hcarries.unique hs
      exact hvu rfl
  · rcases concat_eq_append_cons heq with ⟨rfl, -⟩ | ⟨post', rfl, hdone⟩
    · cases hx.unique hs
      exact ⟨AList.lookup_insert _, AList.lookup_insert _⟩
    · have hvu : v ≠ u := by
        rintro rfl
        exact hpost s (List.mem_append_right _ List.mem_cons_self) t hs
      dsimp only
      rw [AList.lookup_insert_ne hvu, AList.lookup_insert_ne hvu]
      exact h.loaded pre x post' v t' hdone hx fun s' hs' =>
        hpost s' (List.mem_append_left _ hs')
  · by_cases hvu : v = u
    · subst hvu
      rw [AList.lookup_insert] at hv
      cases hv
    · dsimp only at hv ⊢
      rw [AList.lookup_insert_ne hvu] at hv ⊢
      exact h.others v hv

/-- **One round of the loading loop** takes what the string carries. -/
theorem LoadedSo.loadServer {done : List String} {l l' : Loaded} (h : LoadedSo J done l)
    (hs : Grammatical (J.tokens s)) (hl : loadServer J l s = .ok l') :
    LoadedSo J (done ++ [s]) l' := by
  unfold ShareManager.loadServer at hl
  split at hl
  · rename_i u t hd
    obtain rfl := Except.ok.inj hl
    exact h.insert ((decode_eq_some_iff hs hd (u, t)).mp rfl)
  · rename_i hd
    obtain rfl := Except.ok.inj hl
    refine h.skip fun p hp => ?_
    cases (decode_eq_some_iff hs hd p).mpr hp
  · cases hl

theorem LoadedSo.loadServers {done rest : List String} {l : Loaded} (h : LoadedSo J done l)
    (hrest : ∀ s ∈ rest, Grammatical (J.tokens s)) (hread : ∀ s ∈ rest, Readable (J.tokens s)) :
    ∃ l', loadServers J l rest = .ok l' ∧ LoadedSo J (done ++ rest) l' := by
  induction rest generalizing done l with
  | nil =>
    rw [List.append_nil]
    exact ⟨l, rfl, h⟩
  | cons s rest ih =>
    obtain ⟨o, ho⟩ := decode_ok_iff.mpr (hread s List.mem_cons_self)
    obtain ⟨l₁, hl₁⟩ : ∃ l₁, ShareManager.loadServer J l s = .ok l₁ := by
      unfold ShareManager.loadServer
      rw [ho]
      rcases o with _ | ⟨u, t⟩
      · exact ⟨_, rfl⟩
      · exact ⟨_, rfl⟩
    obtain ⟨l', hl', hlast⟩ := ih (h.loadServer (hrest s List.mem_cons_self) hl₁)
      (fun x hx => hrest x (List.mem_cons_of_mem s hx))
      fun x hx => hread x (List.mem_cons_of_mem s hx)
    rw [List.append_assoc] at hlast
    refine ⟨l', ?_, hlast⟩
    rw [ShareManager.loadServers, hl₁]
    exact hl'

/-- A string that cannot be read stops the loop. -/
theorem readable_of_loadServers {rest : List String} {l l' : Loaded}
    (hl : loadServers J l rest = .ok l') : ∀ s ∈ rest, Readable (J.tokens s) := by
  induction rest generalizing l with
  | nil =>
    intro s hs
    cases hs
  | cons s rest ih =>
    rw [ShareManager.loadServers] at hl
    split at hl
    · rename_i l₁ hl₁
      intro x hx
      rcases List.mem_cons.mp hx with rfl | hx
      · rw [← decode_ok_iff]
        unfold ShareManager.loadServer at hl₁
        cases hd : decode J x with
        | ok o => exact ⟨o, rfl⟩
        | error e =>
          rw [hd] at hl₁
          cases hl₁
      · exact ih hl x hx
    · cases hl

/-- **Loading tolerates exactly the strings it can read**, each of them. -/
theorem tolerates_iff (hJ : ∀ s ∈ order, Grammatical (J.tokens s)) :
    Tolerates J order ↔ ∀ s ∈ order, Readable (J.tokens s) := by
  constructor
  · intro h
    obtain ⟨m, hm, -⟩ := h fun _ => none
    unfold new at hm
    split at hm
    · cases hm
    · rename_i l hl
      exact readable_of_loadServers hl
  · intro h cache
    have hstart : LoadedSo J [] {} := by
      constructor <;> simp [AList.lookup_empty]
    obtain ⟨l, hl, hso⟩ := hstart.loadServers hJ h
    rw [List.nil_append] at hso
    rw [new, hl]
    refine ⟨_, rfl, hso.contains, fun pre s post u t heq hs hpost => ?_,
      fun u hu => ?_⟩
    · obtain ⟨hstring, htuple⟩ := hso.loaded pre s post u t heq hs hpost
      refine ⟨hstring, ?_, ?_⟩
      · rw [isShareMounted, Bool.eq_iff_iff, decide_eq_true_iff]
        exact mem_loadMounted.trans (by rw [htuple, Option.any_some])
      · exact (get_loadCredentials cache l.shareMap u).trans (by rw [htuple]; rfl)
    · have htuple := hso.others u
        (Option.isNone_iff_eq_none.mp (Option.isSome_eq_false_iff.mp hu))
      refine ⟨decide_eq_false fun hmounted => ?_, ?_⟩
      · have hany := mem_loadMounted.mp hmounted
        rw [htuple] at hany
        cases hany
      · exact (get_loadCredentials cache l.shareMap u).trans (by rw [htuple]; rfl)

/-- The value of an entry without credentials. -/
def emptyEntry : Json := .object (.cons "uri" (.string "smb://nas/media")
  (.cons "credentialTuple" .null .nil))

theorem entryWord_emptyEntry :
    EntryWord emptyEntry.tokens ("smb://nas/media", .emptyTuple) :=
  .object (.more (EntryRound.uri (v := .string "smb://nas/media") rfl)
    (.more (EntryRound.credentialTuple .null) (.stop EntryRound.close)))

/-- What begins such an entry can be read. -/
theorem readable_of_prefix {ts : List JsonToken} (h : ts <+: emptyEntry.tokens)
    (hJ : J.tokens s = ts) : Grammatical (J.tokens s) ∧ Readable (J.tokens s) := by
  subst hJ
  exact ⟨⟨emptyEntry, .inr h⟩, _, _, entryWord_emptyEntry, .inr h⟩

/-- A saved string and one that breaks off. -/
theorem tolerates_truncated : Tolerates .compact
    [JsonText.compact.write emptyEntry.tokens,
      JsonText.compact.write [.beginObject, .name "uri"]] := by
  have hread : JsonText.compact.tokens (JsonText.compact.write emptyEntry.tokens) =
      emptyEntry.tokens := JsonText.scanText_text
    (by simp [emptyEntry, Json.tokens, JsonMembers.tokens, JsonToken.written])
  have hread' : JsonText.compact.tokens (JsonText.compact.write [.beginObject, .name "uri"]) =
      [.beginObject, .name "uri"] := JsonText.scanText_text (by simp [JsonToken.written])
  have hwhole := readable_of_prefix (List.prefix_refl _) hread
  have hprefix : [.beginObject, .name "uri"] <+: emptyEntry.tokens := ⟨_, rfl⟩
  have hbroken := readable_of_prefix hprefix hread'
  have hall : ∀ s ∈ [JsonText.compact.write emptyEntry.tokens,
      JsonText.compact.write [.beginObject, .name "uri"]],
      Grammatical (JsonText.compact.tokens s) ∧ Readable (JsonText.compact.tokens s) :=
    List.forall_mem_cons.mpr ⟨hwhole, List.forall_mem_singleton.mpr hbroken⟩
  exact (tolerates_iff fun s hs => (hall s hs).1).mpr fun s hs => (hall s hs).2

/-- An entry with a member the loader does not know. -/
def notedTokens : List JsonToken :=
  [.beginObject, .name "uri", .string "smb://nas/media", .name "credentialTuple", .null,
    .name "note", .string "attic", .endObject]

/-- The entry is complete, and the constructor throws. -/
theorem not_tolerates_noted :
    Carries (JsonText.compact.tokens (JsonText.compact.write notedTokens))
        ("smb://nas/media", .emptyTuple) ∧
      ¬ Tolerates .compact [JsonText.compact.write notedTokens] := by
  have htokens : JsonText.compact.tokens (JsonText.compact.write notedTokens) = notedTokens :=
    JsonText.scanText_text (by simp [notedTokens, JsonToken.written])
  constructor
  · rw [htokens]
    exact ⟨.object (.cons "uri" (.string "smb://nas/media") (.cons "credentialTuple" .null
      (.cons "note" (.string "attic") .nil))), List.prefix_refl _, rfl⟩
  · intro h
    obtain ⟨m, hm, -⟩ := h fun _ => none
    have hthrows : decode .compact (JsonText.compact.write notedTokens) =
        .error (wrongToken "a name") := by
      rw [decode, htokens]
      rfl
    rw [new, loadServers, loadServer, hthrows] at hm
    cases hm

end ShareManager

end SambaProvider

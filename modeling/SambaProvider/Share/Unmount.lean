import SambaProvider.Share.Restart

/-!
# Unmounting

`unmountServer` gives up, and says so, where the string saved for the URI
is not in the set of strings. It never comes to that: every value of the
map is a string of the set that is decoded to its own key, so the string
one URI gives up is no other URI's, and this holds from the constructor
on, also where several of the strings describe one URI.
-/

namespace SambaProvider

namespace ShareManager

variable {J : JsonText} {m m' : ShareManager} {u uri s : String} {op : ShareOp}
variable {order : List String} {cache : CredentialCache}

/-- What is found after an insertion is the new entry, or was there. -/
theorem lookup_insert_cases {saved : AList fun _ : String => String} {v x : String}
    (h : (saved.insert uri s).lookup v = some x) : v = uri ∧ x = s ∨ saved.lookup v = some x := by
  by_cases hv : v = uri
  · subst hv
    rw [AList.lookup_insert] at h
    exact .inl ⟨rfl, (Option.some.inj h).symm⟩
  · rw [AList.lookup_insert_ne hv] at h
    exact .inr h

/-- **The three collections belong together**: the strings of the map are
in the set and are decoded to their keys, and what is mounted is in the
map. -/
structure Consistent (J : JsonText) (m : ShareManager) : Prop where
  saved : ∀ u s, m.serverStringMap.lookup u = some s → s ∈ m.serverStringSet
  decoded : ∀ u s, m.serverStringMap.lookup u = some s → ∃ t, decode J s = .ok (some (u, t))
  mounted : ∀ u ∈ m.mountedServerSet, m.serverStringMap.lookup u ≠ none

/-- **Unmounting works**, for every URI: the call returns `true`, the
share is gone, and the others are as they were. -/
def Unmounts (m : ShareManager) : Prop :=
  ∀ uri, (m.unmountServer uri).1 = true ∧
    (m.unmountServer uri).2.containsShare uri = false ∧
    (m.unmountServer uri).2.isShareMounted uri = false ∧
    ∀ u, u ≠ uri → (m.unmountServer uri).2.containsShare u = m.containsShare u ∧
      (m.unmountServer uri).2.isShareMounted u = m.isShareMounted u

/-! ## The constructor -/

/-- What the loading loop has filled in from the strings. -/
structure LoadedFrom (J : JsonText) (order : List String) (l : Loaded) : Prop where
  saved : ∀ u s, l.serverStringMap.lookup u = some s → s ∈ order
  decoded : ∀ u s, l.serverStringMap.lookup u = some s → ∃ t, decode J s = .ok (some (u, t))
  keys : ∀ u, l.shareMap.lookup u ≠ none → l.serverStringMap.lookup u ≠ none

theorem LoadedFrom.loadServer {l l' : Loaded} (h : LoadedFrom J order l) (hs : s ∈ order)
    (hl : loadServer J l s = .ok l') : LoadedFrom J order l' := by
  unfold ShareManager.loadServer at hl
  split at hl
  · rename_i uri t hdecode
    obtain rfl := Except.ok.inj hl
    refine ⟨fun v x hv => ?_, fun v x hv => ?_, fun v hv => ?_⟩
    · rcases lookup_insert_cases hv with ⟨rfl, rfl⟩ | hv
      · exact hs
      · exact h.saved v x hv
    · rcases lookup_insert_cases hv with ⟨rfl, rfl⟩ | hv
      · exact ⟨t, hdecode⟩
      · exact h.decoded v x hv
    · by_cases huri : v = uri
      · subst huri
        simp
      · rw [AList.lookup_insert_ne huri] at hv ⊢
        exact h.keys v hv
  · obtain rfl := Except.ok.inj hl
    exact h
  · cases hl

/-- The loop keeps that up, whichever of the strings are still to come. -/
theorem LoadedFrom.loadServers {l l' : Loaded} {rest : List String} (h : LoadedFrom J order l)
    (hrest : ∀ s ∈ rest, s ∈ order) (hl : loadServers J l rest = .ok l') :
    LoadedFrom J order l' := by
  induction rest generalizing l with
  | nil =>
    obtain rfl := Except.ok.inj hl
    exact h
  | cons s rest ih =>
    rw [ShareManager.loadServers] at hl
    split at hl
    · rename_i l₁ hl₁
      exact ih (h.loadServer (hrest s List.mem_cons_self) hl₁)
        (fun x hx => hrest x (List.mem_cons_of_mem s hx)) hl
    · cases hl

/-- **A new manager is consistent**, whatever strings it could load. -/
theorem consistent_new (hnew : new J order cache = .ok m) : Consistent J m := by
  unfold new at hnew
  split at hnew
  · cases hnew
  · rename_i l hl
    obtain rfl := Except.ok.inj hnew
    have hstart : LoadedFrom J order {} := by constructor <;> simp [AList.lookup_empty]
    have hloaded := hstart.loadServers (fun _ hs => hs) hl
    refine ⟨fun u s hu => ?_, hloaded.decoded, fun u hu => hloaded.keys u fun hnone => ?_⟩
    · exact List.mem_toFinset.mpr (hloaded.saved u s hu)
    · have hany := mem_loadMounted.mp hu
      rw [hnone] at hany
      cases hany

/-! ## The calls -/

/-- Two URIs never share a string. -/
theorem Consistent.eq_of_lookup_eq (h : Consistent J m) (hu : m.serverStringMap.lookup u = some s)
    (huri : m.serverStringMap.lookup uri = some s) : u = uri := by
  obtain ⟨t, ht⟩ := h.decoded u s hu
  obtain ⟨t', ht'⟩ := h.decoded uri s huri
  rw [ht] at ht'
  cases ht'
  rfl

/-- A successful save puts the new string where the set and the map have
it. -/
theorem Consistent.save (h : Consistent J m) (a : SaveArgs) :
    Consistent J (ShareRun.afterSave J m a) := by
  refine ⟨fun v x hv => ?_, fun v x hv => ?_, fun v hv => ?_⟩
  · rcases lookup_insert_cases hv with ⟨rfl, rfl⟩ | hv
    · exact Finset.mem_insert_self _ _
    · exact Finset.mem_insert_of_mem (h.saved v x hv)
  · rcases lookup_insert_cases hv with ⟨rfl, rfl⟩ | hv
    · exact ⟨a.tuple, decode_encode J a.uri a.tuple⟩
    · exact h.decoded v x hv
  · change (m.serverStringMap.insert a.uri (encode J a.uri a.tuple)).lookup v ≠ none
    by_cases hva : v = a.uri
    · subst hva
      simp
    · rw [AList.lookup_insert_ne hva]
      refine h.mounted v ?_
      change v ∈ if a.tuple.isMounted then insert a.uri m.mountedServerSet
        else m.mountedServerSet.erase a.uri at hv
      split at hv
      · exact Finset.mem_of_mem_insert_of_ne hv hva
      · exact Finset.mem_of_mem_erase hv

/-- Where the URI is saved, its string is taken out of the set. -/
theorem Consistent.unmountServer_eq (h : Consistent J m)
    (hu : m.serverStringMap.lookup uri = some s) :
    m.unmountServer uri = (true,
      { m with
        serverStringSet := m.serverStringSet.erase s
        serverStringMap := m.serverStringMap.erase uri
        mountedServerSet := m.mountedServerSet.erase uri
        pref := m.serverStringSet.erase s
        credentialCache := m.credentialCache.remove uri
        notified := m.notified + 1 }) := by
  unfold unmountServer
  rw [hu]
  exact if_pos (h.saved uri s hu)

theorem Consistent.unmount (h : Consistent J m) (uri : String) :
    Consistent J (m.unmountServer uri).2 := by
  cases hu : m.serverStringMap.lookup uri with
  | none =>
    unfold unmountServer
    rw [hu]
    exact h
  | some s =>
    rw [h.unmountServer_eq hu]
    have hlookup {v x : String} (hv : (m.serverStringMap.erase uri).lookup v = some x) :
        v ≠ uri ∧ m.serverStringMap.lookup v = some x := by
      have hne : v ≠ uri := by
        rintro rfl
        rw [AList.lookup_erase] at hv
        cases hv
      exact ⟨hne, by rwa [AList.lookup_erase_ne hne] at hv⟩
    refine ⟨fun v x hv => ?_, fun v x hv => h.decoded v x (hlookup hv).2, fun v hv => ?_⟩
    · -- The string that goes is no other URI's.
      obtain ⟨hne, hx⟩ := hlookup hv
      refine Finset.mem_erase.mpr ⟨fun hxs => ?_, h.saved v x hx⟩
      exact hne (h.eq_of_lookup_eq (hxs ▸ hx) hu)
    · obtain ⟨hne, hv⟩ := Finset.mem_erase.mp hv
      change (m.serverStringMap.erase uri).lookup v ≠ none
      rw [AList.lookup_erase_ne hne]
      exact h.mounted v hv

/-- **The step lemma.** -/
theorem Consistent.call (h : Consistent J m) (op : ShareOp) : Consistent J (m.call J op).2 := by
  rcases ShareRun.call_cases J m op with ⟨a, -, -, hc⟩ | ⟨-, uri, -, hc⟩ | ⟨-, e, cache, -, hc⟩
  · rw [hc]
    exact h.save a
  · rw [hc]
    exact h.unmount uri
  · -- The credentials are in none of the three collections.
    rw [hc]
    exact ⟨h.saved, h.decoded, h.mounted⟩

/-- **A consistent manager can unmount whatever it is asked to.** -/
theorem Consistent.unmounts (h : Consistent J m) : m.Unmounts := by
  intro uri
  cases hu : m.serverStringMap.lookup uri with
  | none =>
    have heq : m.unmountServer uri = (true, m) := by
      unfold unmountServer
      rw [hu]
    rw [heq]
    refine ⟨rfl, ?_, ?_, fun _ _ => ⟨rfl, rfl⟩⟩
    · rw [containsShare, hu]
      rfl
    · exact decide_eq_false fun hmounted => h.mounted uri hmounted hu
  | some s =>
    rw [h.unmountServer_eq hu]
    refine ⟨rfl, ?_, ?_, fun u hne => ⟨?_, ?_⟩⟩
    · simp [containsShare]
    · simp [isShareMounted]
    · simp [containsShare, AList.lookup_erase_ne hne]
    · simp [isShareMounted, hne]

theorem Consistent.foldl_call (h : Consistent J m) (ops : List ShareOp) :
    Consistent J (ops.foldl (fun m op => (m.call J op).2) m) := by
  induction ops generalizing m with
  | nil => exact h
  | cons op ops ih => exact ih (h.call op)

/-- **`unmountServer` always succeeds in memory**: after any calls on a
manager that could be constructed. -/
theorem unmounts_of_new (hnew : new J order cache = .ok m) (ops : List ShareOp) :
    Consistent J (ops.foldl (fun m op => (m.call J op).2) m) ∧
      Unmounts (ops.foldl (fun m op => (m.call J op).2) m) := by
  have hrun := (consistent_new hnew).foldl_call ops
  exact ⟨hrun, hrun.unmounts⟩

/-- Two strings that describe one URI, a change of password and an
unmount. -/
theorem unmounts_twoStrings :
    ∃ m, new .compact [encode .compact "smb://nas/media" .emptyTuple,
        encode .compact "smb://nas/media" (.tuple "" "bob" "old" true)] (fun _ => none) = .ok m ∧
      Unmounts ([.addOrUpdateServer (ShareRun.bobSave "new"),
        .unmountServer "smb://nas/media"].foldl (fun m op => (m.call .compact op).2) m) := by
  obtain ⟨m, hm, -⟩ := new_encode .compact [("smb://nas/media", .emptyTuple),
    ("smb://nas/media", .tuple "" "bob" "old" true)] fun _ => none
  exact ⟨m, hm, (unmounts_of_new hm _).2⟩

end ShareManager

end SambaProvider

import SambaProvider.Lib.Run
import SambaProvider.Share.Manager

/-!
# Saved shares across a restart

What the share manager is for: a map from URI to the mount flag and the
credentials of its last save, which outlives the process. `SavedShares`
is that map, `ShareRun` runs it beside the manager, and `Agrees` and
`RestartAgrees` say that the manager, and a manager built from what is
persisted, show exactly the map.

They do not for every run: a URI saved again with other data leaves its
old string in the persisted set, and a save without a password is stored
as `EMPTY_TUPLE`, whose own mount flag is `true`. `StepKeeps` excludes
exactly these two, and `Inv` is the invariant that then carries the run.
-/

namespace SambaProvider

open Lib

/-! ## The abstract map -/

/-- What a save records: the mount flag, and the credentials if both the
user name and the password are given. -/
structure SavedShare where
  mount : Bool
  credentials : Option CredentialTuple
deriving DecidableEq, Repr

/-- The saved shares by URI. -/
abbrev SavedShares := String → Option SavedShare

namespace SavedShare

/-- The credentials the native side is to find, the empty ones if none
were given. -/
def credential (x : SavedShare) : CredentialTuple := x.credentials.getD .empty

/-- The tuple the manager stores for the share. -/
def tuple (x : SavedShare) : ShareTuple :=
  match x.credentials with
  | none => .emptyTuple
  | some c => .tuple c.workgroup c.username c.password x.mount

@[simp] theorem tuple_credential (x : SavedShare) : x.tuple.credential = x.credential := by
  rcases x with ⟨m, _ | c⟩ <;> rfl

/-- The stored tuple has the share's mount flag, unless it is the empty
tuple of an unmounted share. -/
theorem tuple_isMounted {x : SavedShare} (h : x.credentials = none → x.mount = true) :
    x.tuple.isMounted = x.mount := by
  rcases x with ⟨m, _ | c⟩
  · exact (h rfl).symm
  · rfl

end SavedShare

/-- The share a save asks for. -/
def SaveArgs.share (a : SaveArgs) : SavedShare :=
  ⟨a.mount, if a.hasPassword then some ⟨a.workgroup, a.username, a.password⟩ else none⟩

theorem SaveArgs.tuple_eq (a : SaveArgs) : a.tuple = a.share.tuple := by
  cases h : a.hasPassword <;> simp [SaveArgs.tuple, SaveArgs.share, SavedShare.tuple, h]

/-- Credentials are recorded only when the user name is not empty, so they
are not the empty ones. -/
theorem SaveArgs.share_credentials_ne {a : SaveArgs} {c : CredentialTuple}
    (h : a.share.credentials = some c) : c ≠ .empty := by
  rintro rfl
  by_cases hp : a.hasPassword
  · simp only [SaveArgs.share, if_pos hp, Option.some.injEq, CredentialTuple.empty,
      CredentialTuple.mk.injEq] at h
    simp [SaveArgs.hasPassword, h.2.1] at hp
  · simp [SaveArgs.share, hp] at h

/-- What the native side finds tells two shares apart, as long as neither
records the empty credentials. -/
theorem SavedShare.ext_of_credential {x y : SavedShare} (hm : x.mount = y.mount)
    (hc : x.credential = y.credential) (hx : ∀ c, x.credentials = some c → c ≠ .empty)
    (hy : ∀ c, y.credentials = some c → c ≠ .empty) : x = y := by
  rcases x with ⟨mx, _ | cx⟩ <;> rcases y with ⟨my, _ | cy⟩ <;>
    simp only [SavedShare.credential, Option.getD_none, Option.getD_some] at hc hm
  · rw [hm]
  · exact absurd hc.symm (hy cy rfl)
  · exact absurd hc (hx cx rfl)
  · rw [hm, hc]

/-- The map after a call: a successful save is recorded, and a URI is
forgotten when `unmountServer` returns `true` for it. -/
def SavedShares.update (A : SavedShares) : ShareOp → ShareOutcome → SavedShares
  | .addServer a, .saved | .addOrUpdateServer a, .saved => Function.update A a.uri (some a.share)
  | .unmountServer uri, .unmounted true => Function.update A uri none
  | _, _ => A

/-! ## The map and the manager, side by side -/

/-- A state of a run: the abstract map and the manager. -/
structure ShareRun where
  saved : SavedShares
  manager : ShareManager

namespace ShareRun

variable (J : JsonText)

/-- The start: nothing saved, and the manager built from an empty
preference. -/
def start : ShareRun where
  saved := fun _ => none
  manager := ⟨∅, ∅, ∅, ∅, fun _ => none, 0⟩

/-- One call, on both sides. -/
def step (s : ShareRun) (op : ShareOp) : ShareRun :=
  ⟨s.saved.update op (s.manager.call J op).1, (s.manager.call J op).2⟩

/-- A manager that lists the saved shares with their mount flags. -/
structure Lists (A : SavedShares) (m : ShareManager) : Prop where
  containsShare : ∀ u, m.containsShare u = (A u).isSome
  isShareMounted : ∀ u, m.isShareMounted u = (A u).any (·.mount)
  iterator : ∀ u, u ∈ m.iterator ↔ (A u).isSome
  nodup : m.iterator.Nodup

/-- **The restart**: whatever order the persisted set is iterated in, a
new manager over an empty credential cache lists the saved shares and has
put their credentials there. -/
def RestartAgrees (A : SavedShares) (pref : Finset String) : Prop :=
  ∀ order : List String, order.Nodup → order.toFinset = pref →
    ∃ m, ShareManager.new J order (fun _ => none) = .ok m ∧ Lists A m ∧
      ∀ u, m.credentialCache.get u = (A u).elim .empty SavedShare.credential

/-- **The refinement, in one state.** -/
def Agrees (s : ShareRun) : Prop :=
  Lists s.saved s.manager ∧ RestartAgrees J s.saved s.manager.pref

/-- The save a call is about to carry out, if any. -/
def willSave (m : ShareManager) : ShareOp → Option SaveArgs
  | .addServer a => if m.isShareMounted a.uri || a.checker.isSome then none else some a
  | .addOrUpdateServer a => if a.checker.isSome then none else some a
  | .unmountServer _ => none

/-- **The guard.** A save without a user name or password asks for a
mounted share, and the URI is not saved yet, or saved with just these
credentials and this flag. -/
def StepKeeps (s : ShareRun) (op : ShareOp) : Prop :=
  ∀ a, willSave s.manager op = some a →
    (a.hasPassword = false → a.mount = true) ∧ ∀ x, s.saved a.uri = some x → x = a.share

end ShareRun

/-! ## Loading -/

section Loading

variable {α : Type*} {β : Type*} [DecidableEq α]

/-- Inserting pairs that agree with a function gives that function on
their keys. -/
theorem lookup_foldl_insert {γ : Type*} (f : α → Option γ) (g : α → γ → β) (ps : List (α × γ))
    (h : ∀ p ∈ ps, f p.1 = some p.2) (s : AList fun _ : α => β) (a : α) :
    (ps.foldl (fun s p => s.insert p.1 (g p.1 p.2)) s).lookup a =
      if a ∈ ps.map Prod.fst then (f a).map (g a) else s.lookup a := by
  induction ps generalizing s with
  | nil => simp
  | cons p ps ih =>
    rw [List.foldl_cons, ih (fun q hq => h q (by simp [hq]))]
    by_cases ha : a = p.1
    · subst ha
      simp [h p (by simp)]
    · simp only [AList.lookup_insert_ne ha, List.map_cons, List.mem_cons, ha, false_or]

end Loading

namespace ShareManager

variable (J : JsonText)

/-- The loading loop over saved strings inserts them one after another. -/
theorem loadServers_encode (l : Loaded) (ps : List (String × ShareTuple)) :
    loadServers J l (ps.map fun p => encode J p.1 p.2) =
      .ok ⟨ps.foldl (fun s p => s.insert p.1 (encode J p.1 p.2)) l.serverStringMap,
        ps.foldl (fun s p => s.insert p.1 p.2) l.shareMap⟩ := by
  induction ps generalizing l with
  | nil => rfl
  | cons p ps ih => simp [loadServers, loadServer, ih]

/-- The share map the loading loop fills from a list of saved pairs. -/
def sharesOf (ps : List (String × ShareTuple)) : AList fun _ : String => ShareTuple :=
  ps.foldl (fun s p => s.insert p.1 p.2) ∅

/-- The string loaded last for a URI is the one that counts. -/
theorem lookup_sharesOf_concat (ps : List (String × ShareTuple)) (u : String) (x : ShareTuple) :
    (sharesOf (ps ++ [(u, x)])).lookup u = some x := by
  simp [sharesOf]

theorem mem_loadMounted {shareMap : AList fun _ : String => ShareTuple} {u : String} :
    u ∈ loadMounted shareMap ↔ (shareMap.lookup u).any (·.isMounted) := by
  rw [loadMounted, List.mem_toFinset, List.mem_map]
  constructor
  · rintro ⟨⟨u', t⟩, he, rfl⟩
    rw [List.mem_filter] at he
    rw [Option.mem_def.1 (AList.mem_lookup_iff.2 he.1)]
    exact he.2
  · intro h
    obtain ⟨t, ht, hm⟩ := (Option.any_eq_true _ _).1 h
    exact ⟨⟨u, t⟩, List.mem_filter.2 ⟨AList.mem_lookup_iff.1 ht, hm⟩, rfl⟩

/-- The credentials of a loaded share are those of its tuple, whatever
order the map is walked in. -/
theorem get_loadCredentials (cache : CredentialCache)
    (shareMap : AList fun _ : String => ShareTuple) (u : String) :
    (loadCredentials cache shareMap).get u =
      (shareMap.lookup u).elim (cache.get u) ShareTuple.credential := by
  have key : ∀ (es : List (Σ _ : String, ShareTuple)) (c : CredentialCache),
      (∀ e ∈ es, shareMap.lookup e.1 = some e.2) →
      (es.foldl (fun c e => c.put e.1 e.2.credential) c).get u =
        if u ∈ es.map Sigma.fst then (shareMap.lookup u).elim (c.get u) ShareTuple.credential
        else c.get u := by
    intro es
    induction es with
    | nil => simp
    | cons e es ih =>
      intro c he
      rw [List.foldl_cons, ih _ fun e' he' => he e' (by simp [he'])]
      by_cases hu : u = e.1
      · subst hu
        simp [he e (by simp)]
      · simp only [CredentialCache.get_put_ne hu, List.map_cons, List.mem_cons, hu, false_or]
  rw [loadCredentials, key _ _ fun e he => Option.mem_def.1 (AList.mem_lookup_iff.2 he)]
  split_ifs with hu
  · rfl
  · have : shareMap.lookup u = none := AList.lookup_eq_none.2 hu
    rw [this]; rfl

/-- **What a new manager holds**, for any list of saved pairs: the keys,
the flags and the credentials of the share map. -/
theorem new_encode (ps : List (String × ShareTuple)) (cache : CredentialCache) :
    ∃ m, new J (ps.map fun p => encode J p.1 p.2) cache = .ok m ∧
      (∀ u, m.serverStringMap.lookup u =
        (ps.foldl (fun s p => s.insert p.1 (encode J p.1 p.2))
          (∅ : AList fun _ : String => String)).lookup u) ∧
      (∀ u, m.isShareMounted u = ((sharesOf ps).lookup u).any (·.isMounted)) ∧
      ∀ u, m.credentialCache.get u =
        ((sharesOf ps).lookup u).elim (cache.get u) ShareTuple.credential := by
  rw [new, loadServers_encode]
  refine ⟨_, rfl, fun _ => rfl, fun u => ?_, fun u => get_loadCredentials cache _ u⟩
  rw [isShareMounted, Bool.eq_iff_iff, decide_eq_true_iff]
  exact mem_loadMounted

end ShareManager

namespace ShareRun

variable (J : JsonText)

/-! ## The invariant -/

/-- **The invariant of a guarded run.** One string for each saved URI, the
encoding of its share; the mounted set and the persisted set follow. -/
structure Inv (s : ShareRun) : Prop where
  map : ∀ u, s.manager.serverStringMap.lookup u = (s.saved u).map fun x => encode J u x.tuple
  set : ∀ t, t ∈ s.manager.serverStringSet ↔ ∃ u, s.manager.serverStringMap.lookup u = some t
  pref : s.manager.pref = s.manager.serverStringSet
  mounted : ∀ u, u ∈ s.manager.mountedServerSet ↔ (s.saved u).any (·.mount)
  flags : ∀ u x, s.saved u = some x → x.credentials = none → x.mount = true
  creds : ∀ u x c, s.saved u = some x → x.credentials = some c → c ≠ .empty

theorem inv_start : Inv J start where
  map _ := rfl
  set t := by simp [start, AList.lookup_empty]
  pref := rfl
  mounted u := by simp [start]
  flags u x h := by simp [start] at h
  creds u x c h := by simp [start] at h

/-- The manager lists the map. -/
theorem Inv.lists {s : ShareRun} (h : Inv J s) : Lists s.saved s.manager where
  containsShare u := by simp [ShareManager.containsShare, h.map]
  isShareMounted u := by
    rw [ShareManager.isShareMounted, Bool.eq_iff_iff, decide_eq_true_iff, h.mounted]
  iterator u := by
    rw [ShareManager.iterator, ← AList.mem_keys, ← AList.lookup_isSome, h.map]
    simp
  nodup := s.manager.serverStringMap.keys_nodup

/-- Strings that are all encodings come from a list of pairs. -/
theorem exists_pairs {Q : String × ShareTuple → Prop} {order : List String}
    (h : ∀ t ∈ order, ∃ p, Q p ∧ encode J p.1 p.2 = t) :
    ∃ ps : List (String × ShareTuple), ps.map (fun p => encode J p.1 p.2) = order ∧
      ∀ p ∈ ps, Q p := by
  induction order with
  | nil => exact ⟨[], rfl, by simp⟩
  | cons t order ih =>
    obtain ⟨ps, hps, hQ⟩ := ih fun t ht => h t (by simp [ht])
    obtain ⟨p, hp, rfl⟩ := h t (by simp)
    exact ⟨p :: ps, by rw [List.map_cons, hps], by simpa [hp] using hQ⟩

/-- **Loading what is persisted gives the map back.** -/
theorem Inv.restartAgrees {s : ShareRun} (h : Inv J s) :
    RestartAgrees J s.saved s.manager.pref := by
  intro order _ hset
  set f : String → Option ShareTuple := fun u => (s.saved u).map SavedShare.tuple with hf
  have hmem : ∀ t, t ∈ order ↔ ∃ p : String × ShareTuple, f p.1 = some p.2 ∧
      encode J p.1 p.2 = t := by
    intro t
    rw [← List.mem_toFinset, hset, h.pref, h.set]
    constructor
    · rintro ⟨u, hu⟩
      rw [h.map, Option.map_eq_some_iff] at hu
      obtain ⟨x, hx, rfl⟩ := hu
      exact ⟨(u, x.tuple), by simp [hf, hx], rfl⟩
    · rintro ⟨⟨u, x⟩, hu, rfl⟩
      obtain ⟨y, hy, rfl⟩ := Option.map_eq_some_iff.1 hu
      exact ⟨u, by rw [h.map, hy]; rfl⟩
  obtain ⟨ps, rfl, hps⟩ := exists_pairs J fun t ht => (hmem t).1 ht
  have hkeys : ∀ u, u ∉ ps.map Prod.fst → f u = none := by
    intro u hu
    rw [Option.eq_none_iff_forall_not_mem]
    intro x hx
    obtain ⟨p, hp, he⟩ := List.mem_map.1 ((hmem _).2 ⟨(u, x), hx, rfl⟩)
    exact hu (List.mem_map.2 ⟨p, hp, (encode_inj J he).1⟩)
  obtain ⟨m, hm, hmap, hmounted, hcred⟩ := ShareManager.new_encode J ps fun _ => none
  have hshares : ∀ u, (ShareManager.sharesOf ps).lookup u = f u := by
    intro u
    rw [ShareManager.sharesOf, lookup_foldl_insert f (fun _ x => x) ps hps]
    split_ifs with hu
    · simp
    · rw [AList.lookup_empty, hkeys u hu]
  have hstrings : ∀ u, (m.serverStringMap.lookup u).isSome = (s.saved u).isSome := by
    intro u
    rw [hmap, lookup_foldl_insert f (fun u x => encode J u x) ps hps]
    split_ifs with hu
    · simp [hf]
    · simpa [hf] using (congrArg Option.isSome (hkeys u hu)).symm
  refine ⟨m, hm, ⟨hstrings, fun u => ?_, fun u => ?_, m.serverStringMap.keys_nodup⟩, fun u => ?_⟩
  · rw [hmounted, hshares]
    cases hu : s.saved u with
    | none => simp [hf, hu]
    | some x => simp [hf, hu, SavedShare.tuple_isMounted (h.flags u x hu)]
  · rw [ShareManager.iterator, ← AList.mem_keys, ← AList.lookup_isSome, hstrings]
  · rw [hcred, hshares]
    cases hu : s.saved u with
    | none => simp [hf, hu, CredentialCache.get]
    | some x => simp [hf, hu]

/-! ## One step -/

/-- The manager after a successful save. -/
def afterSave (m : ShareManager) (a : SaveArgs) : ShareManager :=
  { m with
    credentialCache :=
      if a.hasPassword then m.credentialCache.put a.uri ⟨a.workgroup, a.username, a.password⟩
      else m.credentialCache }.updateServersData J a.uri a.tuple a.mount

theorem saveServerInfo_ok {m : ShareManager} {a : SaveArgs} (h : a.checker = none) :
    m.saveServerInfo J a = (.ok (), afterSave J m a) := by
  simp [ShareManager.saveServerInfo, ShareManager.checkServerCredentials, h, afterSave]

/-- **What a call does.** It saves, or it unmounts, or it throws and
touches nothing but the credentials. -/
theorem call_cases (m : ShareManager) (op : ShareOp) :
    (∃ a, willSave m op = some a ∧ (op = .addServer a ∨ op = .addOrUpdateServer a) ∧
      m.call J op = (.saved, afterSave J m a)) ∨
    (willSave m op = none ∧ ∃ uri, op = .unmountServer uri ∧
      m.call J op = (.unmounted (m.unmountServer uri).1, (m.unmountServer uri).2)) ∨
    (willSave m op = none ∧ ∃ e cache, (m.call J op).1 = .threw e ∧
      (m.call J op).2 = { m with credentialCache := cache }) := by
  have hfail : ∀ (a : SaveArgs) e, a.checker = some e → ∃ cache,
      m.saveServerInfo J a = (.error e, { m with credentialCache := cache }) := by
    intro a e ha
    simp only [ShareManager.saveServerInfo, ShareManager.checkServerCredentials, ha]
    exact ⟨_, rfl⟩
  cases op with
  | unmountServer uri => exact .inr (.inl ⟨rfl, uri, rfl, rfl⟩)
  | addOrUpdateServer a =>
    cases hc : a.checker with
    | none =>
      exact .inl ⟨a, by simp [willSave, hc], .inr rfl, by
        simp [ShareManager.call, ShareManager.addOrUpdateServer, saveServerInfo_ok J hc,
          ShareOutcome.ofSave]⟩
    | some e =>
      obtain ⟨cache, h⟩ := hfail a e hc
      exact .inr (.inr ⟨by simp [willSave, hc], e, cache, by
        simp [ShareManager.call, ShareManager.addOrUpdateServer, h, ShareOutcome.ofSave]⟩)
  | addServer a =>
    by_cases hm : m.isShareMounted a.uri
    · refine .inr (.inr ⟨by simp [willSave, hm], ?_⟩)
      simp only [ShareManager.call, ShareManager.addServer, if_pos hm, ShareOutcome.ofSave]
      exact ⟨_, m.credentialCache, rfl, rfl⟩
    cases hc : a.checker with
    | none =>
      exact .inl ⟨a, by simp [willSave, hc, hm], .inl rfl, by
        simp [ShareManager.call, ShareManager.addServer, hm, saveServerInfo_ok J hc,
          ShareOutcome.ofSave]⟩
    | some e =>
      obtain ⟨cache, h⟩ := hfail a e hc
      exact .inr (.inr ⟨by simp [willSave, hc], e, cache, by
        simp [ShareManager.call, ShareManager.addServer, hm, h, ShareOutcome.ofSave]⟩)

@[simp] theorem update_threw (A : SavedShares) (op : ShareOp) (e : Exn) :
    A.update op (.threw e) = A := by
  cases op <;> rfl

/-- The state after a successful save. -/
theorem step_save {s : ShareRun} {op : ShareOp} {a : SaveArgs}
    (hop : op = .addServer a ∨ op = .addOrUpdateServer a)
    (h : s.manager.call J op = (.saved, afterSave J s.manager a)) :
    step J s op = ⟨Function.update s.saved a.uri (some a.share), afterSave J s.manager a⟩ := by
  rcases hop with rfl | rfl <;> simp [step, h, SavedShares.update]

/-- **A guarded save keeps the invariant.** The old string of the URI, if
there is one, is the new one. -/
theorem Inv.save {s : ShareRun} (h : Inv J s) {a : SaveArgs}
    (hflag : a.hasPassword = false → a.mount = true)
    (hsame : ∀ x, s.saved a.uri = some x → x = a.share) :
    Inv J ⟨Function.update s.saved a.uri (some a.share), afterSave J s.manager a⟩ := by
  have hflags : a.share.credentials = none → a.share.mount = true := by
    intro hn
    refine hflag ?_
    by_contra hp
    simp [SaveArgs.share, hp] at hn
  have hlookup : ∀ u, (s.manager.serverStringMap.insert a.uri (encode J a.uri a.tuple)).lookup u =
      if u = a.uri then some (encode J a.uri a.tuple)
      else s.manager.serverStringMap.lookup u := by
    intro u
    split_ifs with hu
    · subst hu; simp
    · exact AList.lookup_insert_ne hu
  refine ⟨fun u => ?_, fun t => ?_, rfl, fun u => ?_, fun u x hx => ?_, fun u x c hx hc => ?_⟩
  · simp only [afterSave, ShareManager.updateServersData, hlookup]
    by_cases hu : u = a.uri
    · subst hu; simp [a.tuple_eq]
    · simp [hu, h.map]
  · simp only [afterSave, ShareManager.updateServersData, hlookup, Finset.mem_insert]
    constructor
    · rintro (rfl | ht)
      · exact ⟨a.uri, by simp⟩
      · obtain ⟨u, hu⟩ := (h.set t).1 ht
        refine ⟨u, ?_⟩
        split_ifs with hua
        · subst hua
          rw [h.map, Option.map_eq_some_iff] at hu
          obtain ⟨x, hx, rfl⟩ := hu
          rw [hsame x hx, a.tuple_eq]
        · exact hu
    · rintro ⟨u, hu⟩
      split_ifs at hu with hua
      · exact .inl (Option.some.inj hu).symm
      · exact .inr ((h.set t).2 ⟨u, hu⟩)
  · simp only [afterSave, ShareManager.updateServersData]
    rw [show a.tuple.isMounted = a.mount by
      rw [a.tuple_eq, SavedShare.tuple_isMounted hflags]; rfl]
    by_cases hu : u = a.uri
    · subst hu
      cases hm : a.mount <;> simp [SaveArgs.share, hm]
    · cases hm : a.mount <;> simp [hu, h.mounted]
  · by_cases hu : u = a.uri
    · subst hu
      obtain rfl : a.share = x := by simpa using hx
      exact hflags
    · exact h.flags u x (by simpa [hu] using hx)
  · by_cases hu : u = a.uri
    · subst hu
      obtain rfl : a.share = x := by simpa using hx
      exact SaveArgs.share_credentials_ne hc
    · exact h.creds u x c (by simpa [hu] using hx) hc

/-- **`unmountServer` keeps the invariant**: the string it removes is the
only one of the URI. -/
theorem Inv.unmount {s : ShareRun} (h : Inv J s) (uri : String) :
    Inv J (step J s (.unmountServer uri)) := by
  cases hl : s.manager.serverStringMap.lookup uri with
  | none =>
    have hsaved : s.saved uri = none := by simpa [h.map] using hl
    have : step J s (.unmountServer uri) = s := by
      simp [step, ShareManager.call, ShareManager.unmountServer, hl, SavedShares.update,
        ← hsaved]
    rw [this]
    exact h
  | some t =>
    have ht : t ∈ s.manager.serverStringSet := (h.set t).2 ⟨uri, hl⟩
    have hlookup : ∀ u, (s.manager.serverStringMap.erase uri).lookup u =
        if u = uri then none else s.manager.serverStringMap.lookup u := by
      intro u
      split_ifs with hu
      · subst hu; simp
      · exact AList.lookup_erase_ne hu
    simp only [step, ShareManager.call, ShareManager.unmountServer, hl, if_pos ht,
      SavedShares.update]
    refine ⟨fun u => ?_, fun t' => ?_, rfl, fun u => ?_, fun u x hx => ?_, fun u x c hx => ?_⟩
    · by_cases hu : u = uri <;> simp [hlookup, hu, h.map]
    · simp only [Finset.mem_erase, hlookup, h.set]
      constructor
      · rintro ⟨hne, u, hu⟩
        refine ⟨u, ?_⟩
        rw [if_neg]
        · exact hu
        · rintro rfl
          exact hne (Option.some.inj (hu.symm.trans hl))
      · rintro ⟨u, hu⟩
        split_ifs at hu with hne
        refine ⟨?_, u, hu⟩
        rintro rfl
        rw [h.map, Option.map_eq_some_iff] at hu hl
        obtain ⟨x, -, hx⟩ := hu
        obtain ⟨y, -, hy⟩ := hl
        exact hne (encode_inj J (hx.trans hy.symm)).1
    · by_cases hu : u = uri <;> simp [hu, h.mounted]
    · by_cases hu : u = uri
      · simp [hu] at hx
      · exact h.flags u x (by simpa [hu] using hx)
    · by_cases hu : u = uri
      · simp [hu] at hx
      · exact h.creds u x c (by simpa [hu] using hx)

/-- A call that throws changes no more than the credential cache, which
the invariant does not mention. -/
theorem Inv.threw {s : ShareRun} (h : Inv J s) {op : ShareOp} {e : Exn} {cache : CredentialCache}
    (he : (s.manager.call J op).1 = .threw e)
    (hm : (s.manager.call J op).2 = { s.manager with credentialCache := cache }) :
    Inv J (step J s op) := by
  rw [step, he, hm, update_threw]
  exact ⟨h.map, h.set, h.pref, h.mounted, h.flags, h.creds⟩

/-- **The step lemma.** -/
theorem Inv.step {s : ShareRun} {op : ShareOp} (h : Inv J s) (hk : StepKeeps s op) :
    Inv J (step J s op) := by
  rcases call_cases J s.manager op with ⟨a, hw, hop, hc⟩ | ⟨-, uri, rfl, -⟩ | ⟨-, e, cache, he, hm⟩
  · rw [step_save J hop hc]
    exact h.save J (hk a hw).1 (hk a hw).2
  · exact h.unmount J uri
  · exact h.threw J he hm

theorem Inv.agrees {s : ShareRun} (h : Inv J s) : Agrees J s := ⟨h.lists J, h.restartAgrees J⟩

/-! ## The guard is exact -/

/-- **Every persisted string counts.** Some iteration order hands it out
last, and then it is what the restart shows for its URI. -/
theorem RestartAgrees.of_mem {A : SavedShares} {pref : Finset String} {u : String}
    {x : ShareTuple} (h : RestartAgrees J A pref)
    (henc : ∀ t ∈ pref, ∃ p : String × ShareTuple, encode J p.1 p.2 = t)
    (hmem : encode J u x ∈ pref) :
    ∃ y, A u = some y ∧ y.mount = x.isMounted ∧ y.credential = x.credential := by
  have hrest : ∀ t ∈ (pref.erase (encode J u x)).toList,
      ∃ p : String × ShareTuple, True ∧ encode J p.1 p.2 = t := by
    intro t ht
    obtain ⟨p, hp⟩ := henc t (Finset.mem_of_mem_erase (Finset.mem_toList.1 ht))
    exact ⟨p, trivial, hp⟩
  obtain ⟨ps, hps, -⟩ := exists_pairs J hrest
  have horder : (ps ++ [(u, x)]).map (fun p => encode J p.1 p.2) =
      (pref.erase (encode J u x)).toList ++ [encode J u x] := by
    rw [List.map_append, hps]; rfl
  obtain ⟨m, hm, hlists, hcred⟩ := h ((ps ++ [(u, x)]).map fun p => encode J p.1 p.2)
    (by
      rw [horder, List.nodup_append]
      refine ⟨Finset.nodup_toList _, List.nodup_singleton _, fun t ht t' ht' => ?_⟩
      rw [Finset.mem_toList] at ht
      exact List.mem_singleton.1 ht' ▸ Finset.ne_of_mem_erase ht)
    (by
      rw [horder]
      ext t
      by_cases ht : t = encode J u x
      · simp [ht, hmem]
      · simp [ht])
  obtain ⟨m', hm', hmap, hmounted, hcred'⟩ :=
    ShareManager.new_encode J (ps ++ [(u, x)]) fun _ => none
  obtain rfl : m = m' := Except.ok.inj (hm.symm.trans hm')
  have hsome : (A u).isSome := by
    rw [← hlists.containsShare u, ShareManager.containsShare, hmap]
    simp
  obtain ⟨y, hy⟩ := Option.isSome_iff_exists.1 hsome
  have hm1 := hlists.isShareMounted u
  have hc1 := hcred u
  rw [hmounted, ShareManager.lookup_sharesOf_concat, hy] at hm1
  rw [hcred', ShareManager.lookup_sharesOf_concat, hy] at hc1
  exact ⟨y, hy, hm1.symm, hc1.symm⟩

/-- **A save the guard forbids is seen at once**: in the flag, or after a
restart that hands out the old string last. -/
theorem Inv.stepKeeps {s : ShareRun} {op : ShareOp} (h : Inv J s)
    (hag : Agrees J (ShareRun.step J s op)) : StepKeeps s op := by
  intro a hw
  obtain ⟨a', hw', hop, hc⟩ | ⟨hn, -⟩ | ⟨hn, -⟩ := call_cases J s.manager op
  · obtain rfl : a = a' := Option.some.inj (hw.symm.trans hw')
    rw [step_save J hop hc] at hag
    obtain ⟨hlists, hrestart⟩ := hag
    refine ⟨fun hp => ?_, fun x hx => ?_⟩
    · have hm := hlists.isShareMounted a.uri
      have ht : a.tuple.isMounted = true := by simp [SaveArgs.tuple, hp, ShareTuple.isMounted]
      simp only [afterSave, ShareManager.updateServersData, ShareManager.isShareMounted, ht,
        if_true, Finset.mem_insert_self, decide_true, Function.update_self, Option.any_some] at hm
      exact hm.symm
    · have henc : ∀ t ∈ (afterSave J s.manager a).pref,
          ∃ p : String × ShareTuple, encode J p.1 p.2 = t := by
        intro t ht
        simp only [afterSave, ShareManager.updateServersData, Finset.mem_insert] at ht
        rcases ht with rfl | ht
        · exact ⟨(a.uri, a.tuple), rfl⟩
        · obtain ⟨u, hu⟩ := (h.set t).1 ht
          rw [h.map, Option.map_eq_some_iff] at hu
          obtain ⟨y, -, rfl⟩ := hu
          exact ⟨(u, y.tuple), rfl⟩
      have hmem : encode J a.uri x.tuple ∈ (afterSave J s.manager a).pref := by
        simp only [afterSave, ShareManager.updateServersData, Finset.mem_insert]
        exact .inr ((h.set _).2 ⟨a.uri, by rw [h.map, hx]; rfl⟩)
      obtain ⟨y, hy, hmount, hcred⟩ := hrestart.of_mem J henc hmem
      obtain rfl : a.share = y := by simpa using hy
      rw [SavedShare.tuple_isMounted (h.flags _ _ hx)] at hmount
      rw [SavedShare.tuple_credential] at hcred
      exact (SavedShare.ext_of_credential hmount hcred
        (fun c hc => SaveArgs.share_credentials_ne hc) fun c hc => h.creds _ x c hx hc).symm
  · rw [hn] at hw; cases hw
  · rw [hn] at hw; cases hw

/-- **The manager refines the map in exactly the guarded runs.** In every
state of the run the manager lists the saved shares, and a manager built
from the persisted set lists them and their credentials, if and only if
no save stores a share the manager cannot tell apart, or cannot replace. -/
theorem agrees_iff_stepKeeps (ops : List ShareOp) :
    EveryState (step J) (Agrees J) start ops ↔ EveryStep (step J) StepKeeps start ops :=
  everyState_iff_everyStep (I := Inv J) (fun _ _ h hk => h.step J hk) (fun _ h => h.agrees J)
    (fun _ _ h => h.stepKeeps J) (inv_start J)

/-! ## The old string after an update -/

theorem step_addOrUpdateServer (s : ShareRun) {a : SaveArgs} (h : a.checker = none) :
    step J s (.addOrUpdateServer a) =
      ⟨Function.update s.saved a.uri (some a.share), afterSave J s.manager a⟩ :=
  step_save J (.inr rfl) (by
    simp [ShareManager.call, ShareManager.addOrUpdateServer, saveServerInfo_ok J h,
      ShareOutcome.ofSave])

/-- Unmounting a share removes the string of its last save, and only that
one. -/
theorem step_save_unmount (s : ShareRun) {b : SaveArgs} (h : b.checker = none) :
    (step J (step J s (.addOrUpdateServer b)) (.unmountServer b.uri)).manager.pref =
        s.manager.serverStringSet.erase (encode J b.uri b.tuple) ∧
      (step J (step J s (.addOrUpdateServer b)) (.unmountServer b.uri)).saved b.uri = none := by
  have hl : (afterSave J s.manager b).serverStringMap.lookup b.uri =
      some (encode J b.uri b.tuple) := by simp [afterSave, ShareManager.updateServersData]
  have hm : encode J b.uri b.tuple ∈ (afterSave J s.manager b).serverStringSet := by
    simp [afterSave, ShareManager.updateServersData]
  rw [step_addOrUpdateServer J s h]
  simp only [step, ShareManager.call, ShareManager.unmountServer, hl, if_pos hm,
    SavedShares.update, Function.update_self, and_true]
  simp [afterSave, ShareManager.updateServersData, Finset.erase_insert_eq_erase]

/-- **A string saved under other credentials outlives the unmount**, and
with it the share comes back at the next start. -/
theorem not_agrees_of_resave {a b : SaveArgs} (hab : a.tuple ≠ b.tuple) (huri : a.uri = b.uri)
    (ha : a.checker = none) (hb : b.checker = none) :
    ¬ Agrees J (step J (step J (step J start (.addOrUpdateServer a)) (.addOrUpdateServer b))
      (.unmountServer b.uri)) := by
  rintro ⟨-, hrestart⟩
  obtain ⟨hpref, hsaved⟩ := step_save_unmount J (step J start (.addOrUpdateServer a)) hb
  have hset : (step J start (.addOrUpdateServer a)).manager.serverStringSet =
      {encode J a.uri a.tuple} := by
    rw [step_addOrUpdateServer J _ ha]
    rfl
  rw [hset, Finset.erase_eq_of_notMem (by
    rw [Finset.mem_singleton]
    exact fun h => hab (encode_inj J h).2.symm)] at hpref
  rw [hpref] at hrestart
  obtain ⟨y, hy, -⟩ := hrestart.of_mem J
    (fun t ht => ⟨(a.uri, a.tuple), (Finset.mem_singleton.1 ht).symm⟩)
    (Finset.mem_singleton_self _)
  rw [huri, hsaved] at hy
  cases hy

/-- A mount of one share with the given password. -/
def bobSave (password : String) : SaveArgs :=
  ⟨"smb://nas/media", "WORKGROUP", "bob", password, none, true⟩

/-- A change of password and an unmount: the share comes back after a
restart. -/
theorem not_agrees_updateThenUnmount :
    ¬ EveryState (step .compact) (Agrees .compact) start
      [.addOrUpdateServer (bobSave "old"), .addOrUpdateServer (bobSave "new"),
        .unmountServer "smb://nas/media"] := by
  intro h
  have hab : (bobSave "old").tuple ≠ (bobSave "new").tuple := by decide
  exact not_agrees_of_resave .compact hab rfl rfl rfl h.last

end ShareRun

end SambaProvider

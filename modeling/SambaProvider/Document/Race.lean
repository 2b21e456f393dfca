import SambaProvider.Document.World
import SambaProvider.Lib.Together

/-!
# A listing and a removal

One task lists a cached directory while a document in it is deleted or
renamed. The two share the memory of the provider; of the server, all
that matters is whether it has the document. What either thread does is
one effect of its program, with any effects of the other in between.

Once the server has lost the document, the race is about the order of a
few effects. Three marks say how far the removal has come: whether the
document is out of the cache, which children map of the directory it has
looked at, and whether the document is out of that map. The listing is
*late* where it brings the document back behind one of the marks.
-/

namespace SambaProvider

open Lib DocumentMetadata

/-- The document a call is made for. Neither thread creates any. -/
def SmbCall.document : SmbCall → Option Uri
  | .stat u | .openDir u | .unlink u | .rmdir u | .rename u _ => some u
  | _ => none

/-- A successful call leaves the document it was made for at its URI. -/
def SmbCall.leaves : SmbCall → Bool
  | .unlink _ | .rmdir _ => false
  | .rename u newUri => newUri = u
  | _ => true

/-- The memory, whether the server has the document, and the marks. -/
structure Race where
  store : Store
  present : Bool
  /-- The document has been taken out of the cache, or was not there when
  the rename has looked for it. -/
  forgotten : Bool
  /-- The children map the removal has looked at last. -/
  fetched : Option (Option MapId)
  /-- The document has been taken out of that map. -/
  unlisted : Bool

/-- References are to objects that exist. -/
structure Store.Sound (s : Store) : Prop where
  cache : ∀ {k r}, s.cache k = some r → r < s.nextRef
  maps : ∀ {r g k q}, (s.maps r g).lookup k = some q → q < s.nextRef

namespace Race

/-- Before either thread has started. -/
def start (store : Store) (present : Bool) : Race := ⟨store, present, false, none, false⟩

variable (dir : Ref) (c : Uri) (isRename : Bool)

/-- An answer of the server. A call that fails may have removed the
document all the same. -/
def Serves (call : SmbCall) (present : Bool) (a : Except Exn call.Value) (present' : Bool) :
    Prop :=
  if call.document = some c then
    match a with
    | .error _ => present' = present ∨ (call.leaves = false ∧ present' = false)
    | .ok _ => present = true ∧ present' = call.leaves
  else present' = present

/-- One effect of either thread. -/
def Step : (e : Effect) → Race → e.Answer → Race → Prop
  | .memory m, s, a, t =>
    a = (Store.exec m s.store).1 ∧ t = { s with store := (Store.exec m s.store).2 }
  | .smb call, s, a, t =>
    ∃ present, Serves c call s.present a present ∧ t = { s with present := present }
  | .shares _, s, _, t | .currentTimeMillis, s, _, t | .hashOrder _, s, _, t
  | .notifyChange _, s, _, t | .revokeDocumentPermission _, s, _, t => t = s

/-- The marks after an access of the removal, made in `s`. -/
def mark (s : Race) (m : Memory) : Race :=
  if s.present then s
  else match m with
    | .cacheRemove key => { s with forgotten := s.forgotten || decide (key = c) }
    | .cacheGet key =>
      let missed := decide (isRename = true ∧ key = c ∧ s.store.cache c = none)
      { s with
        forgotten := s.forgotten || missed
        unlisted := s.unlisted || missed }
    | .read r =>
      if r = dir then
        { s with
          fetched := some (s.store.metadata dir).children
          unlisted := s.unlisted || (s.store.metadata dir).children.isNone }
      else s
    | .mapRemove r g key =>
      { s with
        unlisted := s.unlisted || decide (r = dir ∧ key = c ∧ s.fetched = some (some g)) }
    | _ => s

/-- One effect of the removal. -/
def RemoverStep : (e : Effect) → Race → e.Answer → Race → Prop
  | .memory m, s, a, t => Step c (.memory m) (s.mark dir c isRename m) a t
  | e, s, a, t => Step c e s a t

/-- The document is a key of the children map of the directory. -/
def Listed (s : Race) : Prop :=
  ∃ g, (s.store.metadata dir).children = some g ∧ c ∈ s.store.maps dir g

/-! ## The condition -/

/-- The listing is not late, and leaves the directory cached: it puts the
document into the cache before the removal has taken it out, and into the
children map the removal looks at, before it is taken out there. -/
def ListerOk (e : Effect) (s : Race) : Prop :=
  match e with
  | .memory (.cachePut key _) =>
    key ≠ c.buildParentUri ∧ (key = c → s.forgotten = false)
  | .memory (.setChildren _ children) =>
    c ∈ children → s.fetched = none ∧ s.unlisted = false
  | .memory (.mapPut r g key _) =>
    r = dir → key = c → s.unlisted = false ∧ ∀ x, s.fetched = some x → x = some g
  | _ => True

/-- The removal leaves the directory cached; a rename that does not find
the document in the cache finds it out of the children map too; and a
request that fails has removed nothing, and says so where there is
nothing. -/
def RemoverOk (e : Effect) (s : Race) (a : e.Answer) (t : Race) : Prop :=
  match e with
  | .memory (.cachePut key _) | .memory (.cacheRemove key) => key ≠ c.buildParentUri
  | .memory (.cacheGet key) =>
    isRename → key = c → s.present = false → s.store.cache c = none → ¬ s.Listed dir c
  | .smb call => call.document = some c → ∀ x, a = .error x →
    t.present = s.present ∧ (s.present = false → x.isFileNotFound = true)
  | _ => True

/-! ## What both keep -/

/-- The memory is sound, the directory is cached, and the marks mean what
they say. -/
structure Ok (s : Race) : Prop where
  sound : s.store.Sound
  cached : s.store.cache c.buildParentUri = some dir
  unmarked : s.present = true → s.forgotten = false ∧ s.fetched = none ∧ s.unlisted = false
  forgotten : s.forgotten = true → s.store.cache c = none
  fetched : ∀ g, s.fetched = some (some g) →
    (s.store.metadata dir).children = some g ∨ ¬ s.Listed dir c
  unlisted : s.unlisted = true → ¬ s.Listed dir c

/-- What the listing may do. -/
structure ByLister (s t : Race) : Prop where
  ok : s.Ok dir c → t.Ok dir c
  present : t.present = s.present
  forgotten : t.forgotten = s.forgotten
  fetched : t.fetched = s.fetched
  unlisted : t.unlisted = s.unlisted
  grows : s.store.nextRef ≤ t.store.nextRef
  uri : ∀ r, r < s.store.nextRef → (t.store.metadata r).uri = (s.store.metadata r).uri
  loaded : (s.store.metadata dir).children ≠ none → (t.store.metadata dir).children ≠ none

/-- What the removal may do, as far as the listing is concerned. -/
structure ByRemover (s t : Race) : Prop where
  ok : s.Ok dir c → t.Ok dir c
  grows : s.store.nextRef ≤ t.store.nextRef

variable {dir : Ref} {c : Uri} {isRename : Bool} {s t : Race} {m : Memory}

theorem isRely_byLister : Prog.IsRely (ByLister dir c) where
  refl _ := ⟨id, rfl, rfl, rfl, rfl, le_rfl, fun _ _ => rfl, id⟩
  trans h h' :=
    { ok := h'.ok ∘ h.ok
      present := h'.present.trans h.present
      forgotten := h'.forgotten.trans h.forgotten
      fetched := h'.fetched.trans h.fetched
      unlisted := h'.unlisted.trans h.unlisted
      grows := Nat.le_trans h.grows h'.grows
      uri := fun r hr => (h'.uri r (Nat.lt_of_lt_of_le hr h.grows)).trans (h.uri r hr)
      loaded := h'.loaded ∘ h.loaded }

theorem isRely_byRemover : Prog.IsRely (ByRemover dir c) where
  refl _ := ⟨id, le_rfl⟩
  trans h h' := ⟨h'.ok ∘ h.ok, Nat.le_trans h.grows h'.grows⟩

theorem Ok.dir_lt (h : s.Ok dir c) : dir < s.store.nextRef := h.sound.cache h.cached

/-! ## The accesses of the listing -/

/-- The accesses a listing of the directory makes. -/
def ListerMemory (dir : Ref) (s : Store) : Memory → Prop
  | .new m => m.children = none
  | .write _ v => ∀ m, (v.set m).uri = m.uri ∧ (v.set m).children = m.children
  | .setChildren r children => r = dir ∧ ∀ k q, children.lookup k = some q → q < s.nextRef
  | .mapPut _ _ _ child => child < s.nextRef
  | .cachePut _ r => r < s.nextRef
  | .read _ | .entries _ _ | .cacheGet _ | .exceptionGet _ => True
  | .mapRemove _ _ _ | .cacheRemove _ | .exceptionPut _ _ | .exceptionRemove _ => False

/-- An access that leaves the maps, the children of the directory and the
cache as they are. -/
theorem byLister_of_eq {store : Store} (hcache : store.cache = s.store.cache)
    (hmaps : store.maps = s.store.maps) (hgrows : s.store.nextRef ≤ store.nextRef)
    (hchildren : (store.metadata dir).children = (s.store.metadata dir).children)
    (huri : ∀ r, r < s.store.nextRef → (store.metadata r).uri = (s.store.metadata r).uri) :
    ByLister dir c s { s with store := store } where
  ok h := by
    have hlisted : Listed dir c { s with store := store } ↔ s.Listed dir c := by
      simp only [Listed, hmaps, hchildren]
    refine ⟨⟨fun hr => ?_, fun hq => ?_⟩, ?_, h.unmarked, fun hf => ?_, fun g hg => ?_,
      fun hu => ?_⟩
    · rw [hcache] at hr
      exact Nat.lt_of_lt_of_le (h.sound.cache hr) hgrows
    · rw [hmaps] at hq
      exact Nat.lt_of_lt_of_le (h.sound.maps hq) hgrows
    · exact hcache ▸ h.cached
    · exact hcache ▸ h.forgotten hf
    · rw [hlisted]
      exact hchildren ▸ h.fetched g hg
    · rw [hlisted]
      exact h.unlisted hu
  present := rfl
  forgotten := rfl
  fetched := rfl
  unlisted := rfl
  grows := hgrows
  uri := huri
  loaded hne := by
    change (store.metadata dir).children ≠ none
    rwa [hchildren]

theorem maps_setMap {store : Store} {r : Ref} {g : MapId} {children : ChildMap} (p : Ref)
    (g' : MapId) : (store.setMap r g children).maps p g' =
      if p = r ∧ g' = g then children else store.maps p g' := by
  change Function.update store.maps r _ p g' = _
  rw [Function.update_apply]
  split
  · rename_i hp
    rw [Function.update_apply]
    by_cases hg : g' = g
    · rw [if_pos hg, if_pos ⟨hp, hg⟩]
    · rw [if_neg hg, if_neg (fun h => hg h.2), hp]
  · rename_i hp
    rw [if_neg (fun h => hp h.1)]

/-- What may be cached or listed for the document may not be so before a
mark. -/
theorem byLister_memory (hs : s.Ok dir c) (hm : ListerMemory dir s.store m)
    (hok : ListerOk dir c (.memory m) s) :
    ByLister dir c s { s with store := (Store.exec m s.store).2 } := by
  cases m with
  | read | entries | cacheGet => exact isRely_byLister.refl s
  | mapRemove | cacheRemove | exceptionPut | exceptionRemove => exact hm.elim
  | exceptionGet => exact isRely_byLister.refl s
  | new d =>
    have hother {r : Ref} (hr : r < s.store.nextRef) :
        (Store.exec (.new d) s.store).2.metadata r = s.store.metadata r :=
      Function.update_of_ne (Nat.ne_of_lt hr) ..
    exact byLister_of_eq rfl rfl (Nat.le_succ _)
      (congrArg DocumentMetadata.children (hother hs.dir_lt))
      fun r hr => congrArg DocumentMetadata.uri (hother hr)
  | write r v =>
    have hmetadata (p : Ref) : ((Store.exec (.write r v) s.store).2.metadata p).uri =
        (s.store.metadata p).uri ∧ ((Store.exec (.write r v) s.store).2.metadata p).children =
        (s.store.metadata p).children := by
      change ((Function.update s.store.metadata r _) p).uri = _ ∧
        ((Function.update s.store.metadata r _) p).children = _
      rw [Function.update_apply]
      split
      · rename_i hp
        rw [hp]
        exact hm _
      · exact ⟨rfl, rfl⟩
    exact byLister_of_eq rfl rfl le_rfl (hmetadata dir).2 fun p _ => (hmetadata p).1
  | setChildren r children =>
    obtain ⟨hr, hrefs⟩ := hm
    subst hr
    have hself : ((Store.exec (.setChildren r children) s.store).2.metadata r).children =
        some s.store.nextMap := by
      change (Function.update s.store.metadata r _ r).children = _
      rw [Function.update_self]
    have hmap (p : Ref) (g : MapId) : (Store.exec (.setChildren r children) s.store).2.maps p g =
        if p = r ∧ g = s.store.nextMap then children else s.store.maps p g := maps_setMap p g
    have hlisted : Listed r c { s with store := (Store.exec (.setChildren r children) s.store).2 } ↔
        c ∈ children := by
      unfold Listed
      simp only [hself, Option.some.injEq, exists_eq_left', hmap, and_self, if_true]
    refine ⟨fun h => ⟨⟨fun hq => h.sound.cache hq, fun {p g k q} hq => ?_⟩, h.cached, h.unmarked,
      h.forgotten, fun g hg => .inr fun hin => ?_, fun hu hin => ?_⟩, rfl, rfl, rfl, rfl, le_rfl,
      fun p _ => ?_, fun _ => ?_⟩
    · change ((Store.exec (.setChildren r children) s.store).2.maps p g).lookup k = some q at hq
      rw [hmap] at hq
      split at hq
      · exact hrefs k q hq
      · exact h.sound.maps hq
    · have hnone := (hok (hlisted.mp hin)).1
      change s.fetched = _ at hg
      rw [hnone] at hg
      cases hg
    · have hfalse := (hok (hlisted.mp hin)).2
      change s.unlisted = _ at hu
      rw [hfalse] at hu
      cases hu
    · change ((Function.update s.store.metadata r _) p).uri = _
      rw [Function.update_apply]
      split
      · rename_i hp
        rw [hp]
      · rfl
    · change ((Store.exec (.setChildren r children) s.store).2.metadata r).children ≠ none
      rw [hself]
      exact Option.some_ne_none _
  | mapPut r g key child =>
    have hmap (p : Ref) (g' : MapId) : (Store.exec (.mapPut r g key child) s.store).2.maps p g' =
        if p = r ∧ g' = g then (s.store.maps r g).insert key child else s.store.maps p g' :=
      maps_setMap p g'
    have hnew
        (h : Listed dir c { s with store := (Store.exec (.mapPut r g key child) s.store).2 }) :
        s.Listed dir c ∨ (r = dir ∧ key = c ∧ (s.store.metadata dir).children = some g) := by
      obtain ⟨g', hg', hin⟩ := h
      change c ∈ (Store.exec (.mapPut r g key child) s.store).2.maps dir g' at hin
      rw [hmap] at hin
      split at hin
      · rename_i hrg
        obtain ⟨rfl, rfl⟩ := hrg
        rcases AList.mem_insert _ |>.mp hin with hkey | hin
        · exact .inr ⟨rfl, hkey.symm, hg'⟩
        · exact .inl ⟨g', hg', hin⟩
      · exact .inl ⟨g', hg', hin⟩
    refine ⟨fun h => ⟨⟨fun hq => h.sound.cache hq, fun {p g' k q} hq => ?_⟩, h.cached, h.unmarked,
      h.forgotten, fun g₀ hg₀ => ?_, fun hu hin => ?_⟩, rfl, rfl, rfl, rfl, le_rfl,
      fun _ _ => rfl, id⟩
    · change ((Store.exec (.mapPut r g key child) s.store).2.maps p g').lookup k = some q at hq
      rw [hmap] at hq
      split at hq
      · by_cases hk : k = key
        · subst hk
          rw [AList.lookup_insert] at hq
          obtain rfl := Option.some.inj hq
          exact hm
        · rw [AList.lookup_insert_ne hk] at hq
          exact h.sound.maps hq
      · exact h.sound.maps hq
    · rcases h.fetched g₀ hg₀ with hcurrent | hout
      · exact .inl hcurrent
      by_cases hin : Listed dir c { s with store := (Store.exec (.mapPut r g key child) s.store).2 }
      · rcases hnew hin with hin | ⟨hr, hkey, hg⟩
        · exact absurd hin hout
        · obtain rfl := Option.some.inj ((hok hr hkey).2 _ hg₀)
          exact .inl hg
      · exact .inr hin
    · rcases hnew hin with hin | ⟨hr, hkey, _⟩
      · exact h.unlisted hu hin
      · have hfalse := (hok hr hkey).1
        change s.unlisted = true at hu
        rw [hfalse] at hu
        cases hu
  | cachePut key r =>
    have hcache (k : Uri) : (Store.exec (.cachePut key r) s.store).2.cache k =
        if k = key then some r else s.store.cache k := Function.update_apply ..
    refine ⟨fun h => ⟨⟨fun {k q} hq => ?_, h.sound.maps⟩, ?_, h.unmarked, fun hf => ?_, h.fetched,
      h.unlisted⟩, rfl, rfl, rfl, rfl, le_rfl, fun _ _ => rfl, id⟩
    · change (Store.exec (.cachePut key r) s.store).2.cache k = some q at hq
      rw [hcache] at hq
      split at hq
      · obtain rfl := Option.some.inj hq
        exact hm
      · exact h.sound.cache hq
    · change (Store.exec (.cachePut key r) s.store).2.cache _ = _
      rw [hcache, if_neg (Ne.symm hok.1)]
      exact h.cached
    · change (Store.exec (.cachePut key r) s.store).2.cache c = _
      rw [hcache, if_neg fun hkey => ?_]
      · exact h.forgotten hf
      · have hfalse := hok.2 hkey.symm
        change s.forgotten = true at hf
        rw [hfalse] at hf
        cases hf

/-! ## The accesses of the removal -/

/-- The accesses a removal makes. -/
def RemoverMemory (c : Uri) (s : Race) : Memory → Prop
  | .write _ v => ∀ m, (v.set m).children = m.children
  | .mapPut _ _ key r | .cachePut key r => r < s.store.nextRef ∧ (key = c → s.present = true)
  | .read _ | .cacheGet _ | .cacheRemove _ | .exceptionRemove _ | .mapRemove _ _ _ => True
  | _ => False

/-- The race behind an access of the removal. -/
def after (dir : Ref) (c : Uri) (isRename : Bool) (m : Memory) (s : Race) : Race :=
  { s.mark dir c isRename m with store := (Store.exec m s.store).2 }

theorem mark_store : (s.mark dir c isRename m).store = s.store := by
  unfold mark
  split
  · rfl
  · split
    case h_3 => split <;> rfl
    all_goals rfl

theorem mark_present : (s.mark dir c isRename m).present = s.present := by
  unfold mark
  split
  · rfl
  · split
    case h_3 => split <;> rfl
    all_goals rfl

theorem mark_eq (h : s.present = true) : s.mark dir c isRename m = s := by
  unfold mark
  rw [if_pos h]

theorem removerStep_memory {a : m.Answer} :
    RemoverStep dir c isRename (.memory m) s a t ↔
      a = (Store.exec m s.store).1 ∧ t = s.after dir c isRename m := by
  change _ = (Store.exec m (s.mark dir c isRename m).store).1 ∧ _ = _ ↔ _
  rw [mark_store]
  rfl

/-- **References go on to be to objects that exist**, and the directory to
be cached. -/
theorem sound_after (h : s.Ok dir c) (hm : RemoverMemory c s m) {a : m.Answer}
    (hok : RemoverOk dir c isRename (.memory m) s a t) :
    (Store.exec m s.store).2.Sound ∧
      (Store.exec m s.store).2.cache c.buildParentUri = some dir := by
  have hsame : s.store.Sound ∧ s.store.cache c.buildParentUri = some dir := ⟨h.sound, h.cached⟩
  cases m with
  | read | cacheGet => exact hsame
  | exceptionRemove => exact ⟨⟨h.sound.cache, h.sound.maps⟩, h.cached⟩
  | new | setChildren | entries | exceptionGet | exceptionPut => exact hm.elim
  | write r v => exact ⟨⟨h.sound.cache, h.sound.maps⟩, h.cached⟩
  | mapPut r g key child =>
    refine ⟨⟨h.sound.cache, fun {p g' k q} hq => ?_⟩, h.cached⟩
    change AList.lookup k ((s.store.setMap r g _).maps p g') = some q at hq
    rw [maps_setMap] at hq
    split at hq
    · by_cases hk : k = key
      · subst hk
        rw [AList.lookup_insert] at hq
        obtain rfl := Option.some.inj hq
        exact hm.1
      · rw [AList.lookup_insert_ne hk] at hq
        exact h.sound.maps hq
    · exact h.sound.maps hq
  | mapRemove r g key =>
    refine ⟨⟨h.sound.cache, fun {p g' k q} hq => ?_⟩, h.cached⟩
    change AList.lookup k ((s.store.setMap r g _).maps p g') = some q at hq
    rw [maps_setMap] at hq
    split at hq
    · by_cases hk : k = key
      · subst hk
        rw [AList.lookup_erase] at hq
        cases hq
      · rw [AList.lookup_erase_ne hk] at hq
        exact h.sound.maps hq
    · exact h.sound.maps hq
  | cachePut key r =>
    have hcache (k : Uri) : (Store.exec (.cachePut key r) s.store).2.cache k =
        if k = key then some r else s.store.cache k := Function.update_apply ..
    refine ⟨⟨fun {k q} hq => ?_, h.sound.maps⟩, ?_⟩
    · rw [hcache] at hq
      split at hq
      · obtain rfl := Option.some.inj hq
        exact hm.1
      · exact h.sound.cache hq
    · rw [hcache, if_neg (Ne.symm hok)]
      exact h.cached
  | cacheRemove key =>
    have hcache (k : Uri) : (Store.exec (.cacheRemove key) s.store).2.cache k =
        if k = key then none else s.store.cache k := Function.update_apply ..
    refine ⟨⟨fun {k q} hq => ?_, h.sound.maps⟩, ?_⟩
    · rw [hcache] at hq
      split at hq
      · cases hq
      · exact h.sound.cache hq
    · rw [hcache, if_neg (Ne.symm hok)]
      exact h.cached

/-- While the server has the document, no mark is set. -/
theorem ok_after_of_present (h : s.Ok dir c) (hp : s.present = true)
    (hsound : (Store.exec m s.store).2.Sound)
    (hcached : (Store.exec m s.store).2.cache c.buildParentUri = some dir) :
    (s.after dir c isRename m).Ok dir c := by
  unfold after
  rw [mark_eq hp]
  obtain ⟨hforgotten, hfetched, hunlisted⟩ := h.unmarked hp
  refine ⟨hsound, hcached, h.unmarked, fun hf => ?_, fun g hg => ?_, fun hu => ?_⟩
  · cases hforgotten.symm.trans hf
  · cases hfetched.symm.trans hg
  · cases hunlisted.symm.trans hu

/-- An access that sets no mark, and leaves what they are about. -/
theorem ok_after_of_eq (h : s.Ok dir c) (hp : s.present = false)
    (hsound : (Store.exec m s.store).2.Sound)
    (hcached : (Store.exec m s.store).2.cache c.buildParentUri = some dir)
    (hmark : s.mark dir c isRename m = s)
    (hcache : (Store.exec m s.store).2.cache c = s.store.cache c)
    (hchildren : ((Store.exec m s.store).2.metadata dir).children =
      (s.store.metadata dir).children)
    (hlisted : Listed dir c { s with store := (Store.exec m s.store).2 } → s.Listed dir c) :
    (s.after dir c isRename m).Ok dir c := by
  unfold after
  rw [hmark]
  refine ⟨hsound, hcached, fun hp' => ?_, fun hf => hcache.trans (h.forgotten hf), fun g hg => ?_,
    fun hu hin => h.unlisted hu (hlisted hin)⟩
  · cases hp.symm.trans hp'
  · rcases h.fetched g hg with hcurrent | hout
    · exact .inl (hchildren.trans hcurrent)
    · exact .inr fun hin => hout (hlisted hin)

/-- **An access of the removal** keeps what the marks say. -/
theorem ok_after (h : s.Ok dir c) (hm : RemoverMemory c s m) {a : m.Answer}
    (hok : RemoverOk dir c isRename (.memory m) s a t) :
    (s.after dir c isRename m).Ok dir c := by
  obtain ⟨hsound, hcached⟩ := sound_after h hm hok
  cases hp : s.present with
  | true => exact ok_after_of_present h hp hsound hcached
  | false =>
    have hmark : ¬ s.present = true := by simp [hp]
    cases m with
    | new | setChildren | entries | exceptionGet | exceptionPut => exact hm.elim
    | exceptionRemove key =>
      exact ok_after_of_eq h hp hsound hcached (if_neg hmark) rfl rfl id
    | write r v =>
      have hchildren : ((Store.exec (.write r v) s.store).2.metadata dir).children =
          (s.store.metadata dir).children := by
        change ((Function.update s.store.metadata r _) dir).children = _
        rw [Function.update_apply]
        split
        · rename_i hr
          rw [hr]
          exact hm _
        · rfl
      refine ok_after_of_eq h hp hsound hcached (if_neg hmark) rfl hchildren ?_
      rintro ⟨g, hg, hin⟩
      exact ⟨g, hchildren.symm.trans hg, hin⟩
    | read r =>
      by_cases hr : r = dir
      · have hafter : s.after dir c isRename (.read r) =
            { s with
              fetched := some (s.store.metadata dir).children
              unlisted := s.unlisted || (s.store.metadata dir).children.isNone } := by
          change { s.mark dir c isRename (.read r) with store := s.store } = _
          rw [mark, if_neg hmark]
          simp only [if_pos hr]
        rw [hafter]
        refine ⟨hsound, hcached, fun hp' => absurd hp' hmark, h.forgotten, fun g hg => ?_,
          fun hu => ?_⟩
        · exact .inl (Option.some.inj hg)
        · rcases Bool.or_eq_true_iff.mp hu with hu | hnone
          · exact h.unlisted hu
          · rintro ⟨g, hg, _⟩
            change (s.store.metadata dir).children = some g at hg
            rw [hg] at hnone
            cases hnone
      · refine ok_after_of_eq h hp hsound hcached ?_ rfl rfl id
        rw [mark, if_neg hmark]
        simp only [if_neg hr]
    | cacheGet key =>
      have hafter : s.after dir c isRename (.cacheGet key) =
          { s with
            forgotten := s.forgotten ||
              decide (isRename = true ∧ key = c ∧ s.store.cache c = none)
            unlisted := s.unlisted ||
              decide (isRename = true ∧ key = c ∧ s.store.cache c = none) } := by
        change { s.mark dir c isRename (.cacheGet key) with store := s.store } = _
        rw [mark, if_neg hmark]
      rw [hafter]
      refine ⟨hsound, hcached, fun hp' => absurd hp' hmark, fun hf => ?_, h.fetched, fun hu => ?_⟩
      · rcases Bool.or_eq_true_iff.mp hf with hf | hmissed
        · exact h.forgotten hf
        · exact (of_decide_eq_true hmissed).2.2
      · rcases Bool.or_eq_true_iff.mp hu with hu | hmissed
        · exact h.unlisted hu
        · obtain ⟨hrename, hkey, hnone⟩ := of_decide_eq_true hmissed
          exact hok hrename hkey hp hnone
    | mapPut r g key child =>
      have hkey : key ≠ c := fun hk => hmark (hm.2 hk)
      refine ok_after_of_eq h hp hsound hcached (if_neg hmark) rfl rfl ?_
      rintro ⟨g', hg', hin⟩
      refine ⟨g', hg', ?_⟩
      change c ∈ (s.store.setMap r g _).maps dir g' at hin
      rw [maps_setMap] at hin
      split at hin
      · rename_i hrg
        obtain ⟨rfl, rfl⟩ := hrg
        exact (AList.mem_insert _ |>.mp hin).resolve_left (Ne.symm hkey)
      · exact hin
    | mapRemove r g key =>
      have hafter : s.after dir c isRename (.mapRemove r g key) =
          { s with
            store := (Store.exec (.mapRemove r g key) s.store).2
            unlisted := s.unlisted ||
              decide (r = dir ∧ key = c ∧ s.fetched = some (some g)) } := by
        unfold after
        rw [mark, if_neg hmark]
      have hin {g' : MapId}
          (h : c ∈ (s.store.setMap r g ((s.store.maps r g).erase key)).maps dir g') :
          c ∈ s.store.maps dir g' ∧ ¬ (dir = r ∧ g' = g ∧ key = c) := by
        rw [maps_setMap] at h
        split at h
        · rename_i hrg
          obtain ⟨rfl, rfl⟩ := hrg
          obtain ⟨hne, hmem⟩ := AList.mem_erase.mp h
          exact ⟨hmem, fun hk => hne hk.2.2.symm⟩
        · rename_i hrg
          exact ⟨h, fun hk => hrg ⟨hk.1, hk.2.1⟩⟩
      rw [hafter]
      refine ⟨hsound, hcached, fun hp' => absurd hp' hmark, h.forgotten, fun g₀ hg₀ => ?_,
        fun hu => ?_⟩
      · rcases h.fetched g₀ hg₀ with hcurrent | hout
        · exact .inl hcurrent
        · exact .inr fun ⟨g', hg', hmem⟩ => hout ⟨g', hg', (hin hmem).1⟩
      · rintro ⟨g', hg', hmem⟩
        rcases Bool.or_eq_true_iff.mp hu with hu | hk
        · exact h.unlisted hu ⟨g', hg', (hin hmem).1⟩
        · obtain ⟨hr, hkey, hfetched⟩ := of_decide_eq_true hk
          rcases h.fetched g hfetched with hcurrent | hout
          · obtain rfl := Option.some.inj (hcurrent.symm.trans hg')
            exact (hin hmem).2 ⟨hr.symm, rfl, hkey⟩
          · exact hout ⟨g', hg', (hin hmem).1⟩
    | cachePut key r =>
      have hkey : key ≠ c := fun hk => hmark (hm.2 hk)
      exact ok_after_of_eq h hp hsound hcached (if_neg hmark)
        (Function.update_of_ne (Ne.symm hkey) ..) rfl id
    | cacheRemove key =>
      have hafter : s.after dir c isRename (.cacheRemove key) =
          { s with
            store := (Store.exec (.cacheRemove key) s.store).2
            forgotten := s.forgotten || decide (key = c) } := by
        unfold after
        rw [mark, if_neg hmark]
      rw [hafter]
      refine ⟨hsound, hcached, fun hp' => absurd hp' hmark, fun hf => ?_, h.fetched, h.unlisted⟩
      change Function.update s.store.cache key none c = none
      rw [Function.update_apply]
      split
      · rfl
      · rename_i hkey
        rcases Bool.or_eq_true_iff.mp hf with hf | hk
        · exact h.forgotten hf
        · exact absurd (of_decide_eq_true hk).symm hkey

end Race

end SambaProvider

import SambaProvider.Document.Application
import SambaProvider.Document.Changes
import SambaProvider.Document.StatCycle
import SambaProvider.Lib.Stays

/-!
# The types of the cached documents

All metadata is of a type the queries can show, and what is cached for a
share that is mounted is a share's: which effects keep that whatever is
there, and what a put into the cache, a listing or a task needs to keep
it.
-/

namespace SambaProvider

open Lib DocumentMetadata SambaDocumentsProvider

/-! ## What is kept

`N` holds the mounted shares, and while a share is being mounted that
share too. -/

/-- What is cached at a URI in `N` is a share's, and everything can be
shown. -/
structure Typed (N : List Uri) (s : AppState) : Prop where
  mounted : ∀ u ∈ s.shares.mounted, u ∈ N
  shown : ∀ r, ShownType (s.store.metadata r).entry
  cached : ∀ u r, s.store.cache u = some r → r < s.store.nextRef
  share : ∀ u ∈ N, ∀ r, s.store.cache u = some r → (s.store.metadata r).entry.type = .fileShare

/-- The objects and the shares are the same. -/
structure SameObjects (s t : AppState) : Prop where
  metadata : t.store.metadata = s.store.metadata
  nextRef : t.store.nextRef = s.store.nextRef
  shares : t.shares = s.shares

/-- The effects that keep the types whatever is there. -/
def Effect.Quiet : Effect → Prop
  | .memory (.new _) | .memory (.cachePut _ _) | .shares (.saveServer _) => False
  | _ => True

/-- The effects that keep the objects and the shares. -/
def Effect.Still : Effect → Prop
  | .memory (.new _) | .memory (.write _ _) | .memory (.setChildren _ _)
  | .shares (.saveServer _) | .shares (.unmountServer _) => False
  | _ => True

variable {N : List Uri} {served : List DirectoryEntry} {s s' t : AppState} {u k : Uri} {r : Ref}
  {m : DocumentMetadata} {n : ℕ} {X : Exn → Prop} {α β : Type} {P : α → AppState → Prop}
  {p : Proc α} {I : AppState → Prop}

theorem SameObjects.refl : SameObjects s s := ⟨rfl, rfl, rfl⟩

theorem SameObjects.trans (h : SameObjects s s') (h' : SameObjects s' t) : SameObjects s t :=
  ⟨h'.metadata.trans h.metadata, h'.nextRef.trans h.nextRef, h'.shares.trans h.shares⟩

theorem shownType_congr {e e' : DirectoryEntry} (h : e.type = e'.type) :
    ShownType e ↔ ShownType e' := by
  unfold ShownType
  rw [h]

/-- A read or write, but for an allocation, keeps the types. -/
theorem Store.exec_type {m : Memory} {s : Store} (hm : ∀ d, m ≠ .new d) :
    (∀ r, ((exec m s).2.metadata r).entry.type = (s.metadata r).entry.type) ∧
      (exec m s).2.nextRef = s.nextRef := by
  cases m with
  | new d => exact absurd rfl (hm d)
  | write r v =>
    refine ⟨fun p => ?_, rfl⟩
    change ((Function.update s.metadata r _) p).entry.type = _
    by_cases hp : p = r
    · subst hp
      rw [Function.update_self]
      cases v <;> rfl
    · rw [Function.update_of_ne hp]
  | setChildren r children =>
    refine ⟨fun p => ?_, rfl⟩
    change ((Function.update s.metadata r _) p).entry.type = _
    by_cases hp : p = r
    · subst hp
      rw [Function.update_self]
    · rw [Function.update_of_ne hp]
  | _ => exact ⟨fun _ => rfl, rfl⟩

/-- What is cached afterwards was cached, but for what is put. -/
theorem Store.cache_of_exec {m : Memory} {s : Store} (hm : ∀ key r, m ≠ .cachePut key r)
    (h : (exec m s).2.cache u = some r) : s.cache u = some r := by
  cases m with
  | cachePut key r => exact absurd rfl (hm key r)
  | cacheRemove key =>
    change Function.update s.cache key none u = some r at h
    by_cases hk : u = key
    · subst hk
      rw [Function.update_self] at h
      cases h
    · rwa [Function.update_of_ne hk] at h
  | _ => exact h

/-- **A quiet effect keeps the types.** -/
theorem typed_of_quiet (e : Effect) (s : AppState) (a : e.Answer) (t : AppState)
    (he : e.Quiet) (hs : Typed N s) (h : AppState.Step served e s a t) : Typed N t := by
  cases e with
  | memory m =>
    obtain ⟨_, rfl⟩ := h
    obtain ⟨htype, hnext⟩ := Store.exec_type (s := s.store) (m := m)
      (fun d hd => by rw [hd] at he; exact he)
    have hcache (u : Uri) (r : Ref) (hr : (Store.exec m s.store).2.cache u = some r) :
        s.store.cache u = some r :=
      Store.cache_of_exec (fun key r hm => by rw [hm] at he; exact he) hr
    exact ⟨hs.mounted, fun r => (shownType_congr (htype r)).mpr (hs.shown r),
      fun u r hr => hnext ▸ hs.cached u r (hcache u r hr),
      fun u hu r hr => (htype r).trans (hs.share u hu r (hcache u r hr))⟩
  | shares c =>
    obtain ⟨hans, hstore⟩ := h
    refine ⟨fun u hu => hs.mounted u ?_, by rw [hstore]; exact hs.shown,
      by rw [hstore]; exact hs.cached, by rw [hstore]; exact hs.share⟩
    cases c with
    | saveServer u => exact he.elim
    | iterator | containsShare | isShareMounted => exact hans.2 ▸ hu
    | beginMount | removeCredential =>
      rw [show t.shares = s.shares from hans] at hu
      exact hu
    | unmountServer v =>
      rcases hans with ⟨_, heq⟩ | ⟨_, heq⟩
      · exact heq ▸ hu
      · rw [heq] at hu
        exact List.mem_of_mem_filter hu
  | smb c =>
    obtain ⟨_, rfl⟩ := h
    exact hs
  | _ =>
    obtain rfl := h
    exact hs

theorem sameObjects_of_still (e : Effect) (s : AppState) (a : e.Answer) (t : AppState)
    (he : e.Still) (h : AppState.Step served e s a t) : SameObjects s t := by
  cases e with
  | memory m =>
    obtain ⟨_, rfl⟩ := h
    cases m with
    | new | write | setChildren => exact he.elim
    | _ => exact ⟨rfl, rfl, rfl⟩
  | shares c =>
    obtain ⟨hans, hstore⟩ := h
    refine ⟨by rw [hstore], by rw [hstore], ?_⟩
    cases c with
    | saveServer | unmountServer => exact he.elim
    | iterator | containsShare | isShareMounted => exact hans.2
    | beginMount | removeCredential => exact hans
  | smb c =>
    obtain ⟨_, rfl⟩ := h
    exact .refl
  | _ =>
    obtain rfl := h
    exact .refl

/-- **A program of quiet effects** keeps the types. -/
theorem stays_of_quiet (h : p.Every Effect.Quiet X) (hs : Typed N s) :
    p.Stays (AppState.Step served) (Typed N) X (fun _ _ => True) s :=
  h.stays (fun e s a t he hs => typed_of_quiet e s a t he hs) (fun _ _ _ _ _ _ _ _ => trivial)
    hs trivial

/-- A program of effects that are quiet and still. -/
theorem stays_of_still (h : p.Every (fun e => e.Quiet ∧ e.Still) X) (hs : Typed N s) :
    p.Stays (AppState.Step served) (Typed N) X (fun _ t => SameObjects s t) s :=
  h.stays (fun e s a t he hs => typed_of_quiet e s a t he.1 hs)
    (fun e s' a t he _ hsame hstep => hsame.trans (sameObjects_of_still e s' a t he.2 hstep))
    hs .refl

/-! ## Single effects -/

/-- **An allocation** of metadata that can be shown. -/
theorem typed_new (hs : Typed N s) (hm : ShownType m.entry) :
    Typed N ⟨(Store.exec (.new m) s.store).2, s.shares⟩ := by
  have hmetadata (r : Ref) : ((Store.exec (.new m) s.store).2).metadata r =
      if r = s.store.nextRef then m else s.store.metadata r := by
    change Function.update s.store.metadata s.store.nextRef m r = _
    exact Function.update_apply ..
  refine ⟨hs.mounted, fun r => ?_, fun u r hr => Nat.lt_succ_of_lt (hs.cached u r hr),
    fun u hu r hr => ?_⟩
  · rw [hmetadata r]
    split
    · exact hm
    · exact hs.shown r
  · rw [hmetadata r, if_neg (Nat.ne_of_lt (hs.cached u r hr))]
    exact hs.share u hu r hr

/-- **An object is put into the cache** under its URI. -/
theorem typed_cachePut (hs : Typed N s) (hr : r < s.store.nextRef)
    (hput : u ∈ N → (s.store.metadata r).entry.type = .fileShare) :
    Typed N ⟨(Store.exec (.cachePut u r) s.store).2, s.shares⟩ := by
  have hcache {v : Uri} {p : Ref} (hp : Function.update s.store.cache u (some r) v = some p) :
      v = u ∧ p = r ∨ s.store.cache v = some p := by
    rw [Function.update_apply] at hp
    split at hp
    · rename_i hvu
      exact .inl ⟨hvu, (Option.some.inj hp).symm⟩
    · exact .inr hp
  refine ⟨hs.mounted, hs.shown, fun v p hp => ?_, fun v hv p hp => ?_⟩
  · rcases hcache hp with ⟨_, rfl⟩ | hp
    · exact hr
    · exact hs.cached v p hp
  · rcases hcache hp with ⟨rfl, rfl⟩ | hp
    · exact hput hv
    · exact hs.share v hv p hp

/-! ## Programs that do neither -/

/-- Quiet and still. -/
def Effect.Calm (e : Effect) : Prop := e.Quiet ∧ e.Still

theorem calm_smb {c : SmbCall} : (smb c).Every Effect.Calm fun _ => True :=
  ⟨⟨trivial, trivial⟩, fun _ => Prog.every_ofExcept fun _ _ => trivial⟩

theorem calm_make {e : DirectoryEntry} : (make u e).Every Effect.Calm X :=
  ⟨⟨trivial, trivial⟩, fun _ => trivial⟩

theorem calm_fromUri : (fromUri u).Every Effect.Calm fun _ => True := by
  unfold fromUri
  split
  · exact trivial
  · exact Prog.every_bind calm_smb fun _ => Prog.every_bind calm_make fun _ => trivial

theorem calm_getChildren : (getChildren r).Every Effect.Calm X :=
  ⟨⟨trivial, trivial⟩, fun _ => trivial⟩

theorem calm_putChild {child : Ref} : (putChild r child).Every Effect.Calm X := by
  refine Prog.every_bind calm_getChildren fun children => ?_
  cases children with
  | none => exact trivial
  | some g => exact ⟨⟨trivial, trivial⟩, fun _ => ⟨⟨trivial, trivial⟩, fun _ => trivial⟩⟩

theorem calm_get : (DocumentCache.get u).Every Effect.Calm X := by
  refine ⟨⟨trivial, trivial⟩, fun found => ?_⟩
  cases found with
  | none => exact trivial
  | some r => exact ⟨⟨trivial, trivial⟩, fun _ => ⟨⟨trivial, trivial⟩, fun _ => trivial⟩⟩

theorem calm_remove : (DocumentCache.remove u).Every Effect.Calm fun _ => True := by
  refine ⟨⟨trivial, trivial⟩, fun _ => ⟨⟨trivial, trivial⟩, fun _ => ⟨⟨trivial, trivial⟩,
    fun found => ?_⟩⟩⟩
  cases found with
  | none => exact trivial
  | some parent =>
    change Prog.Every _ _ (getChildren parent >>= _)
    refine Prog.every_bind calm_getChildren fun children => ?_
    split
    · refine Prog.every_bind calm_getChildren fun children => ?_
      cases children with
      | none => exact trivial
      | some g => exact ⟨⟨trivial, trivial⟩, fun _ => trivial⟩
    · exact trivial

theorem quiet_of_calm (h : p.Every Effect.Calm X) : p.Every Effect.Quiet X :=
  h.mono fun _ he => he.1

/-! ## The cache -/

/-- Once the object is in the cache, `M` may hold its URI. -/
theorem stays_putInto {M : List Uri} (hI : ∀ t, Typed M t → I t) (hs : I s)
    (hcached : Typed M ⟨(Store.exec (.cachePut (s.store.metadata r).uri r) s.store).2, s.shares⟩) :
    (DocumentCache.put r).Stays (AppState.Step served) I X
      (fun _ t => Typed M t ∧ SameObjects s t) s := by
  rintro _ _ ⟨rfl, rfl⟩
  refine ⟨hs, ?_⟩
  rintro _ _ ⟨rfl, rfl⟩
  have hsame : SameObjects s
      ⟨(Store.exec (.cachePut (s.store.metadata r).uri r) s.store).2, s.shares⟩ := ⟨rfl, rfl, rfl⟩
  refine ⟨hI _ hcached, Prog.Stays.mono_inv hI ?_⟩
  refine ((stays_of_still ?_ hcached).and_inv hcached).mono fun _ t ht =>
    ⟨ht.1, hsame.trans ht.2⟩
  refine ⟨⟨trivial, trivial⟩, fun _ => ⟨⟨trivial, trivial⟩, fun found => ?_⟩⟩
  cases found with
  | none => exact trivial
  | some parent => exact calm_putChild

theorem stays_put (hs : Typed N s) (hr : r < s.store.nextRef)
    (hput : (s.store.metadata r).uri ∈ N → (s.store.metadata r).entry.type = .fileShare) :
    (DocumentCache.put r).Stays (AppState.Step served) (Typed N) X
      (fun _ t => SameObjects s t) s :=
  (stays_putInto (fun _ => id) hs (typed_cachePut hs hr hput)).mono fun _ _ ht => ht.2

/-- A lookup leaves everything as it is. -/
theorem stays_get (hs : Typed N s) : (DocumentCache.get u).Stays (AppState.Step served) (Typed N) X
    (fun result t => result.item = s.store.cache u ∧ t = s) s := by
  rintro found _ ⟨hfound, rfl⟩
  refine ⟨hs, ?_⟩
  rw [show s.store.cache u = found from hfound.symm]
  cases found with
  | none => exact ⟨rfl, rfl⟩
  | some r =>
    rintro _ _ ⟨rfl, rfl⟩
    refine ⟨hs, ?_⟩
    rintro now _ rfl
    exact ⟨hs, item_ite, rfl⟩

/-- An object is allocated. -/
theorem stays_new (hs : Typed N s) (hm : ShownType m.entry) :
    (memory (.new m)).Stays (AppState.Step served) (Typed N) X
      (fun r t => r < t.store.nextRef ∧ t.store.metadata r = m ∧ t.shares = s.shares) s := by
  rintro _ _ ⟨rfl, rfl⟩
  exact ⟨typed_new hs hm, Nat.lt_succ_self _, Function.update_self .., rfl⟩

theorem stays_isShareMounted (hs : Typed N s) :
    (perform (.shares (.isShareMounted u))).Stays (AppState.Step served) (Typed N) X
      (fun b t => b = decide (u ∈ s.shares.mounted) ∧ t = s) s := by
  rintro _ ⟨store, shares⟩ ⟨⟨hb, hshares⟩, hstore⟩
  obtain rfl : shares = s.shares := hshares
  obtain rfl : store = s.store := hstore
  exact ⟨hs, hb, rfl⟩

/-- New metadata is put into the cache. -/
theorem stays_newPut {f : Ref → Proc α} {Q : α → AppState → Prop} (hs : Typed N s)
    (hm : ShownType m.entry) (hshare : m.uri ∈ N → m.entry.type = .fileShare)
    (hf : ∀ t, Typed N t → t.shares = s.shares →
      (t.store.metadata s.store.nextRef).entry = m.entry → s.store.nextRef < t.store.nextRef →
      (f s.store.nextRef).Stays (AppState.Step served) (Typed N) X Q t) :
    (do
      let r ← memory (.new m)
      DocumentCache.put r
      f r : Proc α).Stays (AppState.Step served) (Typed N) X Q s := by
  have hnew := typed_new hs hm
  have hmetadata : (Store.exec (.new m) s.store).2.metadata s.store.nextRef = m :=
    Function.update_self ..
  rintro _ _ ⟨rfl, rfl⟩
  refine ⟨hnew, ?_⟩
  change Prog.Stays _ _ _ _ (DocumentCache.put s.store.nextRef >>= fun _ => f s.store.nextRef) _
  refine Prog.Stays.bind hnew (stays_put hnew (Nat.lt_succ_self _) fun hmem => ?_)
    fun _ t ht hsame => ?_
  · change ((Store.exec (.new m) s.store).2.metadata s.store.nextRef).uri ∈ N at hmem
    change ((Store.exec (.new m) s.store).2.metadata s.store.nextRef).entry.type = _
    rw [hmetadata] at hmem ⊢
    exact hshare hmem
  · refine hf t ht hsame.shares ?_ ?_
    · rw [hsame.metadata]
      exact congrArg DocumentMetadata.entry hmetadata
    · rw [hsame.nextRef]
      exact Nat.lt_succ_self _

/-! ## Queries and changes -/

/-- All through the program the types are kept. -/
def KeepsTypes (served : List DirectoryEntry) (N : List Uri) (p : Proc α) (s : AppState) : Prop :=
  p.Stays (AppState.Step served) (Typed N) (fun _ => True) (fun _ _ => True) s

theorem keepsTypes_of_quiet (h : p.Every Effect.Quiet fun _ => True) (hs : Typed N s) :
    KeepsTypes served N p s := stays_of_quiet h hs

theorem keepsTypes_of_calm (h : p.Every Effect.Calm fun _ => True) (hs : Typed N s) :
    KeepsTypes served N p s := stays_of_quiet (quiet_of_calm h) hs

theorem KeepsTypes.discard {q : β → Proc Unit} {p : Proc β} (h : KeepsTypes served N p s)
    (hs : Typed N s) (hq : ∀ b, q b = Pure.pure ()) :
    KeepsTypes served N (p >>= q) s := by
  refine Prog.Stays.bind hs h fun b t _ _ => ?_
  rw [hq b]
  exact trivial

theorem KeepsTypes.rethrowing (hs : Typed N s) (h : KeepsTypes served N p s) :
    KeepsTypes served N (rethrowing p) s :=
  Prog.Stays.catching hs h fun _ _ _ => trivial

theorem calm_notifyChange : (notifyChange u).Every Effect.Calm X :=
  ⟨⟨trivial, trivial⟩, fun _ => trivial⟩

theorem calm_documentRow {projection : Option (List Column)} :
    (documentRow projection r).Every Effect.Calm fun _ => True :=
  ⟨⟨trivial, trivial⟩, fun _ => Prog.every_ofExcept fun _ _ => trivial⟩

/-- What is new. -/
theorem stays_make {e : DirectoryEntry} (hs : Typed N s) :
    (make u e).Stays (AppState.Step served) (Typed N) X
      (fun m t => m.uri = u ∧ m.entry = e ∧ t = s) s := by
  rintro now _ rfl
  exact ⟨hs, rfl, rfl, rfl⟩

/-- **The metadata of `fromUri`** is a file's or a directory's. -/
theorem stays_fromUri (hs : Typed N s) :
    (fromUri u).Stays (AppState.Step served) (Typed N) (fun _ => True)
      (fun m t => m.uri = u ∧ ShownType m.entry ∧ t = s) s := by
  unfold fromUri
  split
  · exact trivial
  · rintro answer _ ⟨_, rfl⟩
    refine ⟨hs, ?_⟩
    rcases answer with x | stat
    · exact trivial
    · rintro now _ rfl
      refine ⟨hs, rfl, ?_, rfl⟩
      change ShownType ⟨if stat.isDir then .dir else .file, "", u.getLastPathSegment⟩
      cases stat.isDir <;> simp [ShownType]

/-- A request leaves everything as it is. -/
theorem stays_smb {c : SmbCall} (hs : Typed N s) :
    (smb c).Stays (AppState.Step served) (Typed N) (fun _ => True) (fun _ t => t = s) s := by
  rintro answer t ⟨_, rfl⟩
  refine ⟨hs, ?_⟩
  rcases answer with x | v
  · exact trivial
  · exact rfl

theorem keepsTypes_queryDocument {projection : Option (List Column)}
    (hs : Typed s.shares.mounted s) :
    KeepsTypes served s.shares.mounted (queryDocument u projection) s := by
  refine KeepsTypes.rethrowing hs ?_
  refine Prog.Stays.bind hs (stays_get hs) fun result t _ hget => ?_
  obtain ⟨_, rfl⟩ := hget
  split
  · -- The share manager is asked first.
    have hdescribe : (describeDocument u).Stays (AppState.Step served) (Typed t.shares.mounted)
        (fun _ => True) (fun m t' => ShownType m.entry ∧
          (m.uri ∈ t.shares.mounted → m.entry.type = .fileShare)) t := by
      rintro contained ⟨store, shares⟩ ⟨⟨rfl, rfl⟩, rfl⟩
      refine ⟨hs, ?_⟩
      change Prog.Stays _ _ _ _ (if decide (u ∈ t.shares.saved) then _ else _) t
      split
      · refine (stays_make hs).mono fun m t' hm => ?_
        obtain ⟨_, hentry, _⟩ := hm
        rw [hentry]
        exact ⟨by simp [ShownType], fun _ => rfl⟩
      · rename_i hcontained
        refine (stays_fromUri hs).mono fun m t' hm => ⟨hm.2.1, fun hmem => ?_⟩
        rw [hm.1] at hmem
        exact absurd (decide_eq_true (t.shares.mounted_saved u hmem)) hcontained
    refine Prog.Stays.bind hs hdescribe fun m t' ht' hm => ?_
    exact stays_newPut ht' hm.1 hm.2 fun t'' ht'' _ _ _ =>
      keepsTypes_of_calm calm_documentRow ht''
  · exact keepsTypes_of_calm calm_documentRow hs

/-- A new document is put into the cache, unless there is one at its URI. -/
theorem keepsTypes_createDocument {isDir : Bool} {displayName : String} (hs : Typed N s)
    (hnew : ∀ k ∈ N, u.buildChildUri (createdEntry isDir displayName) = some k →
      s.store.cache k ≠ none) :
    KeepsTypes served N (createDocument u isDir displayName) s := by
  refine KeepsTypes.rethrowing hs ?_
  dsimp only
  cases huri : u.buildChildUri (createdEntry isDir displayName) with
  | none => exact trivial
  | some uri =>
    have hcreate : (createOnServer isDir uri).Stays (AppState.Step served) (Typed N)
        (fun _ => True) (fun _ t => t = s) s := by
      unfold createOnServer
      split
      · exact stays_smb hs
      · exact stays_smb hs
    refine Prog.Stays.bind hs hcreate fun _ t ht hsame => ?_
    obtain rfl := hsame
    rintro _ t' hstep
    obtain rfl : t = t' := hstep.symm
    refine ⟨hs, ?_⟩
    change Prog.Stays _ _ _ _ (DocumentCache.get uri >>= fun _ => _) _
    refine Prog.Stays.bind hs (stays_get hs) fun result t' ht' hget => ?_
    obtain ⟨hitem, hsame⟩ := hget
    rw [hsame] at ht' ⊢
    split
    · exact keepsTypes_of_quiet ⟨trivial, fun _ => ⟨trivial, fun _ => trivial⟩⟩ ht'
    · -- nothing is cached at `uri`, so it is not in `N`
      rename_i hnone
      refine Prog.Stays.bind ht' (stays_make ht') fun m t'' ht'' hm => ?_
      obtain ⟨hmuri, hentry, _⟩ := hm
      refine stays_newPut ht'' ?_ (fun hmem => ?_) fun _ _ _ _ _ => trivial
      · rw [hentry]
        cases isDir <;> simp [ShownType, createdEntry]
      · rw [hmuri] at hmem
        exact absurd (hitem.symm.trans hnone) (hnew uri hmem huri)

/-- Only a share is renamed to a URI in `N`. -/
def RenamesShare (N : List Uri) (uri newUri : Uri) (s : AppState) : Prop :=
  newUri ∈ N → ∀ r, s.store.cache uri = some r → (s.store.metadata r).entry.type = .fileShare

/-- **A rename in the cache.** -/
theorem keepsTypes_updateCache {newUri : Uri} (hs : Typed N s)
    (hshare : RenamesShare N u newUri s) : KeepsTypes served N (updateCache u newUri) s := by
  refine Prog.Stays.bind hs (stays_get hs) fun result t _ hget => ?_
  obtain ⟨hitem, rfl⟩ := hget
  split
  · exact trivial
  · rename_i r hr
    have hcached : t.store.cache u = some r := hitem.symm.trans hr
    have hrename : (rename r newUri).Stays (AppState.Step served) (Typed N) (fun _ => True)
        (fun _ t' => (t'.store.metadata r).uri = newUri ∧
          (t'.store.metadata r).entry.type = (t.store.metadata r).entry.type ∧
          t'.store.nextRef = t.store.nextRef) t := by
      -- two fields are written, the URI and the entry's name: the type stays
      rintro _ t₁ h₁
      have ht₁ : Typed N t₁ := typed_of_quiet _ _ _ _ (by trivial) hs h₁
      refine ⟨ht₁, ?_⟩
      rintro _ t₂ h₂
      refine ⟨typed_of_quiet _ _ _ _ (by trivial) ht₁ h₂, ?_⟩
      obtain ⟨_, rfl⟩ := h₁
      obtain ⟨_, rfl⟩ := h₂
      have hwrite (v : FieldValue) (store : Store) :
          (Store.exec (.write r v) store).2.metadata r = v.set (store.metadata r) :=
        Function.update_self ..
      refine ⟨?_, ?_, rfl⟩
      · change ((Store.exec (.write r _) _).2.metadata r).uri = newUri
        rw [hwrite]
        rfl
      · change ((Store.exec (.write r _) (Store.exec (.write r _) _).2).2.metadata r).entry.type = _
        rw [hwrite, hwrite]
        rfl
    refine Prog.Stays.bind hs hrename fun _ t' ht' hobject => ?_
    obtain ⟨huri, htype, hnext⟩ := hobject
    refine Prog.Stays.bind ht' (stays_of_still calm_remove ht') fun _ t'' ht'' hsame => ?_
    -- the entry that was removed comes back at its new URI
    refine (stays_put ht'' ?_ fun hmem => ?_).mono fun _ _ _ => trivial
    · rw [hsame.nextRef, hnext]
      exact hs.cached u r hcached
    · rw [hsame.metadata] at hmem ⊢
      rw [huri] at hmem
      exact htype.trans (hshare hmem r hcached)

/-! ## Listings -/

/-- What is listed at a URI in `N` is a share. -/
def ListsShares (N : List Uri) (uri : Uri) (served : List DirectoryEntry) : Prop :=
  ∀ e ∈ served, ∀ k ∈ N, uri.buildChildUri e = some k → e.type = .fileShare

/-- The children exist, under their URIs, and those at a URI in `N` are
shares. -/
def TypedChildren (N : List Uri) (children : ChildMap) (s : AppState) : Prop :=
  ∀ k c, children.lookup k = some c → c < s.store.nextRef ∧ (s.store.metadata c).uri = k ∧
    (k ∈ N → (s.store.metadata c).entry.type = .fileShare)

theorem TypedChildren.congr {children : ChildMap} (h : TypedChildren N children s)
    (hobjects : ∀ c < s.store.nextRef, c < t.store.nextRef ∧
      (t.store.metadata c).uri = (s.store.metadata c).uri ∧
      (t.store.metadata c).entry.type = (s.store.metadata c).entry.type) :
    TypedChildren N children t := by
  intro k c hc
  obtain ⟨hlt, huri, hshare⟩ := h k c hc
  obtain ⟨hlt', huri', htype⟩ := hobjects c hlt
  exact ⟨hlt', huri'.trans huri, fun hk => htype.trans (hshare hk)⟩

/-- Only what can be shown has a URI. -/
theorem shownType_of_buildChildUri {e : DirectoryEntry} (h : u.buildChildUri e = some k) :
    ShownType e := by
  obtain ⟨type, comment, name⟩ := e
  cases type with
  | workgroup | server | fileShare | dir | file => simp [ShownType]
  | _ => cases h

/-- **The loop over a directory** makes children that are typed. -/
theorem stays_readChildren {dir : SmbDir} {acc : ChildMap} (hs : Typed N s)
    (hr : r < s.store.nextRef) (hlists : ListsShares N (s.store.metadata r).uri served)
    (hacc : TypedChildren N acc s) :
    (readChildren (getUri r) newChild dir n acc).Stays (AppState.Step served) (Typed N)
      (fun _ => True) (fun children t => TypedChildren N children t) s := by
  induction n generalizing s acc with
  | zero => exact trivial
  | succ n ih =>
    rintro answer t ⟨hanswer, ht⟩
    obtain rfl := ht.symm
    refine ⟨hs, ?_⟩
    rcases answer with x | _ | e
    · exact trivial
    · exact hacc
    rintro _ _ ⟨rfl, rfl⟩
    refine ⟨hs, ?_⟩
    refine Prog.Stays.bind (p := Pure.pure (s.store.metadata r).uri) (P := fun uri t =>
      uri = (s.store.metadata r).uri ∧ t = s) hs ⟨rfl, rfl⟩ fun uri t ht hmem => ?_
    obtain ⟨rfl, hsame⟩ := hmem
    rw [hsame]
    cases hk : (s.store.metadata r).uri.buildChildUri e with
    | none => exact ih hs hr hlists hacc
    | some k =>
      rintro now t ht
      obtain rfl := ht.symm
      refine ⟨hs, ?_⟩
      rintro _ _ ⟨rfl, rfl⟩
      have hnew : Typed N ⟨(Store.exec (.new ⟨k, e, none, none, none, none, now⟩) s.store).2,
          s.shares⟩ := typed_new hs (shownType_of_buildChildUri hk)
      refine ⟨hnew, ?_⟩
      have hother {c : Ref} (hc : c < s.store.nextRef) :
          (Store.exec (.new ⟨k, e, none, none, none, none, now⟩) s.store).2.metadata c =
            s.store.metadata c := Function.update_of_ne (Nat.ne_of_lt hc) ..
      -- `r` and the children before this one are other objects than the new one
      refine ih hnew (Nat.lt_succ_of_lt hr) ?_ fun k' c hc => ?_
      · change ListsShares N ((Store.exec (.new ⟨k, e, none, none, none, none, now⟩)
          s.store).2.metadata r).uri served
        rwa [hother hr]
      · by_cases hkk : k' = k
        · subst hkk
          rw [AList.lookup_insert] at hc
          obtain rfl := Option.some.inj hc
          change _ ∧ (Function.update s.store.metadata s.store.nextRef
            ⟨k', e, none, none, none, none, now⟩ s.store.nextRef).uri = k' ∧ (k' ∈ N →
            (Function.update s.store.metadata s.store.nextRef
              ⟨k', e, none, none, none, none, now⟩ s.store.nextRef).entry.type = .fileShare)
          rw [Function.update_self]
          exact ⟨Nat.lt_succ_self _, rfl, fun hmem => hlists e hanswer k' hmem hk⟩
        · rw [AList.lookup_insert_ne hkk] at hc
          obtain ⟨hlt, huri, hshare⟩ := hacc k' c hc
          refine ⟨Nat.lt_succ_of_lt hlt, ?_⟩
          change ((Store.exec (.new ⟨k, e, none, none, none, none, now⟩)
            s.store).2.metadata c).uri = k' ∧ (k' ∈ N → ((Store.exec
              (.new ⟨k, e, none, none, none, none, now⟩) s.store).2.metadata c).entry.type = _)
          rw [hother hlt]
          exact ⟨huri, hshare⟩

/-- The children an object has loaded last are typed. -/
def LoadedTyped (N : List Uri) (r : Ref) (t : AppState) : Prop :=
  ∃ g, (t.store.metadata r).children = some g ∧ TypedChildren N (t.store.maps r g) t

theorem loadedTyped_setChildren {children : ChildMap} {now : ℤ}
    (h : TypedChildren N children s) :
    LoadedTyped N r
      ⟨(Store.exec (.write r (.timeStamp now)) (Store.exec (.setChildren r children) s.store).2).2,
        s.shares⟩ := by
  have hother {c : Ref} (hc : c ≠ r) : ((Store.exec (.write r (.timeStamp now))
      (Store.exec (.setChildren r children) s.store).2).2).metadata c = s.store.metadata c := by
    change Function.update (Function.update s.store.metadata r _) r _ c = _
    rw [Function.update_of_ne hc, Function.update_of_ne hc]
  have hself : ((Store.exec (.write r (.timeStamp now))
      (Store.exec (.setChildren r children) s.store).2).2).metadata r =
      { s.store.metadata r with children := some s.store.nextMap, timeStamp := now } := by
    change Function.update (Function.update s.store.metadata r _) r
      (FieldValue.set _ (Function.update s.store.metadata r _ r)) r = _
    rw [Function.update_self, Function.update_self]
    rfl
  refine ⟨s.store.nextMap, ?_, ?_⟩
  · change ((Store.exec (.write r (.timeStamp now))
      (Store.exec (.setChildren r children) s.store).2).2.metadata r).children = _
    rw [hself]
  · have hmap : ((Store.exec (.write r (.timeStamp now))
        (Store.exec (.setChildren r children) s.store).2).2).maps r s.store.nextMap = children := by
      change Function.update s.store.maps r _ r s.store.nextMap = _
      rw [Function.update_self, Function.update_self]
    change TypedChildren N (((Store.exec (.write r (.timeStamp now))
      (Store.exec (.setChildren r children) s.store).2).2).maps r s.store.nextMap) _
    rw [hmap]
    refine h.congr fun c hlt => ⟨hlt, ?_⟩
    by_cases hc : c = r
    · subst hc
      rw [hself]
      exact ⟨rfl, rfl⟩
    · rw [hother hc]
      exact ⟨rfl, rfl⟩

/-- **`loadChildren`.** -/
theorem stays_loadChildren (hs : Typed N s) (hr : r < s.store.nextRef)
    (hlists : ListsShares N (s.store.metadata r).uri served) :
    (loadChildren n r).Stays (AppState.Step served) (Typed N) (fun _ => True)
      (fun _ t => LoadedTyped N r t) s := by
  refine Prog.Stays.catching hs ?_ fun x t ht => ?_
  · rintro _ _ ⟨rfl, rfl⟩
    refine ⟨hs, ?_⟩
    rintro answer _ ⟨_, rfl⟩
    refine ⟨hs, ?_⟩
    rcases answer with x | dir
    · exact trivial
    refine Prog.Stays.withResource hs ?_ fun t ht => ?_
    -- the map is published when the loop has ended, and the directory closed after it
    · refine Prog.Stays.bind hs (stays_readChildren hs hr hlists nofun) fun children t ht hch => ?_
      rintro _ t₁ h₁
      have ht₁ : Typed N t₁ := typed_of_quiet _ _ _ _ (by trivial) ht h₁
      refine ⟨ht₁, ?_⟩
      rintro now _ rfl
      refine ⟨ht₁, ?_⟩
      rintro _ t₂ h₂
      refine ⟨typed_of_quiet _ _ _ _ (by trivial) ht₁ h₂, ?_⟩
      obtain ⟨_, rfl⟩ := h₁
      obtain ⟨_, rfl⟩ := h₂
      exact loadedTyped_setChildren hch
    · rintro answer _ ⟨_, rfl⟩
      refine ⟨ht, ?_⟩
      rcases answer with x | _
      · exact trivial
      · exact fun _ h => h
  · rintro _ t' h'
    exact ⟨typed_of_quiet _ _ _ _ (by trivial) ht h', trivial⟩

/-- **The children are put into the cache.** -/
theorem keepsTypes_putChildren {children : Option MapId} (hs : Typed N s)
    (hchildren : ∀ g, children = some g → TypedChildren N (s.store.maps r g) s) :
    KeepsTypes served N (putChildren r children) s := by
  cases children with
  | none => exact trivial
  | some g =>
    rintro _ _ ⟨rfl, rfl⟩
    refine ⟨hs, ?_⟩
    rintro ⟨keys, hperm⟩ _ rfl
    refine ⟨hs, ?_⟩
    have hloop : (keys.forM (visit (s.store.maps r g) fun _ child => DocumentCache.put child)).Stays
        (AppState.Step served) (Typed N) (fun _ => True) (fun _ t => SameObjects s t) s := by
      refine Prog.Stays.forM hs .refl fun k _ t ht hsame => ?_
      unfold visit
      split
      · rename_i c hc
        obtain ⟨hlt, huri, hshare⟩ := hchildren g rfl k c hc
        refine (stays_put ht ?_ fun hmem => ?_).mono fun _ t' ht' => hsame.trans ht'
        · rw [hsame.nextRef]
          exact hlt
        · rw [hsame.metadata] at hmem ⊢
          exact hshare (huri ▸ hmem)
      · exact hsame
    exact hloop.mono fun _ _ _ => trivial

/-! ## Tasks -/

theorem keepsTypes_runTask {run : Proc α} {onSucceeded : α → Proc Unit}
    {onFailed : Exn → Proc Unit} {onCancelled : Option α → Proc Unit} {cancelled : Bool}
    (hs : Typed N s)
    (hrun : run.Stays (AppState.Step served) (Typed N) (fun _ => True) P s)
    (hsucceeded : ∀ a t, Typed N t → P a t → KeepsTypes served N (onSucceeded a) t)
    (hfailed : ∀ x t, Typed N t → KeepsTypes served N (onFailed x) t)
    (hcancelled : ∀ a t, Typed N t → P a t → KeepsTypes served N (onCancelled (some a)) t)
    (hnone : ∀ t, Typed N t → KeepsTypes served N (onCancelled none) t) :
    KeepsTypes served N (runTask cancelled run onSucceeded onFailed onCancelled) s := by
  refine Prog.Stays.bind hs hrun.attempt fun answer t ht hP => ?_
  rcases answer with x | a
  · change KeepsTypes served N (if cancelled then onCancelled none else onFailed x) t
    split
    · exact hnone t ht
    · exact hfailed x t ht
  · change KeepsTypes served N (if cancelled then onCancelled (some a) else onSucceeded a) t
    split
    · exact hcancelled a t ht (hP a rfl)
    · exact hsucceeded a t ht (hP a rfl)

/-- **The metadata of a loaded document** is put into the cache at a URI
that is not in `N`. -/
theorem keepsTypes_loadDocumentTask {cancelled : Bool} (hs : Typed N s) (hu : u ∉ N) :
    KeepsTypes served N (loadDocumentTask cancelled u) s := by
  have hput (m : DocumentMetadata) (t : AppState) (ht : Typed N t)
      (hm : m.uri = u ∧ ShownType m.entry ∧ t = s) :
      KeepsTypes served N (do
        let r ← memory (.new m)
        DocumentCache.put r
        notifyChange u) t :=
    stays_newPut ht hm.2.1 (fun hmem => absurd (hm.1 ▸ hmem) hu) fun _ ht' _ _ _ =>
      keepsTypes_of_calm calm_notifyChange ht'
  unfold loadDocumentTask
  refine keepsTypes_runTask hs (stays_fromUri hs) hput (fun x t ht => ?_) ?_ fun _ _ => ?_
  · exact keepsTypes_of_quiet ⟨trivial, fun _ => ⟨trivial, fun _ => trivial⟩⟩ ht
  · exact hput
  · exact trivial

theorem keepsTypes_notifyLoaded (hs : Typed N s) : KeepsTypes served N (notifyLoaded r) s :=
  keepsTypes_of_calm ⟨⟨trivial, trivial⟩, fun _ => calm_notifyChange⟩ hs

theorem keepsTypes_finishLoading {children : Option MapId} (hs : Typed N s)
    (hchildren : ∀ g, children = some g → TypedChildren N (s.store.maps r g) s) :
    KeepsTypes served N (finishLoading r children) s :=
  Prog.Stays.bind hs (keepsTypes_putChildren hs hchildren) fun _ _ ht _ =>
    keepsTypes_notifyLoaded ht

/-- The children an object has loaded last, read again. -/
theorem stays_getChildren (hs : Typed N s) (h : LoadedTyped N r s) :
    (getChildren r).Stays (AppState.Step served) (Typed N) (fun _ => True)
      (fun children t => ∀ g, children = some g → TypedChildren N (t.store.maps r g) t) s := by
  rintro _ _ ⟨rfl, rfl⟩
  refine ⟨hs, fun g hg => ?_⟩
  obtain ⟨g', hg', hchildren⟩ := h
  obtain rfl := Option.some.inj (hg'.symm.trans hg)
  exact hchildren

/-- **The children of a directory**, where what is listed at a URI in `N`
is a share. -/
theorem keepsTypes_loadChildrenTask {cancelled : Bool} (hs : Typed N s)
    (hr : r < s.store.nextRef) (hlists : ListsShares N (s.store.metadata r).uri served) :
    KeepsTypes served N (loadChildrenTask n cancelled r) s := by
  refine keepsTypes_runTask hs (Prog.Stays.bind hs (stays_loadChildren hs hr hlists)
    fun _ t ht hloaded => stays_getChildren ht hloaded)
    (fun children t ht hchildren => keepsTypes_finishLoading ht hchildren)
    (fun _ t ht => keepsTypes_notifyLoaded ht) (fun children t ht hchildren => ?_)
    fun _ _ => trivial
  cases children with
  | none => exact trivial
  | some g => exact keepsTypes_finishLoading ht hchildren

end SambaProvider

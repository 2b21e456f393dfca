import SambaProvider.Document.EntryTypes

/-!
# The types after a call

Each call of the provider keeps the types of the cached documents: those
that mount a share, rename, move or delete a document, and the queries. A
query of the roots throws nothing, since what is cached for a mounted
share has a root id.
-/

namespace SambaProvider

open Lib DocumentMetadata SambaDocumentsProvider

variable {N : List Uri} {served : List DirectoryEntry} {s s' t : AppState} {u k : Uri} {r : Ref}
  {m : DocumentMetadata} {n : ℕ} {X : Exn → Prop} {α β : Type} {P : α → AppState → Prop}
  {p : Proc α} {I : AppState → Prop}

/-! ## Mounts -/

/-- Everything can be shown, and what is cached for a mounted share is a
share's. -/
def AppState.Types (s : AppState) : Prop := Typed s.shares.mounted s

theorem Typed.types (hs : Typed N s) : s.Types :=
  ⟨fun _ => id, hs.shown, hs.cached, fun u hu => hs.share u (hs.mounted u hu)⟩

/-- A share that is mounted is in `N`, and put into the cache before. -/
theorem typed_saveServer {answer : Except Exn Unit} (hs : Typed N s) (hu : u ∈ N)
    (h : AppState.Step served (.shares (.saveServer u)) s answer t) : Typed N t := by
  obtain ⟨hanswer, hstore⟩ := h
  refine ⟨fun v hv => ?_, by rw [hstore]; exact hs.shown, by rw [hstore]; exact hs.cached,
    by rw [hstore]; exact hs.share⟩
  rcases hanswer with ⟨_, heq⟩ | ⟨_, heq⟩
  · exact hs.mounted v (heq ▸ hv)
  · rw [heq] at hv
    rcases List.mem_cons.mp hv with rfl | hv
    · exact hu
    · exact hs.mounted v hv

theorem stays_runMount (hs : Typed N s) (hr : r < s.store.nextRef)
    (hlists : ListsShares N (s.store.metadata r).uri served) (hu : u ∈ N) :
    (runMount n u r).Stays (AppState.Step served) (Typed N) (fun _ => True)
      (fun _ t => LoadedTyped N r t) s := by
  rintro answer t ⟨hshares, hstore⟩
  obtain rfl : s = t := by
    obtain ⟨store, shares⟩ := t
    obtain rfl := hshares
    obtain rfl := hstore
    rfl
  refine ⟨hs, ?_⟩
  rcases answer with x | _
  · exact trivial
  change Prog.Stays _ _ _ _ ((loadChildren n r).catching _ _ >>= fun _ => _) _
  refine Prog.Stays.bind hs (Prog.Stays.catching hs (stays_loadChildren hs hr hlists)
    fun x t ht => ?_) fun _ t ht hloaded => ?_
  · rintro _ t' h'
    exact ⟨typed_of_quiet _ _ _ _ (by trivial) ht h', trivial⟩
  · rintro answer t' h'
    refine ⟨typed_saveServer ht hu h', ?_⟩
    rcases answer with x | _
    · exact trivial
    · obtain ⟨g, hg, hchildren⟩ := hloaded
      obtain ⟨_, hstore⟩ := h'
      refine ⟨g, by rw [hstore]; exact hg, ?_⟩
      rw [hstore]
      exact hchildren.congr fun c hc => by rw [hstore]; exact ⟨hc, rfl, rfl⟩

/-- A share's metadata is put into the cache: its URI may be mounted now. -/
theorem typed_cachePut_cons (hs : Typed N s) (hr : r < s.store.nextRef)
    (htype : (s.store.metadata r).entry.type = .fileShare) :
    Typed (u :: N) ⟨(Store.exec (.cachePut u r) s.store).2, s.shares⟩ := by
  have hput := typed_cachePut (u := u) hs hr fun _ => htype
  refine ⟨fun v hv => List.mem_cons_of_mem u (hs.mounted v hv), hput.shown, hput.cached,
    fun v hv p hp => ?_⟩
  rcases List.mem_cons.mp hv with rfl | hv
  · change Function.update s.store.cache v (some r) v = some p at hp
    rw [Function.update_self] at hp
    obtain rfl := Option.some.inj hp
    exact htype
  · exact hput.share v hv p hp

/-- `MountServerTask`. -/
theorem keepsTypes_mountTask {cancelled : Bool} (hs : Typed N s) (hr : r < s.store.nextRef)
    (hlists : ListsShares N (s.store.metadata r).uri served) (hu : u ∈ N) :
    KeepsTypes served N
      (runTask cancelled (runMount n u r)
        (fun _ => do putChildren r (← getChildren r))
        (fun _ => do DocumentCache.remove (← getUri r))
        fun _ => do
          let _ ← perform (.shares (.unmountServer u))) s := by
  have hunmount {t : AppState} (ht : Typed N t) : KeepsTypes served N (do
      let _ ← perform (.shares (.unmountServer u)) : Proc Unit) t :=
    keepsTypes_of_quiet ⟨trivial, fun _ => trivial⟩ ht
  refine keepsTypes_runTask hs (stays_runMount hs hr hlists hu) (fun _ t ht hloaded => ?_)
    (fun _ t ht => ?_) (fun _ _ ht _ => hunmount ht) fun _ ht => hunmount ht
  · refine Prog.Stays.bind ht (stays_getChildren ht hloaded) fun children t' ht' hchildren => ?_
    exact keepsTypes_putChildren ht' hchildren
  · exact keepsTypes_of_calm ⟨⟨trivial, trivial⟩, fun _ => calm_remove⟩ ht

/-- A mount puts the metadata into the cache, and starts the task: from
then on what is cached for the share is a share's. -/
theorem stays_startMount {cancelled : Bool} (hs : s.Types) (hr : r < s.store.nextRef)
    (huri : (s.store.metadata r).uri = u)
    (htype : (s.store.metadata r).entry.type = .fileShare)
    (hlists : ListsShares (u :: s.shares.mounted) u served) :
    (do
      DocumentCache.put r
      runTask cancelled (runMount n u r)
        (fun _ => do putChildren r (← getChildren r))
        (fun _ => do DocumentCache.remove (← getUri r))
        fun _ => do
          let _ ← perform (.shares (.unmountServer u)) : Proc Unit).Stays
      (AppState.Step served) AppState.Types (fun _ => True) (fun _ _ => True) s := by
  have hput : (DocumentCache.put r).Stays (AppState.Step served) AppState.Types (fun _ => True)
      (fun _ t => Typed (u :: s.shares.mounted) t ∧ SameObjects s t) s :=
    stays_putInto (fun _ => Typed.types) hs (huri ▸ typed_cachePut_cons hs hr htype)
  refine Prog.Stays.bind hs hput fun _ t _ ht => ?_
  -- the share is not saved yet, but what is cached for it is already a share's
  refine Prog.Stays.mono_inv (I := Typed (u :: s.shares.mounted)) (fun _ => Typed.types)
    (keepsTypes_mountTask ht.1 ?_ ?_ List.mem_cons_self)
  · rw [ht.2.nextRef]
    exact hr
  · rw [ht.2.metadata, huri]
    exact hlists

/-- **The mount of a share.** Its metadata is in the cache before the share
is saved. -/
theorem stays_mountServer {cancelled : Bool} {host share : String} (hs : s.Types)
    (hlists : Uri.ofShare host share ∉ s.shares.mounted →
      ListsShares (Uri.ofShare host share :: s.shares.mounted) (Uri.ofShare host share) served) :
    (mountServer n cancelled host share).Stays (AppState.Step served) AppState.Types
      (fun _ => True) (fun _ _ => True) s := by
  refine Prog.Stays.bind hs ((stays_make hs).mono_inv fun _ => Typed.types) fun m t ht hm => ?_
  obtain ⟨huri, hentry, rfl⟩ := hm
  have hshown : ShownType m.entry := by
    rw [hentry]
    simp [ShownType]
  refine Prog.Stays.bind ht ((stays_new ht hshown).mono_inv fun _ => Typed.types)
    fun r t' ht' hr => ?_
  obtain ⟨hlt, hmetadata, hshares⟩ := hr
  refine Prog.Stays.bind ht' ((stays_isShareMounted ht').mono_inv fun _ => Typed.types)
    fun mounted t'' ht'' hmounted => ?_
  obtain ⟨rfl, rfl⟩ := hmounted
  split
  · exact trivial
  · rename_i hmounted
    rw [decide_eq_true_iff, hshares] at hmounted
    refine stays_startMount ht'' hlt ?_ ?_ ?_
    · rw [hmetadata]
      exact huri
    · rw [hmetadata, hentry]
    · rw [hshares]
      exact hlists hmounted

/-! ## Renames and moves -/

theorem stays_notifyChange (hs : Typed N s) :
    (notifyChange u).Stays (AppState.Step served) (Typed N) X (fun _ t => t = s) s :=
  fun _ t ht => ⟨(show t = s from ht) ▸ hs, ht⟩

theorem stays_revokeDocumentPermission (hs : Typed N s) :
    (revokeDocumentPermission u).Stays (AppState.Step served) (Typed N) X (fun _ t => t = s) s :=
  fun _ t ht => ⟨(show t = s from ht) ▸ hs, ht⟩

theorem keepsTypes_renameDocument {displayName : String} (hs : Typed N s)
    (hshare : ∀ v, renameTarget u displayName = some v → RenamesShare N u v s) :
    KeepsTypes served N (renameDocument u displayName) s := by
  refine KeepsTypes.rethrowing hs ?_
  change KeepsTypes served N (if u.buildParentUri.getPathSegments.isEmpty then _ else _) s
  split
  · exact trivial
  rename_i hparent
  rcases hchild : u.buildParentUri.buildNamedChildUri (some displayName) with _ | newUri
  · exact trivial
  have huri : renameTarget u displayName = some newUri := by
    rw [renameTarget, if_neg hparent, hchild]
  refine Prog.Stays.bind hs (stays_smb hs) fun _ t ht hsame => ?_
  rw [hsame] at ht ⊢
  refine Prog.Stays.bind hs (stays_revokeDocumentPermission hs) fun _ t ht hsame => ?_
  rw [hsame] at ht ⊢
  refine Prog.Stays.bind hs (stays_notifyChange hs) fun _ t ht hsame => ?_
  rw [hsame] at ht ⊢
  exact Prog.Stays.bind hs (keepsTypes_updateCache hs (hshare newUri huri)) fun _ _ _ _ => trivial

theorem keepsTypes_moveDocument {targetParentUri : Uri} (hs : Typed N s)
    (hshare : ∀ v, moveTarget u targetParentUri = some v → RenamesShare N u v s) :
    KeepsTypes served N (moveDocument u targetParentUri) s := by
  refine KeepsTypes.rethrowing hs ?_
  split
  · exact trivial
  rename_i hservice
  split
  · exact trivial
  rename_i hshares
  rcases hchild : targetParentUri.buildNamedChildUri u.getLastPathSegment with _ | targetUri
  · exact trivial
  have huri : moveTarget u targetParentUri = some targetUri := by
    rw [moveTarget, if_neg hservice, if_neg hshares, hchild]
  refine Prog.Stays.bind hs (stays_smb hs) fun _ t ht hsame => ?_
  rw [hsame] at ht ⊢
  refine Prog.Stays.bind hs (stays_revokeDocumentPermission hs) fun _ t ht hsame => ?_
  rw [hsame] at ht ⊢
  refine Prog.Stays.bind hs (stays_notifyChange hs) fun _ t ht hsame => ?_
  rw [hsame] at ht ⊢
  refine Prog.Stays.bind hs (stays_notifyChange hs) fun _ t ht hsame => ?_
  rw [hsame] at ht ⊢
  exact Prog.Stays.bind hs (keepsTypes_updateCache hs (hshare targetUri huri))
    fun _ _ _ _ => trivial

/-! ## Deletions and stats -/

theorem calm_isDirectory {entry : DirectoryEntry} :
    (isDirectory entry).Every Effect.Calm fun _ => True :=
  Prog.every_bind (Prog.every_ofExcept fun _ _ => trivial) fun _ => trivial

theorem calm_revokeDocumentPermission : (revokeDocumentPermission u).Every Effect.Calm X :=
  ⟨⟨trivial, trivial⟩, fun _ => trivial⟩

theorem calm_forValues {β : Type} {map : AList fun _ : Uri => β} {body : Uri → β → Proc Unit}
    (hbody : ∀ key v, (body key v).Every Effect.Calm X) :
    (forValues map body).Every Effect.Calm X := by
  refine ⟨⟨trivial, trivial⟩, fun order => Prog.every_forM fun key _ => ?_⟩
  unfold visit
  split
  · exact hbody _ _
  · exact trivial

theorem calm_loadLocalChildren : (loadLocalChildren n u).Every Effect.Calm fun _ => True := by
  refine Prog.every_bind calm_smb fun dir => Prog.every_withResource ?_ calm_smb
  generalize (∅ : AList fun _ : Uri => DirectoryEntry) = children
  induction n generalizing children with
  | zero => exact trivial
  | succ n ih =>
    refine Prog.every_bind calm_smb fun answer => ?_
    cases answer with
    | none => exact trivial
    | some entry =>
      refine Prog.every_bind (p := Pure.pure u) trivial fun uri => ?_
      cases uri.buildChildUri entry with
      | none => exact ih children
      | some childUri => exact ih _

theorem calm_deleteFile : (deleteFile u).Every Effect.Calm fun _ => True :=
  Prog.every_bind calm_smb fun _ => Prog.every_bind calm_remove fun _ =>
    calm_revokeDocumentPermission

theorem calm_recursiveDeleteFolder :
    (recursiveDeleteFolder n u).Every Effect.Calm fun _ => True := by
  induction n generalizing u with
  | zero => exact trivial
  | succ n ih =>
    refine Prog.every_bind calm_loadLocalChildren fun children => ?_
    refine Prog.every_bind (calm_forValues fun childUri entry => ?_) fun _ => ?_
    · refine Prog.every_bind calm_isDirectory fun isDir => ?_
      split
      · exact ih
      · exact calm_deleteFile
    · exact Prog.every_bind calm_smb fun _ => Prog.every_bind calm_remove fun _ =>
        calm_revokeDocumentPermission

theorem calm_deleteDocument : (deleteDocument n u).Every Effect.Calm fun _ => True := by
  refine Prog.every_catching (Prog.every_bind calm_fromUri fun metadata => ?_) fun x => ?_
  · refine Prog.every_bind ?_ fun _ => calm_notifyChange
    unfold deleteTree
    refine Prog.every_bind calm_isDirectory fun isDir => ?_
    split
    · exact calm_recursiveDeleteFolder
    · exact calm_deleteFile
  · split
    · exact Prog.every_bind calm_remove fun _ => calm_notifyChange
    · exact trivial

theorem quiet_perform {e : Effect} (he : e.Quiet) : (perform e : Proc _).Every Effect.Quiet X :=
  ⟨he, fun _ => trivial⟩

theorem quiet_memory {m : Memory} (hm : (Effect.memory m).Quiet) :
    (memory m).Every Effect.Quiet X := quiet_perform hm

theorem quiet_loadStat : (DocumentMetadata.loadStat r).Every Effect.Quiet fun _ => True := by
  refine Prog.every_catching ?_ fun x => ⟨trivial, fun _ => trivial⟩
  refine Prog.every_bind ⟨trivial, fun _ => trivial⟩ fun uri => ?_
  exact Prog.every_bind (quiet_of_calm calm_smb) fun stat =>
    ⟨trivial, fun _ => ⟨trivial, fun _ => ⟨trivial, fun _ => trivial⟩⟩⟩

theorem quiet_loadStats {cancelled : Uri → Bool} {docs : ChildMap} {keys : List Uri} :
    (loadStats cancelled docs keys).Every Effect.Quiet fun _ => True := by
  induction keys with
  | nil => exact trivial
  | cons key keys ih =>
    unfold loadStats
    split
    · exact ih
    · refine Prog.every_bind ?_ fun returns => ?_
      · exact Prog.every_catching (Prog.every_bind quiet_loadStat fun _ => trivial)
          fun _ => trivial
      · split
        · exact trivial
        · exact ih

theorem quiet_loadStatTask {cancelled : Uri → Bool} {docs : ChildMap} :
    (loadStatTask cancelled docs u).Every Effect.Quiet fun _ => True :=
  Prog.every_bind (quiet_perform trivial) fun _ =>
    Prog.every_bind quiet_loadStats fun _ => quiet_perform trivial

/-! ## Folders -/

theorem quiet_selectChild {child : Ref} {docs : ChildMap} :
    (selectChild child docs).Every Effect.Quiet fun _ => True := by
  refine Prog.every_bind (quiet_memory trivial) fun metadata => ?_
  refine Prog.every_bind (Prog.every_ofExcept fun _ _ => trivial) fun needs => ?_
  split
  · have hfailed : (hasLoadingStatFailed child).Every Effect.Quiet fun _ => True :=
      Prog.every_bind (quiet_memory trivial) fun _ =>
        Prog.every_bind (quiet_memory trivial) fun _ => trivial
    refine Prog.every_bind hfailed fun failed => ?_
    split
    · exact trivial
    · exact Prog.every_bind ⟨trivial, fun _ => trivial⟩ fun _ => trivial
  · exact trivial

theorem quiet_childRows {projection : Option (List Column)} {children docs : ChildMap}
    {keys : List Uri} {rows : List (List Cell)} :
    (childRows projection children keys docs rows).Every Effect.Quiet fun _ => True := by
  induction keys generalizing docs rows with
  | nil => exact trivial
  | cons key keys ih =>
    unfold childRows
    split
    · exact ih
    · exact Prog.every_bind quiet_selectChild fun _ =>
        Prog.every_bind (quiet_of_calm calm_documentRow) fun _ => ih

theorem quiet_queryFolder {projection : Option (List Column)} {expired : Bool} :
    (queryFolder u projection expired r).Every Effect.Quiet fun _ => True := by
  refine Prog.every_bind (quiet_memory trivial) fun metadata => ?_
  refine Prog.every_bind (quiet_of_calm calm_isDirectory) fun isDir => ?_
  split
  · have hthrow : (throwLastChildUpdateExceptionIfAny r).Every Effect.Quiet fun _ => True := by
      refine Prog.every_bind (quiet_memory trivial) fun metadata => ?_
      split
      · exact trivial
      · exact Prog.every_bind (quiet_memory trivial) fun _ => trivial
    refine Prog.every_bind hthrow fun _ => ?_
    refine Prog.every_bind ⟨trivial, fun _ => trivial⟩ fun children => ?_
    cases children with
    | none => exact trivial
    | some g =>
      refine Prog.every_bind (quiet_memory trivial) fun children => ?_
      refine Prog.every_bind (quiet_perform trivial) fun order => ?_
      refine Prog.every_bind quiet_childRows fun result => ?_
      obtain ⟨docs, rows⟩ := result
      change Prog.Every _ _ (if expired then _ else if docs.keys = [] then _ else _)
      split
      · exact trivial
      split
      · exact trivial
      · exact trivial
  · exact trivial

/-- What `queryChildDocuments` does once a server is cached. -/
theorem quiet_queryCached {projection : Option (List Column)} :
    (do
      match ← DocumentCache.get u with
      | .miss =>
        DocumentCache.throwLastExceptionIfAny u
        return ⟨[], true, none, some (.loadDocument u)⟩
      | .hit r => queryFolder u projection false r
      | .expired r => queryFolder u projection true r : Proc DocumentCursor).Every Effect.Quiet
      fun _ => True := by
  refine Prog.every_bind (quiet_of_calm calm_get) fun result => ?_
  cases result with
  | miss =>
    refine Prog.every_bind (Prog.every_bind (quiet_memory trivial) fun found => ?_) fun _ => trivial
    cases found with
    | none => exact trivial
    | some x => exact Prog.every_bind (quiet_memory trivial) fun _ => trivial
  | hit r => exact quiet_queryFolder
  | expired r => exact quiet_queryFolder

/-- A server is put into the cache, unless there is something at its URI. -/
theorem keepsTypes_queryChildDocuments {projection : Option (List Column)} (hs : Typed N s)
    (hnew : isServerUri u = .ok true → u ∈ N → s.store.cache u ≠ none) :
    KeepsTypes served N (queryChildDocuments u projection) s := by
  have hserver : KeepsTypes served N (cacheServer u) s := by
    unfold cacheServer
    cases hisServer : isServerUri u with
    | error x => exact trivial
    | ok isServer =>
      cases isServer with
      | false => exact trivial
      | true =>
        change Prog.Stays _ _ _ _ (DocumentCache.get u >>= fun _ => _) _
        refine Prog.Stays.bind hs (stays_get hs) fun result t _ hget => ?_
        obtain ⟨hitem, rfl⟩ := hget
        split
        · rename_i hnone
          refine Prog.Stays.bind hs (stays_make hs) fun m t' ht' hm => ?_
          obtain ⟨huri, hentry, rfl⟩ := hm
          have hshown : ShownType m.entry := by
            rw [hentry]
            simp [ShownType]
          refine Prog.Stays.bind hs (stays_new hs hshown) fun r t ht hr => ?_
          obtain ⟨hlt, hmetadata, _⟩ := hr
          refine (stays_put ht hlt fun hmem => ?_).mono fun _ _ _ => trivial
          rw [hmetadata, huri] at hmem
          exact absurd (hitem.symm.trans hnone) (hnew hisServer hmem)
        · exact trivial
  refine KeepsTypes.rethrowing hs (Prog.Stays.catching hs ?_ fun _ _ _ => trivial)
  exact Prog.Stays.bind hs hserver fun _ t ht _ => keepsTypes_of_quiet quiet_queryCached ht

/-- The loop over the saved shares. -/
theorem stays_rootRows {debug : Bool} {objects : Ref → String} {uris : List Uri}
    {rows : List RootRow} (hs : Typed N s) (hN : s.shares.mounted = N) :
    (rootRows debug objects uris rows).Stays (AppState.Step served) (Typed N) (fun _ => False)
      (fun _ _ => True) s := by
  induction uris generalizing rows s with
  | nil => exact trivial
  | cons uri uris ih =>
    refine Prog.Stays.bind hs (stays_isShareMounted hs) fun mounted t ht hm => ?_
    obtain ⟨rfl, rfl⟩ := hm
    split
    · rename_i hmounted
      have hu : uri ∈ N := hN ▸ of_decide_eq_true hmounted
      -- The row of a mounted share, from the cache or new.
      have hrow (r : Ref) (t' : AppState) (ht' : Typed N t') (hshares : t'.shares = t.shares)
          (htype : (t'.store.metadata r).entry.type = .fileShare) :
          (do
            let metadata ← memory (.read r)
            let rootId ← Prog.ofExcept (toRootId debug (objects r) metadata)
            rootRows debug objects uris (rows ++ [⟨rootId, uri.toString, metadata.entry.name⟩]) :
            Proc (List RootRow)).Stays (AppState.Step served) (Typed N) (fun _ => False)
            (fun _ _ => True) t' := by
        rintro _ _ ⟨rfl, rfl⟩
        refine ⟨ht', ?_⟩
        have hroot : toRootId debug (objects r) (t'.store.metadata r) =
            .ok (t'.store.metadata r).uri.toString := by
          simp [toRootId, isFileShare, htype]
        change Prog.Stays _ _ _ _
          (Prog.ofExcept (toRootId debug (objects r) (t'.store.metadata r)) >>= _) _
        rw [hroot]
        exact ih ht' (hshares ▸ hN)
      refine Prog.Stays.bind hs (stays_get hs) fun result t' _ hget => ?_
      obtain ⟨hitem, rfl⟩ := hget
      split
      · refine Prog.Stays.bind hs (stays_make hs) fun m t _ hm => ?_
        obtain ⟨_, hentry, rfl⟩ := hm
        have htype : m.entry.type = .fileShare := by rw [hentry]
        refine stays_newPut hs (by simp [ShownType, htype]) (fun _ => htype)
          fun t' ht' hshares hentry' _ => ?_
        exact hrow _ t' ht' hshares (by rw [hentry']; exact htype)
      · rename_i r hr
        exact hrow r _ hs rfl (hs.share uri hu r (hitem.symm.trans hr))
    · exact ih hs hN

/-- **The roots.** What is cached for a mounted share has a root id. -/
theorem stays_queryRoots {debug : Bool} {objects : Ref → String} (hs : s.Types) :
    (queryRoots debug objects).Stays (AppState.Step served) (Typed s.shares.mounted) (fun _ => False)
      (fun _ _ => True) s := by
  rintro uris ⟨store, shares⟩ ⟨⟨_, hshares⟩, hstore⟩
  obtain rfl : shares = s.shares := hshares
  obtain rfl : store = s.store := hstore
  exact ⟨hs, stays_rootRows hs rfl⟩

end SambaProvider

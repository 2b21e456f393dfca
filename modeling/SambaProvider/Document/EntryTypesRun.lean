import SambaProvider.Document.EntryTypesCalls
import SambaProvider.Lib.Run

/-!
# The types in every run

The provider and the saved shares, over any sequence of starts, calls and
tasks, and what the server lists may be of any type. That the metadata at
the URI of a mounted share is a share's depends on who has put it there:
`LoadDocumentTask` takes the type from the server, for which a share is a
directory.
-/

namespace SambaProvider

open Lib DocumentMetadata SambaDocumentsProvider

variable {N : List Uri} {served : List DirectoryEntry} {s s' t : AppState} {u k : Uri} {r : Ref}
  {m : DocumentMetadata} {n : ℕ} {X : Exn → Prop} {α β : Type} {P : α → AppState → Prop}
  {p : Proc α} {I : AppState → Prop}

/-! ## What is shown -/

/-- Everything can be shown. -/
def AllShown (s : AppState) : Prop := ∀ r, ShownType (s.store.metadata r).entry

/-- The effects that allocate only what can be shown. -/
def Effect.Shown : Effect → Prop
  | .memory (.new m) => ShownType m.entry
  | _ => True

theorem allShown_of_shown (e : Effect) (s : AppState) (a : e.Answer) (t : AppState)
    (he : e.Shown) (hs : AllShown s) (h : AppState.Step served e s a t) : AllShown t := by
  cases e with
  | memory m =>
    obtain ⟨_, rfl⟩ := h
    intro r
    by_cases hm : ∃ d, m = .new d
    · obtain ⟨d, rfl⟩ := hm
      change ShownType (Function.update s.store.metadata s.store.nextRef d r).entry
      rw [Function.update_apply]
      split
      · exact he
      · exact hs r
    -- whatever else is done, no object changes its type
    · exact (shownType_congr ((Store.exec_type fun d hd => hm ⟨d, hd⟩).1 r)).mpr (hs r)
  | shares c =>
    intro r
    rw [h.2]
    exact hs r
  | smb c =>
    obtain ⟨_, rfl⟩ := h
    exact hs
  | _ =>
    obtain rfl := h
    exact hs

theorem shown_of_quiet (e : Effect) (he : e.Quiet) : e.Shown := by
  cases e with
  | memory m =>
    cases m with
    | new => exact he.elim
    | _ => exact trivial
  | _ => exact trivial

theorem shown_put : (DocumentCache.put r).Every Effect.Shown X := by
  refine ⟨trivial, fun _ => ⟨trivial, fun _ => ⟨trivial, fun _ => ⟨trivial, fun found => ?_⟩⟩⟩⟩
  cases found with
  | none => exact trivial
  | some parent => exact (quiet_of_calm calm_putChild).mono shown_of_quiet

theorem shown_queryChildDocuments {projection : Option (List Column)} :
    (queryChildDocuments u projection).Every Effect.Shown fun _ => True := by
  have hserver : (cacheServer u).Every Effect.Shown fun _ => True := by
    refine Prog.every_bind (Prog.every_ofExcept fun _ _ => trivial) fun isServer => ?_
    split
    · refine Prog.every_bind ((quiet_of_calm calm_get).mono shown_of_quiet) fun result => ?_
      split
      · refine ⟨trivial, fun now => ⟨?_, fun r => shown_put⟩⟩
        simp [Effect.Shown, ShownType]
      · exact trivial
    · exact trivial
  refine Prog.every_catching (Prog.every_catching ?_ fun _ => trivial) fun _ => trivial
  exact Prog.every_bind hserver fun _ => quiet_queryCached.mono shown_of_quiet

/-! ## Sessions -/

/-- None of the three methods throws for an object that is there. -/
def NeverTrips (s : AppState) : Prop :=
  ∀ r, (∃ mime, getMimeType (s.store.metadata r).entry = .ok mime) ∧
    (∃ needs, needsStat (s.store.metadata r) = .ok needs) ∧
    ∃ can, canCreateDocument (s.store.metadata r).entry = .ok can

theorem AllShown.neverTrips (hs : AllShown s) : NeverTrips s := by
  intro r
  refine ⟨?_, ⟨_, needsStat_eq (hs r)⟩, ?_⟩
  all_goals
    have h := hs r
    simp only [ShownType, List.mem_cons, List.not_mem_nil, or_false] at h
    first | unfold getMimeType | unfold canCreateDocument
    rcases h with h | h | h | h | h
    all_goals
      rw [h]
      exact ⟨_, rfl⟩

/-- **Entry types never trip the provider**: what is cached can be shown,
and is a share's where a share is mounted; the queries pass only through
states in which the three methods answer, and `queryRoots` throws
nothing. -/
structure EntryTypesSafe (s : AppState) : Prop where
  shown : ∀ u r, s.store.cache u = some r → ShownType (s.store.metadata r).entry
  share : ∀ u ∈ s.shares.mounted, ∀ r, s.store.cache u = some r →
    (s.store.metadata r).entry.type = .fileShare
  neverTrips : NeverTrips s
  queryRoots : ∀ debug objects served, (queryRoots debug objects).Stays (AppState.Step served)
    NeverTrips (fun _ => False) (fun _ _ => True) s
  queryDocument : ∀ uri projection served, (queryDocument uri projection).Stays
    (AppState.Step served) NeverTrips (fun _ => True) (fun _ _ => True) s
  queryChildDocuments : ∀ uri projection served, (queryChildDocuments uri projection).Stays
    (AppState.Step served) NeverTrips (fun _ => True) (fun _ _ => True) s

theorem Typed.neverTrips (hs : Typed N s) : NeverTrips s :=
  AllShown.neverTrips (s := s) hs.shown

theorem AppState.Types.entryTypesSafe (hs : s.Types) : EntryTypesSafe s where
  shown _ r _ := hs.shown r
  share := hs.share
  neverTrips := Typed.neverTrips hs
  queryRoots _ _ _ := (stays_queryRoots hs).mono_inv fun _ => Typed.neverTrips
  queryDocument _ _ _ := Prog.Stays.mono_inv (I := Typed s.shares.mounted)
    (fun _ => Typed.neverTrips) (keepsTypes_queryDocument hs)
  queryChildDocuments _ _ _ := Prog.Stays.mono_inv (fun _ => AllShown.neverTrips)
    (shown_queryChildDocuments.stays (J := fun _ => True)
      (fun e s a t he hs => allShown_of_shown e s a t he hs) (fun _ _ _ _ _ _ _ _ => trivial)
      hs.shown trivial)

/-- The condition: an operation puts metadata of another type into the
cache at no URI of a mounted share. A listing depends on what is listed
there. -/
def Operation.KeepsShares (served : List DirectoryEntry) (s : AppState) : Operation → Prop
  | .createDocument parentUri isDir displayName => ∀ k ∈ s.shares.mounted,
    parentUri.buildChildUri (createdEntry isDir displayName) = some k → s.store.cache k ≠ none
  | .renameDocument uri displayName => ∀ v, renameTarget uri displayName = some v →
    RenamesShare s.shares.mounted uri v s
  | .moveDocument uri targetParentUri => ∀ v, moveTarget uri targetParentUri = some v →
    RenamesShare s.shares.mounted uri v s
  | .loadDocument _ uri => uri ∉ s.shares.mounted
  | .loadChildren _ r => ListsShares s.shares.mounted (s.store.metadata r).uri served
  | .mountServer _ host share => Uri.ofShare host share ∉ s.shares.mounted →
    ListsShares (Uri.ofShare host share :: s.shares.mounted) (Uri.ofShare host share) served
  | .queryDocument _ _ | .deleteDocument _ => True

/-- The condition on a step. -/
def KeepsShares (s : AppState) : AppAction → Prop
  | .call _ served (.operation o) => o.KeepsShares served s
  | .call _ _ (.queryChildDocuments uri _) =>
    isServerUri uri = .ok true → uri ∈ s.shares.mounted → s.store.cache uri ≠ none
  | .start _ | .call _ _ (.queryRoots _ _) | .call _ _ (.loadStat _ _ _)
  | .call _ _ (.unmount _) => True

theorem types_start {shares : ShareTable} : (AppState.start shares).Types :=
  ⟨fun _ => id, fun _ => by simp [ShownType, AppState.start, emptyStore, Store.initial], nofun,
    fun _ _ => nofun⟩

theorem KeepsTypes.types (h : KeepsTypes served s.shares.mounted p s) :
    p.Stays (AppState.Step served) AppState.Types (fun _ => True) (fun _ _ => True) s :=
  Prog.Stays.mono_inv (I := Typed s.shares.mounted) (fun _ => Typed.types) h

/-- **One operation.** -/
theorem stays_operation {o : Operation} (hs : s.Types)
    (hvalid : (ProviderCall.operation o).Valid s) (ho : o.KeepsShares served s) :
    (o.body n).Stays (AppState.Step served) AppState.Types (fun _ => True) (fun _ _ => True) s := by
  cases o with
  | queryDocument uri projection =>
    exact ((keepsTypes_queryDocument hs).discard hs fun _ => rfl).types
  | createDocument parentUri isDir displayName =>
    exact ((keepsTypes_createDocument hs ho).discard hs fun _ => rfl).types
  | renameDocument uri displayName =>
    exact ((keepsTypes_renameDocument hs ho).discard hs fun _ => rfl).types
  | moveDocument uri targetParentUri =>
    exact ((keepsTypes_moveDocument hs ho).discard hs fun _ => rfl).types
  | deleteDocument uri => exact (keepsTypes_of_calm calm_deleteDocument hs).types
  | loadDocument cancelled uri => exact (keepsTypes_loadDocumentTask hs ho).types
  | loadChildren cancelled r => exact (keepsTypes_loadChildrenTask hs hvalid ho).types
  | mountServer cancelled host share => exact stays_mountServer hs ho

/-- **One step.** -/
theorem types_next {a : AppAction} (hs : s.Types) (ha : KeepsShares s a) (h : s.Next a t) :
    t.Types := by
  cases a with
  | start shares =>
    obtain rfl := h
    exact types_start
  | call fuel served c =>
    obtain ⟨hvalid, res, hends⟩ := h
    have hstays : (c.body fuel).Stays (AppState.Step served) AppState.Types (fun _ => True)
        (fun _ _ => True) s := by
      cases c with
      | operation o => exact stays_operation hs hvalid ha
      | queryRoots debug objects =>
        have hroots : KeepsTypes served s.shares.mounted (queryRoots debug objects) s :=
          (stays_queryRoots hs).mono_throws fun _ hx => hx.elim
        exact (hroots.discard hs fun _ => rfl).types
      | queryChildDocuments uri projection =>
        exact ((keepsTypes_queryChildDocuments hs ha).discard hs fun _ => rfl).types
      | loadStat cancelled docs notifyUri =>
        exact (keepsTypes_of_quiet quiet_loadStatTask hs).types
      | unmount uri =>
        have hquiet : (perform (.shares (.unmountServer uri))).Every Effect.Quiet fun _ => True :=
          quiet_perform trivial
        exact ((keepsTypes_of_quiet hquiet hs).discard hs fun _ => rfl).types
    exact (Prog.Stays.of_ends hs hstays hends).1

/-- **Entry types never trip the provider** in a run whose steps all meet
the condition. -/
theorem entryTypesSafe_of_reached (h : Reached AppState.Next KeepsShares AppState.Init s) :
    EntryTypesSafe s := by
  have hs : s.Types := h.inv
    (fun _ hinit => by
      obtain ⟨shares, rfl⟩ := hinit
      exact types_start)
    fun _ _ _ hs ha hstep => types_next hs ha hstep
  exact hs.entryTypesSafe

/-! ## Two sessions -/

/-- Nothing fails: a document is a directory, and a directory lists an entry
as long as one object has been made. -/
def AppState.exec (listed : Option DirectoryEntry) :
    (e : Effect) → AppState → e.Answer × AppState
  | .memory m, s => ((Store.exec m s.store).1, { s with store := (Store.exec m s.store).2 })
  | .smb (.stat _), s => (.ok ⟨0o040755, 0, 0⟩, s)
  | .smb (.openDir _), s => (.ok 0, s)
  | .smb (.readDir _), s => (.ok (if s.store.nextRef = 1 then listed else none), s)
  | .smb (.closeDir _), s | .smb (.createFile _), s | .smb (.mkdir _), s | .smb (.rename _ _), s
  | .smb (.unlink _), s | .smb (.rmdir _), s => (.ok (), s)
  | .shares .iterator, s => (s.shares.saved, s)
  | .shares (.containsShare u), s => (decide (u ∈ s.shares.saved), s)
  | .shares (.isShareMounted u), s => (decide (u ∈ s.shares.mounted), s)
  | .shares (.unmountServer u), s => (true, { s with shares := s.shares.remove u })
  | .shares (.removeCredential _), s => ((), s)
  | .shares (.beginMount _), s => (.ok (), s)
  | .shares (.saveServer u), s => (.ok (), { s with shares := s.shares.save u })
  | .currentTimeMillis, s => ((0 : ℤ), s)
  | .hashOrder keys, s => (⟨keys, .refl keys⟩, s)
  | .notifyChange _, s | .revokeDocumentPermission _, s => ((), s)

theorem AppState.step_exec {listed : Option DirectoryEntry} (e : Effect) (s : AppState) :
    AppState.Step listed.toList e s (AppState.exec listed e s).1 (AppState.exec listed e s).2 := by
  cases e with
  | memory m => exact ⟨rfl, rfl⟩
  | smb c =>
    cases c with
    | readDir d =>
      refine ⟨?_, rfl⟩
      change SmbCall.Served listed.toList (.readDir d)
        (.ok (if s.store.nextRef = 1 then listed else none))
      split
      · cases listed with
        | none => exact trivial
        | some entry => exact List.mem_singleton_self entry
      · exact trivial
    | _ => exact ⟨trivial, rfl⟩
  | shares c =>
    cases c with
    | iterator => exact ⟨⟨fun _ => Iff.rfl, rfl⟩, rfl⟩
    | containsShare | isShareMounted => exact ⟨⟨rfl, rfl⟩, rfl⟩
    | saveServer | unmountServer => exact ⟨.inr ⟨rfl, rfl⟩, rfl⟩
    | beginMount | removeCredential => exact ⟨rfl, rfl⟩
  | _ => exact rfl

/-- The state after a call. -/
def AppState.after (listed : Option DirectoryEntry) (s : AppState) (c : ProviderCall) : AppState :=
  ((c.body 2).run (AppState.exec listed) s).2

theorem AppState.next_exec {listed : Option DirectoryEntry} {c : ProviderCall} (hc : c.Valid s) :
    s.Next (.call 2 listed.toList c) (s.after listed c) :=
  ⟨hc, _, Prog.ends_run AppState.step_exec⟩

/-- A share, which is mounted when the application starts. -/
def homes : Uri := (Uri.smbBaseUri.withAuthority (some "nas")).appendPath "homes"

def homesStarted : AppState := .start ⟨[homes], [homes], fun _ => id⟩

/-- What `Object.toString` gives, with the number of an object for its
hash. -/
def metadataAt (r : Ref) : String :=
  "com.evideo.sambaprovider.document.DocumentMetadata@" ++ toString r

/-- The roots are asked for first. -/
def homesRooted : AppState := homesStarted.after none (.queryRoots true metadataAt)

/-- A file of the share. -/
def fileOfHomes : DirectoryEntry := ⟨.file, "", some "b"⟩

/-- The share is listed, and its file is renamed. -/
def homesRenamed : AppState :=
  (homesRooted.after (some fileOfHomes) (.operation (.loadChildren false 0))).after none
    (.operation (.renameDocument (homes.appendPath "b") "c"))

/-- The children are asked for first, and the document is loaded for
them. -/
def homesLoaded : AppState :=
  (homesStarted.after none (.queryChildDocuments homes none)).after none
    (.operation (.loadDocument false homes))

theorem entryTypesSafe_homesRenamed :
    homesRenamed.store.cache homes = some 0 ∧
      homesRenamed.store.cache (homes.appendPath "c") = some 1 ∧
      homesRenamed.store.cache (homes.appendPath "b") = none ∧ EntryTypesSafe homesRenamed := by
  have hvalid : (ProviderCall.operation (.loadChildren false 0)).Valid homesRooted := by
    change 0 < homesRooted.store.nextRef
    decide
  have hlists : KeepsShares homesRooted
      (.call 2 [fileOfHomes] (.operation (.loadChildren false 0))) := by
    change ∀ e ∈ [fileOfHomes], ∀ k ∈ [homes], homes.buildChildUri e = some k →
      e.type = .fileShare
    decide
  have hrenames : KeepsShares (homesRooted.after (some fileOfHomes)
      (.operation (.loadChildren false 0)))
      (.call 2 [] (.operation (.renameDocument (homes.appendPath "b") "c"))) := by
    intro v hv hmem
    have htarget : renameTarget (homes.appendPath "b") "c" = some (homes.appendPath "c") := by
      decide
    cases htarget.symm.trans hv
    exact absurd hmem (by decide)
  have hstart : Reached AppState.Next KeepsShares AppState.Init homesStarted := .start ⟨_, rfl⟩
  have hroots := hstart.next (a := .call 2 [] (.queryRoots true metadataAt))
    (@AppState.next_exec _ none _ (by trivial)) (by trivial)
  have hlisted := hroots.next (@AppState.next_exec _ (some fileOfHomes) _ hvalid) hlists
  have hrenamed := hlisted.next (@AppState.next_exec _ none _ (by trivial)) hrenames
  exact ⟨by decide, by decide, by decide, entryTypesSafe_of_reached hrenamed⟩

/-- **A mounted share is a directory on its server**: `LoadDocumentTask`
caches it as one, and `toRootId` throws. -/
theorem not_entryTypesSafe_homesLoaded :
    Reached AppState.Next (fun _ _ => True) AppState.Init homesLoaded ∧
      homes ∈ homesLoaded.shares.mounted ∧ ¬ EntryTypesSafe homesLoaded ∧
      ∃ t, (queryRoots true metadataAt).Ends (AppState.Step []) homesLoaded
        (.threw ⟨.runtimeException, "com.evideo.sambaprovider.document.DocumentMetadata@0" ++
          " is not a file share."⟩) t := by
  have hrun : Reached AppState.Next (fun _ _ => True) AppState.Init homesStarted :=
    .start ⟨_, rfl⟩
  have hrun := hrun.next (a := .call 2 [] (.queryChildDocuments homes none))
    (@AppState.next_exec _ none _ (by trivial)) (by trivial)
  have hrun := hrun.next (a := .call 2 [] (.operation (.loadDocument false homes)))
    (@AppState.next_exec _ none _ (by trivial)) (by trivial)
  have hroots : ((queryRoots true metadataAt).run (AppState.exec none) homesLoaded).1 =
      .threw ⟨.runtimeException, "com.evideo.sambaprovider.document.DocumentMetadata@0" ++
        " is not a file share."⟩ := by decide
  refine ⟨hrun, by decide, fun h => ?_, _,
    hroots ▸ Prog.ends_run (@AppState.step_exec none)⟩
  exact absurd (h.share homes (by decide) 0 (by decide)) (by decide)

end SambaProvider

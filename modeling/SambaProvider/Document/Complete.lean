import Mathlib.Data.Fin.Basic
import SambaProvider.Document.Identity
import SambaProvider.Document.Metadata
import SambaProvider.Native.Directory

/-!
# Complete listings

`loadChildren` should return exactly when it has read all of a directory,
and then have one child for each entry; and leave its children as they
were otherwise. It runs here against the library, through all the layers
between them. Two failures break it: that of `smbc_readdir`, which is
taken for the end of the directory, and that of `smbc_closedir`, which is
thrown when the children have been replaced already.
-/

namespace SambaProvider

open Lib DocumentMetadata

/-! ## The run against the library -/

/-- The memory, the calls of `smbc_readdir` made so far, and the readings
of the clock. -/
structure ListingRun where
  store : Store
  reads : ℕ
  ticks : ℕ

namespace Listing

/-- The directory object of a listing. -/
def dir (L : Listing) (facade : NativeSambaFacade) : SambaDir :=
  ⟨facade.mNativeHandler, L.smbc_opendir⟩

/-- The effects of `loadChildren`; those it does not have are refused, or
do nothing. -/
def exec (L : Listing) (facade : NativeSambaFacade) (clock : ℕ → ℤ) :
    (e : Effect) → ListingRun → e.Answer × ListingRun
  | .smb (.openDir u), s => (openDirClient facade L u.toString, s)
  | .smb (.readDir _), s =>
    (readDirClient (L.dir facade) L s.reads, { s with reads := s.reads + 1 })
  | .smb (.closeDir _), s => (closeDirClient (L.dir facade) L, s)
  | .smb (.stat _), s | .smb (.createFile _), s | .smb (.mkdir _), s | .smb (.rename _ _), s
  | .smb (.unlink _), s | .smb (.rmdir _), s => (.error ⟨.unsupportedOperation, ""⟩, s)
  | .currentTimeMillis, s => (clock s.ticks, { s with ticks := s.ticks + 1 })
  | .memory m, s => ((Store.exec m s.store).1, { s with store := (Store.exec m s.store).2 })
  | .hashOrder keys, s => (⟨keys, .refl _⟩, s)
  | .notifyChange _, s | .revokeDocumentPermission _, s => ((), s)
  | .shares .iterator, s => ([], s)
  | .shares (.containsShare _), s | .shares (.isShareMounted _), s
  | .shares (.unmountServer _), s => (false, s)
  | .shares (.removeCredential _), s => ((), s)
  | .shares (.beginMount _), s | .shares (.saveServer _), s => (.ok (), s)

/-- The entries of the directory. -/
def listed (L : Listing) : List DirectoryEntry := L.entries.map createDirectoryEntry

end Listing

/-! ## What is asked for -/

/-- An entry of a supported type, other than `.` and `..`. -/
def Supported (entry : DirectoryEntry) : Prop :=
  entry.type ∈ [EntryType.workgroup, .server, .fileShare, .dir, .file] ∧
    entry.name ≠ some "." ∧ entry.name ≠ some ".."

instance (entry : DirectoryEntry) : Decidable (Supported entry) :=
  inferInstanceAs (Decidable (_ ∧ _ ∧ _))

/-- **The children are the listing**: every supported entry is there, under
its child URI and with its name and type, and nothing else is. -/
structure Complete (uri : Uri) (listed : List DirectoryEntry) (children : ChildMap)
    (metadata : Ref → DocumentMetadata) : Prop where
  entry : ∀ e ∈ listed, Supported e → ∃ childUri c, uri.buildChildUri e = some childUri ∧
    children.lookup childUri = some c ∧ (metadata c).uri = childUri ∧
    (metadata c).entry.name = e.name ∧ (metadata c).entry.type = e.type
  key : ∀ childUri c, children.lookup childUri = some c →
    ∃ e ∈ listed, Supported e ∧ uri.buildChildUri e = some childUri

/-- **`loadChildren` is exact** for a directory that is listed like this,
whatever its metadata holds: it returns if and only if no call has failed,
and then the children are the listing; otherwise it throws, keeps the
exception, and leaves the children and the time stamp. -/
def LoadsExactly (L : Listing) (uri : Uri) : Prop :=
  ∀ (facade : NativeSambaFacade) (clock : ℕ → ℤ) (s : Store) (r : Ref) (fuel : ℕ),
    facade.isInitialized = true → r < s.nextRef → (s.metadata r).uri = uri →
    L.entries.length < fuel →
    let out := (loadChildren fuel r).run (L.exec facade clock) ⟨s, 0, 0⟩
    let after := out.2.store.metadata r
    (out.1 = .returned () ↔ L.NothingFails) ∧
    (L.NothingFails → ∃ g, after.children = some g ∧
      Complete uri L.listed (out.2.store.maps r g) out.2.store.metadata) ∧
    (¬ L.NothingFails →
      ∃ x, out.1 = .threw x ∧ after.lastChildUpdateException = some x ∧
        after.children = (s.metadata r).children ∧ after.timeStamp = (s.metadata r).timeStamp ∧
        ∀ g, (s.metadata r).children = some g → out.2.store.maps r g = s.maps r g)

/-- No two supported entries are one document with different names or
types, and no workgroup or server is called `.` or `..`. -/
def Unambiguous (uri : Uri) (listed : List DirectoryEntry) : Prop :=
  (∀ e ∈ listed, ∀ e' ∈ listed, Supported e → Supported e' →
    uri.buildChildUri e = uri.buildChildUri e' → e.name = e'.name ∧ e.type = e'.type) ∧
  ∀ e ∈ listed, uri.buildChildUri e ≠ none → Supported e

instance (uri : Uri) (listed : List DirectoryEntry) : Decidable (Unambiguous uri listed) :=
  inferInstanceAs (Decidable (_ ∧ _))

variable {L : Listing} {facade : NativeSambaFacade} {clock : ℕ → ℤ} {s t : ListingRun}
  {uri childUri : Uri} {entry e : DirectoryEntry} {listed : List DirectoryEntry}
  {children children' : ChildMap} {r : Ref} {fuel : ℕ}

/-! ## Child URIs -/

theorem buildChildUri_of_supported (uri : Uri) (h : Supported e) :
    ∃ u, uri.buildChildUri e = some u := by
  obtain ⟨htype, hdot, hdots⟩ := h
  simp only [List.mem_cons, List.not_mem_nil, or_false] at htype
  unfold Uri.buildChildUri Uri.buildNamedChildUri
  rcases htype with ht | ht | ht | ht | ht
  · simp [ht]
  · simp [ht]
  · simp [ht, hdot, hdots]
  · simp [ht, hdot, hdots]
  · simp [ht, hdot, hdots]

/-- An entry that has a child URI without being supported is a workgroup
or a server. -/
theorem child_of_not_supported {u : Uri} (h : uri.buildChildUri e = some u)
    (hnot : ¬ Supported e) :
    u = Uri.smbBaseUri.withAuthority e.name ∧ (e.name = some "." ∨ e.name = some "..") := by
  have hname (htype : e.type ∈ [EntryType.workgroup, .server, .fileShare, .dir, .file]) :
      e.name = some "." ∨ e.name = some ".." := by
    by_contra hne
    rw [not_or] at hne
    exact hnot ⟨htype, hne⟩
  unfold Uri.buildChildUri at h
  split at h
  · cases h
  · cases h
  · cases h
  · cases h
  · rename_i ht
    exact ⟨(Option.some.inj h).symm, hname (by simp [ht])⟩
  · rename_i ht
    exact ⟨(Option.some.inj h).symm, hname (by simp [ht])⟩
  · rename_i ht
    rw [Uri.buildNamedChildUri, if_pos (hname (by simp [ht]))] at h
    cases h
  · rename_i ht
    rw [Uri.buildNamedChildUri, if_pos (hname (by simp [ht]))] at h
    cases h
  · rename_i ht
    rw [Uri.buildNamedChildUri, if_pos (hname (by simp [ht]))] at h
    cases h
  · cases h

/-- The child URI that is a host names it. -/
theorem name_of_buildChildUri {a : Option String}
    (h : uri.buildChildUri e = some (Uri.smbBaseUri.withAuthority a)) : e.name = a := by
  have hhost (he : Uri.smbBaseUri.withAuthority e.name = Uri.smbBaseUri.withAuthority a) :
      e.name = a := by
    have hauthority := congrArg Uri.getAuthority he
    rwa [Uri.getAuthority_withAuthority, Uri.getAuthority_withAuthority] at hauthority
  have hpath (he : uri.buildNamedChildUri e.name = some (Uri.smbBaseUri.withAuthority a)) :
      e.name = a := by
    unfold Uri.buildNamedChildUri at he
    split at he
    · cases he
    · have hnil := congrArg Uri.encodedPath (Option.some.inj he)
      change Uri.appendPiece _ _ = [] at hnil
      exact absurd hnil Uri.appendPiece_ne_nil
  unfold Uri.buildChildUri at h
  split at h
  · cases h
  · cases h
  · cases h
  · cases h
  · exact hhost (Option.some.inj h)
  · exact hhost (Option.some.inj h)
  · exact hpath h
  · exact hpath h
  · exact hpath h
  · cases h

/-! ## The loop -/

/-- What the loop has done to memory and to the children for some
entries. -/
structure Filled (uri : Uri) (listed : List DirectoryEntry) (s t : Store)
    (children children' : ChildMap) : Prop where
  metadata : ∀ r < s.nextRef, t.metadata r = s.metadata r
  maps : t.maps = s.maps
  nextMap : t.nextMap = s.nextMap
  nextRef : s.nextRef ≤ t.nextRef
  lookup : ∀ u, (∃ e ∈ listed, uri.buildChildUri e = some u ∧ ∃ c, s.nextRef ≤ c ∧
      c < t.nextRef ∧ children'.lookup u = some c ∧ (t.metadata c).uri = u ∧
      (t.metadata c).entry = e) ∨
    (∀ e ∈ listed, uri.buildChildUri e ≠ some u) ∧ children'.lookup u = children.lookup u

theorem Filled.nil {s : Store} : Filled uri [] s s children children :=
  ⟨fun _ _ => rfl, rfl, rfl, Nat.le_refl _, fun _ => .inr ⟨nofun, rfl⟩⟩

/-- An entry, and the rest of them. -/
theorem Filled.cons {s t u : Store} {mid : ChildMap} (h : Filled uri [e] s t children mid)
    (hrest : Filled uri listed t u mid children') :
    Filled uri (e :: listed) s u children children' where
  metadata r hr := (hrest.metadata r (Nat.lt_of_lt_of_le hr h.nextRef)).trans (h.metadata r hr)
  maps := hrest.maps.trans h.maps
  nextMap := hrest.nextMap.trans h.nextMap
  nextRef := Nat.le_trans h.nextRef hrest.nextRef
  lookup v := by
    rcases hrest.lookup v with ⟨e', he', hchild, c, hle, hc⟩ | ⟨hnone, heq⟩
    · exact .inl ⟨e', List.mem_cons_of_mem e he', hchild, c, Nat.le_trans h.nextRef hle, hc⟩
    · rcases h.lookup v with
        ⟨e', he', hchild, c, hle, hc, hlookup, huri, hentry⟩ | ⟨hnone', heq'⟩
      · left
        obtain rfl := List.mem_singleton.mp he'
        refine ⟨e', List.mem_cons_self, hchild, c, hle, Nat.lt_of_lt_of_le hc hrest.nextRef,
          heq.trans hlookup, ?_⟩
        rw [hrest.metadata c hc]
        exact ⟨huri, hentry⟩
      · right
        refine ⟨fun e' he' => ?_, heq.trans heq'⟩
        rcases List.mem_cons.mp he' with rfl | he'
        · exact hnone' e' (List.mem_singleton_self e')
        · exact hnone e' he'

/-- An entry that has no child URI changes nothing. -/
theorem Filled.skip {s : Store} (h : uri.buildChildUri e = none) :
    Filled uri [e] s s children children where
  metadata _ _ := rfl
  maps := rfl
  nextMap := rfl
  nextRef := Nat.le_refl _
  lookup u := by
    refine .inr ⟨fun e' he' => ?_, rfl⟩
    obtain rfl := List.mem_singleton.mp he'
    rw [h]
    exact nofun

/-- The memory after `newChild`. -/
def withChild (s : Store) (childUri : Uri) (entry : DirectoryEntry) (now : ℤ) : Store :=
  { s.setMetadata s.nextRef ⟨childUri, entry, none, none, none, none, now⟩ with
    nextRef := s.nextRef + 1 }

/-- An entry that has one is put under it. -/
theorem Filled.put {s : Store} {now : ℤ} (h : uri.buildChildUri e = some childUri) :
    Filled uri [e] s (withChild s childUri e now) children
      (children.insert childUri s.nextRef) where
  metadata r hr := Function.update_of_ne (Nat.ne_of_lt hr) _ _
  maps := rfl
  nextMap := rfl
  nextRef := Nat.le_succ _
  lookup u := by
    by_cases hu : u = childUri
    · subst hu
      refine .inl ⟨e, List.mem_singleton_self e, h, s.nextRef, Nat.le_refl _, Nat.lt_succ_self _,
        AList.lookup_insert _, ?_⟩
      have hnew : (withChild s u e now).metadata s.nextRef = ⟨u, e, none, none, none, none, now⟩ :=
        Function.update_self _ _ _
      rw [hnew]
      exact ⟨rfl, rfl⟩
    · refine .inr ⟨fun e' he' hchild => ?_, AList.lookup_insert_ne hu⟩
      obtain rfl := List.mem_singleton.mp he'
      exact hu (Option.some.inj (hchild.symm.trans h))

theorem run_smb {c : SmbCall} :
    (smb c).run (L.exec facade clock) s = match L.exec facade clock (.smb c) s with
      | (.ok a, t) => (.returned a, t)
      | (.error x, t) => (.threw x, t) := by
  change ((do Prog.ofExcept (← perform (.smb c)) : Proc c.Value)).run _ _ = _
  rw [Prog.run_bind]
  rcases h : L.exec facade clock (.smb c) s with ⟨x | a, t⟩
  · simp only [perform, Prog.run_act, h]
    rfl
  · simp only [perform, Prog.run_act, h]
    rfl

theorem run_newChild :
    (newChild childUri e).run (L.exec facade clock) s =
      (.returned s.store.nextRef,
        ⟨withChild s.store childUri e (clock s.ticks), s.reads, s.ticks + 1⟩) := rfl

/-- **The loop reads what is handed out**, and ends. -/
theorem run_readChildren {rest : List Dirent} {handle : SmbDir} (s : ListingRun)
    (children : ChildMap) (huri : (s.store.metadata r).uri = uri) (hr : r < s.store.nextRef)
    (hle : s.reads ≤ L.handed.length) (hrest : L.handed.drop s.reads = rest)
    (hfuel : rest.length < fuel) :
    ∃ children' t, (readChildren (getUri r) newChild handle fuel children).run
        (L.exec facade clock) s = (.returned children', t) ∧
      Filled uri (rest.map createDirectoryEntry) s.store t.store children children' := by
  induction rest generalizing s children fuel with
  | nil =>
    obtain ⟨n, rfl⟩ := Nat.exists_eq_succ_of_ne_zero (Nat.ne_of_gt hfuel)
    have hend : L.handed[s.reads]? = none := by
      have hlen := congrArg List.length hrest
      rw [List.length_drop, List.length_nil] at hlen
      exact List.getElem?_eq_none (by omega)
    refine ⟨children, { s with reads := s.reads + 1 }, ?_, .nil⟩
    rw [readChildren, Prog.run_bind, run_smb]
    simp only [Listing.exec, readDirClient_eq hle, hend, Option.map_none, Prog.continueWith]
    rfl
  | cons ent rest ih =>
    obtain ⟨n, rfl⟩ := Nat.exists_eq_succ_of_ne_zero (Nat.ne_of_gt (Nat.lt_of_le_of_lt
      (Nat.zero_le _) hfuel))
    have hn : rest.length < n := Nat.lt_of_succ_lt_succ hfuel
    have hlt : s.reads < L.handed.length := by
      have hlen := congrArg List.length hrest
      rw [List.length_drop, List.length_cons] at hlen
      omega
    rw [List.drop_eq_getElem_cons hlt] at hrest
    obtain ⟨hent, hdrop⟩ := List.cons.inj hrest
    have hentry : L.handed[s.reads]? = some ent := by rw [List.getElem?_eq_getElem hlt, hent]
    rw [readChildren, Prog.run_bind, run_smb]
    simp only [Listing.exec, readDirClient_eq hle, hentry, Option.map_some, Prog.continueWith]
    -- the URI of the directory is read, and the rest is by the child URI
    have hget : (getUri r).run (L.exec facade clock) { s with reads := s.reads + 1 } =
        (.returned uri, { s with reads := s.reads + 1 }) := by
      change (Result.returned (s.store.metadata r).uri, _) = _
      rw [huri]
      rfl
    rw [Prog.run_bind, hget]
    simp only [Prog.continueWith]
    rcases hchild : uri.buildChildUri (createDirectoryEntry ent) with _ | childUri
    · obtain ⟨children', t, hrun, hfilled⟩ := ih { s with reads := s.reads + 1 }
        children huri hr hlt hdrop hn
      exact ⟨children', t, hrun, (Filled.skip hchild).cons hfilled⟩
    · have hput : Filled uri [createDirectoryEntry ent] s.store
          (withChild s.store childUri (createDirectoryEntry ent) (clock s.ticks)) children
          (children.insert childUri s.store.nextRef) := Filled.put hchild
      obtain ⟨children', t, hrun, hfilled⟩ := ih
        ⟨withChild s.store childUri (createDirectoryEntry ent) (clock s.ticks), s.reads + 1,
          s.ticks + 1⟩
        (children.insert childUri s.store.nextRef)
        ((congrArg DocumentMetadata.uri (hput.metadata r hr)).trans huri)
        (Nat.lt_of_lt_of_le hr hput.nextRef) hlt hdrop hn
      refine ⟨children', t, ?_, hput.cons hfilled⟩
      rw [← hrun, Prog.run_bind, run_newChild]
      rfl

/-! ## The method -/

/-- The memory with the exception of a listing kept. -/
def keepException (s : Store) (r : Ref) (x : Exn) : Store :=
  s.setMetadata r { s.metadata r with lastChildUpdateException := some x }

/-- The memory with a children map set, and the time stamp. -/
def keepChildren (s : Store) (r : Ref) (children : ChildMap) (now : ℤ) : Store :=
  (Store.exec (.write r (.timeStamp now)) (Store.exec (.setChildren r children) s).2).2

/-- **A directory that could not be opened.** -/
theorem run_loadChildren_of_error {x : Exn}
    (hopen : openDirClient facade L (s.store.metadata r).uri.toString = .error x) :
    (loadChildren fuel r).run (L.exec facade clock) s =
      (.threw x, { s with store := keepException s.store r x }) := by
  have hbody : (do
        let dir ← smb (.openDir (← getUri r))
        Prog.withResource (smb (.closeDir dir)) do
          let children ← readChildren (getUri r) newChild dir fuel ∅
          memory (.setChildren r children)
          let now ← perform .currentTimeMillis
          memory (.write r (.timeStamp now)) : Proc Unit).run (L.exec facade clock) s =
      (.threw x, s) := by
    change Prog.run _ (smb (.openDir (s.store.metadata r).uri) >>= _) s = _
    rw [Prog.run_bind, run_smb]
    simp only [Listing.exec, hopen]
    rfl
  rw [loadChildren, Prog.run_catching, hbody]
  rfl

/-- **A directory that could be opened**: the children are set to what was
handed out, and what the close throws is thrown afterwards. -/
theorem run_loadChildren_of_ok {handle : SmbDir} (clock : ℕ → ℤ) (s : ListingRun)
    (hr : r < s.store.nextRef)
    (hopen : openDirClient facade L (s.store.metadata r).uri.toString = .ok handle)
    (hreads : s.reads = 0) (hfuel : L.entries.length < fuel) :
    ∃ (children : ChildMap) (t : ListingRun),
      Filled (s.store.metadata r).uri (L.handed.map createDirectoryEntry) s.store t.store ∅
        children ∧
      (loadChildren fuel r).run (L.exec facade clock) s =
        match closeDirClient (L.dir facade) L with
        | .ok () => (.returned (),
            ⟨keepChildren t.store r children (clock t.ticks), t.reads, t.ticks + 1⟩)
        | .error x => (.threw x,
            ⟨keepException (keepChildren t.store r children (clock t.ticks)) r x, t.reads,
              t.ticks + 1⟩) := by
  have hlength : L.handed.length ≤ L.entries.length := by
    unfold Listing.handed
    split
    · rw [List.length_take]
      exact Nat.min_le_right _ _
    · exact Nat.le_refl _
  have hrest : L.handed.drop s.reads = L.handed := by
    rw [hreads]
    rfl
  obtain ⟨children, t, hrun, hfilled⟩ :=
    run_readChildren s ∅ rfl hr (by omega) hrest (Nat.lt_of_le_of_lt hlength hfuel)
  refine ⟨children, t, hfilled, ?_⟩
  have hloop : (do
        let children ← readChildren (getUri r) newChild handle fuel ∅
        memory (.setChildren r children)
        let now ← perform .currentTimeMillis
        memory (.write r (.timeStamp now)) : Proc Unit).run (L.exec facade clock) s =
      (.returned (), ⟨keepChildren t.store r children (clock t.ticks), t.reads, t.ticks + 1⟩) := by
    rw [Prog.run_bind, hrun]
    rfl
  have hbody : (do
        let dir ← smb (.openDir (← getUri r))
        Prog.withResource (smb (.closeDir dir)) do
          let children ← readChildren (getUri r) newChild dir fuel ∅
          memory (.setChildren r children)
          let now ← perform .currentTimeMillis
          memory (.write r (.timeStamp now)) : Proc Unit).run (L.exec facade clock) s =
      match closeDirClient (L.dir facade) L with
      | .ok () => (.returned (),
          ⟨keepChildren t.store r children (clock t.ticks), t.reads, t.ticks + 1⟩)
      | .error x => (.threw x,
          ⟨keepChildren t.store r children (clock t.ticks), t.reads, t.ticks + 1⟩) := by
    have hclose (u : ListingRun) : (smb (.closeDir handle)).run (L.exec facade clock) u =
        match closeDirClient (L.dir facade) L with
        | .ok () => (.returned (), u)
        | .error x => (.threw x, u) := by
      refine (run_smb (c := .closeDir handle)).trans ?_
      simp only [Listing.exec]
      rcases closeDirClient (L.dir facade) L with x | v
      · rfl
      · rfl
    change Prog.run _ (smb (.openDir (s.store.metadata r).uri) >>= _) s = _
    rw [Prog.run_bind, run_smb]
    simp only [Listing.exec, hopen, Prog.continueWith, Prog.run_withResource, hloop, hclose]
    rcases closeDirClient (L.dir facade) L with x | u
    · rfl
    · rfl
  rw [loadChildren, Prog.run_catching, hbody]
  rcases closeDirClient (L.dir facade) L with x | u
  · rfl
  · rfl

/-! ## Exactness -/

theorem handed_eq (h : L.readdir = none) : L.handed.map createDirectoryEntry = L.listed := by
  unfold Listing.handed Listing.listed
  rw [h]

/-- What the loop has filled is the listing, if and only if that is
unambiguous. -/
theorem Filled.complete_iff {s t : Store} {metadata : Ref → DocumentMetadata}
    (h : Filled uri listed s t ∅ children)
    (hmetadata : ∀ c, s.nextRef ≤ c → metadata c = t.metadata c) :
    Complete uri listed children metadata ↔ Unambiguous uri listed := by
  -- a child URI has the entry the loop has found last
  have hfound {e : DirectoryEntry} {u : Uri} (he : e ∈ listed)
      (hu : uri.buildChildUri e = some u) : ∃ e' ∈ listed, uri.buildChildUri e' = some u ∧
        ∃ c, children.lookup u = some c ∧ (metadata c).uri = u ∧ (metadata c).entry = e' := by
    rcases h.lookup u with ⟨e', he', hu', c, hle, _, hc, huri, hentry⟩ | ⟨hnone, _⟩
    · rw [← hmetadata c hle] at huri hentry
      exact ⟨e', he', hu', c, hc, huri, hentry⟩
    · exact absurd hu (hnone e he)
  constructor
  · intro hcomplete
    have hall (e) (he : e ∈ listed) (hchild : uri.buildChildUri e ≠ none) : Supported e := by
      by_contra hnot
      obtain ⟨u, hu⟩ := Option.ne_none_iff_exists'.mp hchild
      obtain ⟨rfl, hdots⟩ := child_of_not_supported hu hnot
      obtain ⟨_, _, _, c, hc, _⟩ := hfound he hu
      obtain ⟨e', _, hsupported, hu'⟩ := hcomplete.key _ c hc
      have hname := name_of_buildChildUri hu'
      rcases hdots with hdot | hdot
      · exact hsupported.2.1 (hname.trans hdot)
      · exact hsupported.2.2 (hname.trans hdot)
    refine ⟨fun e he e' he' hsupported hsupported' hsame => ?_, hall⟩
    obtain ⟨u, c, hu, hc, _, hname, htype⟩ := hcomplete.entry e he hsupported
    obtain ⟨u', c', hu', hc', _, hname', htype'⟩ := hcomplete.entry e' he' hsupported'
    obtain rfl := Option.some.inj (hu.symm.trans (hsame.trans hu'))
    obtain rfl := Option.some.inj (hc.symm.trans hc')
    exact ⟨hname.symm.trans hname', htype.symm.trans htype'⟩
  · rintro ⟨hsame, hall⟩
    refine ⟨fun e he hsupported => ?_, fun u c hc => ?_⟩
    · obtain ⟨u, hu⟩ := buildChildUri_of_supported uri hsupported
      obtain ⟨e', he', hu', c, hc, huri, hentry⟩ := hfound he hu
      have hsupported' : Supported e' := hall e' he' (by rw [hu']; exact nofun)
      obtain ⟨hname, htype⟩ := hsame e' he' e he hsupported' hsupported (hu'.trans hu.symm)
      exact ⟨u, c, hu, hc, huri, by rw [hentry, hname], by rw [hentry, htype]⟩
    · rcases h.lookup u with ⟨e, he, hu, _⟩ | ⟨_, hempty⟩
      · exact ⟨e, he, hall e he (by rw [hu]; exact nofun), hu⟩
      · rw [hempty, AList.lookup_empty] at hc
        cases hc

theorem metadata_keepException {s : Store} {x : Exn} :
    (keepException s r x).metadata r =
      { s.metadata r with lastChildUpdateException := some x } := Function.update_self _ _ _

theorem metadata_keepChildren {s : Store} {now : ℤ} :
    (keepChildren s r children now).metadata r =
      { s.metadata r with children := some s.nextMap, timeStamp := now } := by
  simp [keepChildren, Store.exec, Store.setMetadata, Store.setMap, FieldValue.set]

theorem metadata_keepChildren_of_ne {s : Store} {now : ℤ} {c : Ref} (h : c ≠ r) :
    (keepChildren s r children now).metadata c = s.metadata c := by
  simp [keepChildren, Store.exec, Store.setMetadata, Store.setMap, h]

theorem maps_keepChildren {s : Store} {now : ℤ} :
    (keepChildren s r children now).maps r s.nextMap = children := by
  simp [keepChildren, Store.exec, Store.setMetadata, Store.setMap]

/-- A directory that cannot be opened is loaded exactly: nothing is kept but
the exception. -/
theorem loadsExactly_of_opendir_error {errno : Errno} (hopendir : L.opendir = .error errno) :
    LoadsExactly L uri := by
  intro facade clock s r fuel hfacade hr huri hfuel
  have hfails : ¬ L.NothingFails := by
    rintro ⟨⟨dh, hdh⟩, _⟩
    rw [hopendir] at hdh
    cases hdh
  rcases hopen : openDirClient facade L uri.toString with x | handle
  · rw [← huri] at hopen
    rw [run_loadChildren_of_error (s := ⟨s, 0, 0⟩) hopen]
    refine ⟨⟨nofun, fun h => absurd h hfails⟩, fun h => absurd h hfails, fun _ => ?_⟩
    refine ⟨x, rfl, ?_, ?_, ?_, fun _ _ => rfl⟩
    all_goals dsimp only; rw [metadata_keepException]
  · obtain ⟨dh, hdh⟩ := (openDirClient_isOk_iff hfacade).mp ⟨handle, hopen⟩
    rw [hopendir] at hdh
    cases hdh

/-- Where nothing fails, an unambiguous listing is loaded exactly. -/
theorem loadsExactly_of_nothingFails (hnothing : L.NothingFails)
    (hunambiguous : Unambiguous uri L.listed) : LoadsExactly L uri := by
  intro facade clock s r fuel hfacade hr huri hfuel
  obtain ⟨handle, hopen⟩ : ∃ dir, openDirClient facade L uri.toString = .ok dir :=
    (openDirClient_isOk_iff hfacade).mpr hnothing.1
  rw [← huri] at hopen
  obtain ⟨children, t, hfilled, hrun⟩ :=
    run_loadChildren_of_ok clock ⟨s, 0, 0⟩ hr hopen rfl hfuel
  rw [hrun, closeDirClient_eq.mpr hnothing.2.2]
  refine ⟨⟨fun _ => hnothing, fun _ => rfl⟩, fun _ => ?_, fun h => absurd hnothing h⟩
  refine ⟨t.store.nextMap, by dsimp only; rw [metadata_keepChildren], ?_⟩
  dsimp only
  rw [maps_keepChildren]
  rw [handed_eq hnothing.2.1] at hfilled
  have hother (c : Ref) (hc : s.nextRef ≤ c) :
      (keepChildren t.store r children (clock t.ticks)).metadata c = t.store.metadata c :=
    metadata_keepChildren_of_ne (Nat.ne_of_gt (Nat.lt_of_lt_of_le hr hc))
  have hcomplete := hfilled.complete_iff hother
  rw [← huri] at hunambiguous ⊢
  exact hcomplete.mpr hunambiguous

/-- A directory that has no children yet. -/
def childless (uri : Uri) : Store :=
  { Store.initial ⟨uri, ⟨.dir, "", none⟩, none, none, none, none, 0⟩ with nextRef := 1 }

/-- An opened directory that is loaded exactly: nothing fails, and its
listing is unambiguous. -/
theorem LoadsExactly.of_opendir {dh : ℕ} (hexact : LoadsExactly L uri)
    (hopendir : L.opendir = .ok dh) : L.NothingFails ∧ Unambiguous uri L.listed := by
  let facade : NativeSambaFacade := { mNativeHandler := 1 }
  obtain ⟨handle, hopen⟩ : ∃ dir, openDirClient facade L uri.toString = .ok dir :=
    (openDirClient_isOk_iff rfl).mpr ⟨dh, hopendir⟩
  obtain ⟨children, t, hfilled, hrun⟩ := run_loadChildren_of_ok (fun _ => 0)
    ⟨childless uri, 0, 0⟩ Nat.one_pos hopen rfl (Nat.lt_succ_self _)
  obtain ⟨hreturns, hcomplete, hthrows⟩ := hexact facade (fun _ => 0) (childless uri) 0
    (L.entries.length + 1) rfl Nat.one_pos rfl (Nat.lt_succ_self _)
  rw [hrun] at hreturns hcomplete hthrows
  rcases hclose : closeDirClient (L.dir facade) L with x | u
  · -- What fails at the close has already stored the children.
    rw [hclose] at hthrows
    have hfails : ¬ L.NothingFails := fun h => by
      rw [closeDirClient_eq.mpr h.2.2] at hclose
      cases hclose
    obtain ⟨_, _, _, hchildren, _⟩ := hthrows hfails
    dsimp only at hchildren
    rw [metadata_keepException, metadata_keepChildren] at hchildren
    cases hchildren
  · rw [hclose] at hreturns hcomplete
    have hnothing : L.NothingFails := hreturns.mp rfl
    refine ⟨hnothing, ?_⟩
    obtain ⟨g, hg, hcomplete⟩ := hcomplete hnothing
    rw [metadata_keepChildren] at hg
    obtain rfl := Option.some.inj hg
    rw [maps_keepChildren] at hcomplete
    rw [handed_eq hnothing.2.1] at hfilled
    exact (hfilled.complete_iff fun c hc => metadata_keepChildren_of_ne
      (Nat.ne_of_gt (Nat.lt_of_lt_of_le Nat.one_pos hc))).mp hcomplete

/-- **`loadChildren` is exact**, if and only if the directory cannot be
opened, or nothing fails and the listing is unambiguous. -/
theorem loadsExactly_iff :
    LoadsExactly L uri ↔
      (∃ errno, L.opendir = .error errno) ∨ L.NothingFails ∧ Unambiguous uri L.listed := by
  constructor
  · intro hexact
    cases hopendir : L.opendir with
    | error errno => exact .inl ⟨errno, rfl⟩
    | ok dh => exact .inr (hexact.of_opendir hopendir)
  · rintro (⟨errno, hopendir⟩ | ⟨hnothing, hunambiguous⟩)
    · exact loadsExactly_of_opendir_error hopendir
    · exact loadsExactly_of_nothingFails hnothing hunambiguous

/-- A directory of two files, and a failure to read the second. -/
def truncated : Listing where
  opendir := .ok 10000
  entries := [⟨8, "", "a"⟩, ⟨8, "", "b"⟩]
  readdir := some 1
  closedir := .ok ()

/-- **A truncated listing is taken for a complete one.** -/
theorem not_loadsExactly_truncated :
    ¬ LoadsExactly truncated ((Uri.ofShare "nas" "media").appendPath "d") := by
  intro h
  let start : Store :=
    { Store.initial ⟨(Uri.ofShare "nas" "media").appendPath "d", ⟨.dir, "", some "d"⟩, none, none,
        none, none, 0⟩ with nextRef := 1 }
  obtain ⟨hreturns, _⟩ := h { mNativeHandler := 1 } (fun _ => 0) start 0 3 rfl Nat.one_pos rfl
    (by decide)
  have hnothing : truncated.NothingFails := hreturns.mp (by decide)
  exact absurd hnothing.2.1 (by decide)

end SambaProvider

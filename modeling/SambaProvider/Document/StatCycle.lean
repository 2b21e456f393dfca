import Mathlib.Algebra.Ring.Parity
import SambaProvider.Document.Query

/-!
# Loading the stats of a folder

A query of a folder starts a `LoadStatTask` for the files whose stat is
missing, and the task has the folder queried again. A file whose stat
could not be loaded is marked, and a mark keeps it out of the next task:
the query that reads the mark clears it. So a file that always fails is
in a task every second round, and the rounds end if all such files are
in step; files out of step keep each other going.
-/

namespace SambaProvider

open Lib DocumentMetadata SambaDocumentsProvider

/-! ## Phases -/

/-- How far a child is: its stat is there, or not wanted; it is missing;
or loading it has failed and the mark has not been read. -/
inductive StatPhase
  | settled
  | missing
  | marked
deriving DecidableEq, Repr

namespace StatPhase

/-- One round, for a child whose stat can be loaded or not. -/
def next (succeeds : Bool) : StatPhase → StatPhase
  | settled => settled
  | missing => if succeeds then settled else marked
  | marked => missing

variable {p q : StatPhase} {n : ℕ}

theorem iterate_settled {b : Bool} : (next b)^[n] settled = settled :=
  Function.iterate_fixed rfl n

/-- A child that can be loaded is settled after two rounds. -/
theorem iterate_of_succeeds : (next true)^[n + 2] p = settled := by
  rw [Function.iterate_add_apply]
  have htwo : (next true)^[2] p = settled := by cases p <;> rfl
  rw [htwo, iterate_settled]

/-- A child that cannot is marked every second round. -/
theorem iterate_of_fails (hp : p ≠ settled) :
    (next false)^[n] p = marked ↔ (Even n ↔ p = marked) := by
  induction n generalizing p with
  | zero => simp
  | succ n ih =>
    rw [Function.iterate_succ_apply]
    cases p with
    | settled => exact absurd rfl hp
    | missing =>
      rw [show next false missing = marked from rfl, ih (p := marked) (by decide), Nat.even_add_one]
      simp
    | marked =>
      rw [show next false marked = missing from rfl, ih (p := missing) (by decide),
        Nat.even_add_one]
      simp

theorem iterate_ne_settled (hp : p ≠ settled) : (next false)^[n] p ≠ settled := by
  induction n generalizing p with
  | zero => exact hp
  | succ n ih =>
    rw [Function.iterate_succ_apply]
    refine ih ?_
    cases p with
    | settled => exact absurd rfl hp
    | missing => exact nofun
    | marked => exact nofun

/-- **The rounds end**, if and only if the children that cannot be loaded
are in step. -/
theorem exists_iterate_ne_missing_iff {ι : Type*} (phase : ι → StatPhase) (succeeds : ι → Bool) :
    (∃ n, ∀ i, (next (succeeds i))^[n] (phase i) ≠ missing) ↔
      ∀ i j, succeeds i = false → succeeds j = false → phase i ≠ settled → phase j ≠ settled →
        phase i = phase j := by
  constructor
  · rintro ⟨n, hn⟩ i j hi hj hpi hpj
    have hmarked (k : ι) (hk : succeeds k = false) (hp : phase k ≠ settled) :
        Even n ↔ phase k = marked := by
      rw [← iterate_of_fails hp]
      have hne := hn k
      rw [hk] at hne
      have hsettled := iterate_ne_settled (n := n) hp
      cases hphase : (next false)^[n] (phase k) with
      | settled => exact absurd hphase hsettled
      | missing => exact absurd hphase hne
      | marked => rfl
    have hiff := (hmarked i hi hpi).symm.trans (hmarked j hj hpj)
    cases hi' : phase i with
    | settled => exact absurd hi' hpi
    | marked => exact (hiff.mp hi').symm
    | missing =>
      cases hj' : phase j with
      | settled => exact absurd hj' hpj
      | marked =>
        have himp := hiff.mpr hj'
        rw [hi'] at himp
        cases himp
      | missing => rfl
  · intro hstep
    by_cases h : ∃ i, succeeds i = false ∧ phase i = missing
    · -- all of them are missing now, so they are marked after an odd number
      obtain ⟨i, hi, hmissing⟩ := h
      refine ⟨3, fun j => ?_⟩
      cases hj : succeeds j with
      | true => exact fun he => nomatch (iterate_of_succeeds (n := 1)).symm.trans he
      | false =>
        by_cases hp : phase j = settled
        · rw [hp, iterate_settled]
          exact nofun
        · have heq := hstep i j hi hj (by rw [hmissing]; exact nofun) hp
          rw [← heq, hmissing]
          exact nofun
    · refine ⟨2, fun j => ?_⟩
      cases hj : succeeds j with
      | true => exact fun he => nomatch (iterate_of_succeeds (n := 0)).symm.trans he
      | false =>
        cases hp : phase j with
        | settled => exact nofun
        | missing => exact absurd ⟨j, hj, hp⟩ h
        | marked => exact nofun

end StatPhase

/-! ## Rounds -/

/-- What stays the same over the rounds: how loading each stat ends, the
order of the hash maps, and the readings of the clock. -/
structure Surroundings where
  outcome : Uri → Except Exn StructStat
  order : (keys : List Uri) → { order : List Uri // order.Perm keys }
  clock : ℕ → ℤ

/-- The memory, and the readings of the clock so far. -/
structure RoundState where
  store : Store
  ticks : ℕ

namespace Surroundings

variable (E : Surroundings)

/-- One effect; the calls the rounds do not make are refused. -/
def exec : (e : Effect) → RoundState → e.Answer × RoundState
  | .memory m, s => ((Store.exec m s.store).1, ⟨(Store.exec m s.store).2, s.ticks⟩)
  | .smb (.stat u), s => (E.outcome u, s)
  | .smb (.openDir _), s | .smb (.readDir _), s | .smb (.closeDir _), s | .smb (.createFile _), s
  | .smb (.mkdir _), s | .smb (.rename _ _), s | .smb (.unlink _), s | .smb (.rmdir _), s =>
    (.error ⟨.unsupportedOperation, ""⟩, s)
  | .currentTimeMillis, s => (E.clock s.ticks, ⟨s.store, s.ticks + 1⟩)
  | .hashOrder keys, s => (E.order keys, s)
  | .notifyChange _, s | .revokeDocumentPermission _, s => ((), s)
  | .shares .iterator, s => ([], s)
  | .shares (.containsShare _), s | .shares (.isShareMounted _), s
  | .shares (.unmountServer _), s => (false, s)
  | .shares (.removeCredential _), s => ((), s)
  | .shares (.beginMount _), s | .shares (.saveServer _), s => (.ok (), s)

/-- The query of a round. -/
def query (uri : Uri) (projection : Option (List Column)) (s : RoundState) :
    Result Exn DocumentCursor × RoundState :=
  (queryChildDocuments uri projection).run E.exec s

/-- **A round**: a query, and the `LoadStatTask` it starts, whose end has
the folder queried again. The task may be `cancelled`. -/
def roundWith (cancelled : Uri → Bool) (uri : Uri) (projection : Option (List Column))
    (s : RoundState) : RoundState :=
  match E.query uri projection s with
  | (.returned cursor, t) =>
    match cursor.task with
    | some (.loadStat docs) => ((loadStatTask cancelled docs uri).run E.exec t).2
    | _ => t
  | (_, t) => t

/-- A round whose task runs to its end. -/
def round (uri : Uri) (projection : Option (List Column)) (s : RoundState) : RoundState :=
  E.roundWith (fun _ => false) uri projection s

/-- A query that starts no task and says that nothing is loading. -/
def Quiet (uri : Uri) (projection : Option (List Column)) (s : RoundState) : Prop :=
  ∃ cursor, (E.query uri projection s).1 = .returned cursor ∧ cursor.task = none ∧
    cursor.loading = false

/-- **The rounds end** in a quiet query. -/
def Quiesces (uri : Uri) (projection : Option (List Column)) (s : RoundState) : Prop :=
  ∃ n, E.Quiet uri projection ((E.round uri projection)^[n] s)

end Surroundings

/-- The types of the documents that are shown. -/
def ShownType (entry : DirectoryEntry) : Prop :=
  entry.type ∈ [EntryType.workgroup, .server, .fileShare, .dir, .file]

instance (entry : DirectoryEntry) : Decidable (ShownType entry) :=
  inferInstanceAs (Decidable (_ ∈ _))

/-- A folder that is cached with its children, and will not expire: the
children are under their URIs and have types that are shown. -/
structure Surroundings.Cached (E : Surroundings) (uri : Uri) (r : Ref) (children : ChildMap)
    (s : Store) : Prop where
  authority : uri.getAuthority ≠ none
  cache : s.cache uri = some r
  folder : getMimeType (s.metadata r).entry = .ok .directory
  fresh : ∀ n, ¬ (s.metadata r).timeStamp + DocumentCache.cacheExpiration < E.clock n
  noException : (s.metadata r).lastChildUpdateException = none
  loaded : ∃ g, (s.metadata r).children = some g ∧ s.maps r g = children
  child : ∀ key c, children.lookup key = some c →
    (s.metadata c).uri = key ∧ ShownType (s.metadata c).entry

/-- The phase of a child. -/
def statPhase (m : DocumentMetadata) : StatPhase :=
  if m.entry.type = .file ∧ m.stat = none then
    if m.lastStatException = none then .missing else .marked
  else .settled

/-- **The files whose stat cannot be loaded are in step**: all of them are
marked, or none is. -/
def InStep (E : Surroundings) (children : ChildMap) (s : Store) : Prop :=
  ∀ key c key' c', children.lookup key = some c → children.lookup key' = some c' →
    (∀ stat, E.outcome key ≠ .ok stat) → (∀ stat, E.outcome key' ≠ .ok stat) →
    statPhase (s.metadata c) ≠ .settled → statPhase (s.metadata c') ≠ .settled →
    statPhase (s.metadata c) = statPhase (s.metadata c')

section Query

variable {E : Surroundings} {uri key : Uri} {projection : Option (List Column)} {r c : Ref}
  {children docs : ChildMap} {s t : RoundState} {m : DocumentMetadata} {keys : List Uri}
  {rows : List (List Cell)}

/-! ## The query -/

/-- What reading the mark makes of a child. -/
def readMark (m : DocumentMetadata) : DocumentMetadata :=
  if m.entry.type = .file ∧ m.stat = none then { m with lastStatException := none } else m

theorem needsStat_eq (h : ShownType m.entry) :
    needsStat m = .ok (decide (m.entry.type = .file ∧ m.stat = none)) := by
  simp only [ShownType, List.mem_cons, List.not_mem_nil, or_false] at h
  unfold needsStat hasStat
  rcases h with h | h | h | h | h
  all_goals simp [h]; try rfl
  cases m.stat <;> rfl

theorem getDocumentValues_eq (h : ShownType m.entry) (columns : List Column) :
    ∃ cells, getDocumentValues columns m = .ok cells := by
  have hvalue (column : Column) : ∃ cell, getDocumentValue m column = .ok cell := by
    simp only [ShownType, List.mem_cons, List.not_mem_nil, or_false] at h
    cases column with
    | flags =>
      unfold getDocumentValue canCreateDocument
      rcases h with h | h | h | h | h
      all_goals rw [h]; exact ⟨_, rfl⟩
    | mimeType =>
      unfold getDocumentValue getMimeType
      rcases h with h | h | h | h | h
      all_goals rw [h]; exact ⟨_, rfl⟩
    | _ => exact ⟨_, rfl⟩
  unfold getDocumentValues
  induction columns with
  | nil => exact ⟨[], rfl⟩
  | cons column columns ih =>
    obtain ⟨cell, hcell⟩ := hvalue column
    obtain ⟨cells, hcells⟩ := ih
    refine ⟨cell :: cells, ?_⟩
    rw [List.mapM_cons, hcell, hcells]
    rfl

/-- **A child is selected** if its stat is missing, and its mark is read. -/
theorem run_selectChild (h : ShownType (s.store.metadata c).entry) :
    (selectChild c docs).run E.exec s =
      (.returned (if statPhase (s.store.metadata c) = .missing then
          docs.insert (s.store.metadata c).uri c else docs),
        ⟨s.store.setMetadata c (readMark (s.store.metadata c)), s.ticks⟩) := by
  have hkeep (m : DocumentMetadata) (hm : m = s.store.metadata c) :
      s.store.setMetadata c m = s.store := by
    rw [hm, Store.setMetadata, Function.update_eq_self]
  change Prog.run _ (Prog.ofExcept (needsStat (s.store.metadata c)) >>= _) s = _
  rw [needsStat_eq h]
  by_cases hneeds : (s.store.metadata c).entry.type = .file ∧ (s.store.metadata c).stat = none
  · rw [decide_eq_true hneeds]
    unfold statPhase readMark
    rw [if_pos hneeds, if_pos hneeds]
    let cleared : Store :=
      s.store.setMetadata c { s.store.metadata c with lastStatException := none }
    have huri : (cleared.metadata c).uri = (s.store.metadata c).uri := by
      simp [cleared, Store.setMetadata]
    change Prog.run E.exec (if (s.store.metadata c).lastStatException.isSome then _ else _)
      (⟨cleared, s.ticks⟩ : RoundState) = _
    cases hmark : (s.store.metadata c).lastStatException with
    | none =>
      change (Result.returned (docs.insert (cleared.metadata c).uri c), _) = _
      rw [huri, if_pos rfl, if_pos rfl]
      rfl
    | some x => rfl
  · rw [decide_eq_false hneeds]
    unfold statPhase readMark
    rw [if_neg hneeds, if_neg hneeds, hkeep _ rfl]
    rfl

/-- The children are under their URIs, and shown. -/
def Children (children : ChildMap) (s : Store) : Prop :=
  ∀ key c, children.lookup key = some c →
    (s.metadata c).uri = key ∧ ShownType (s.metadata c).entry

theorem readMark_keeps : (readMark m).uri = m.uri ∧ (readMark m).entry = m.entry := by
  unfold readMark
  split
  · exact ⟨rfl, rfl⟩
  · exact ⟨rfl, rfl⟩

variable (projection docs rows) in
/-- **The loop over the children** selects those whose stat is missing, and
reads the marks. -/
theorem run_childRows (hchildren : Children children s.store) (hkeys : keys.Nodup) :
    ∃ docs' rows' t, (childRows projection children keys docs rows).run E.exec s =
        (.returned (docs', rows'), ⟨t, s.ticks⟩) ∧ t = { s.store with metadata := t.metadata } ∧
      (∀ key, docs'.lookup key = if key ∈ keys ∧ ∃ c, children.lookup key = some c ∧
          statPhase (s.store.metadata c) = .missing then children.lookup key else
          docs.lookup key) ∧
      ∀ c, t.metadata c = if ∃ key ∈ keys, children.lookup key = some c then
        readMark (s.store.metadata c) else s.store.metadata c := by
  induction keys generalizing s docs rows with
  | nil => exact ⟨docs, rows, s.store, rfl, rfl, by simp, by simp⟩
  | cons key keys ih =>
    obtain ⟨hkey, hkeys⟩ := List.nodup_cons.mp hkeys
    unfold childRows
    rcases hlookup : children.lookup key with _ | c
    · obtain ⟨docs', rows', t, hrun, ht, hdocs, hmetadata⟩ := ih docs rows hchildren hkeys
      refine ⟨docs', rows', t, hrun, ht, fun k => ?_, fun c => ?_⟩
      · rw [hdocs k]
        refine if_congr ⟨fun ⟨hk, h⟩ => ⟨List.mem_cons_of_mem key hk, h⟩, ?_⟩ rfl rfl
        rintro ⟨hk, c, hc, h⟩
        rcases List.mem_cons.mp hk with rfl | hk
        · rw [hlookup] at hc
          cases hc
        · exact ⟨hk, c, hc, h⟩
      · rw [hmetadata c]
        refine if_congr ⟨fun ⟨k, hk, hc⟩ => ⟨k, List.mem_cons_of_mem key hk, hc⟩, ?_⟩ rfl rfl
        rintro ⟨k, hk, hc⟩
        rcases List.mem_cons.mp hk with rfl | hk
        · rw [hlookup] at hc
          cases hc
        · exact ⟨k, hk, hc⟩
    · obtain ⟨huri, hshown⟩ := hchildren key c hlookup
      let s' : RoundState := ⟨s.store.setMetadata c (readMark (s.store.metadata c)), s.ticks⟩
      have hsame : s'.store.metadata c = readMark (s.store.metadata c) :=
        Function.update_self _ _ _
      have hother {c' : Ref} (h : c' ≠ c) : s'.store.metadata c' = s.store.metadata c' :=
        Function.update_of_ne h _ _
      have hchildren' : Children children s'.store := by
        intro k c' hk
        by_cases h : c' = c
        · subst h
          rw [hsame, readMark_keeps.1, readMark_keeps.2]
          exact hchildren k c' hk
        · rw [hother h]
          exact hchildren k c' hk
      -- the child is under no other of the keys
      have honly {k : Uri} (hk : k ∈ keys) : children.lookup k ≠ some c := by
        intro h
        have heq := (hchildren k c h).1.symm.trans huri
        exact hkey (heq ▸ hk)
      obtain ⟨cells, hcells⟩ := getDocumentValues_eq (m := s'.store.metadata c)
        (by rw [hsame, readMark_keeps.2]; exact hshown) (projection.getD defaultDocumentProjection)
      let docs₁ := if statPhase (s.store.metadata c) = .missing then docs.insert key c else docs
      obtain ⟨docs', rows', t, hrun, ht, hdocs, hmetadata⟩ := ih docs₁ (rows ++ [cells])
        hchildren' hkeys
      refine ⟨docs', rows', t, ?_, by rw [ht]; rfl, fun k => ?_, fun c' => ?_⟩
      · have hrow : (documentRow projection c).run E.exec s' = (.returned cells, s') := by
          change Prog.run _ (Prog.ofExcept (getDocumentValues _ (s'.store.metadata c))) s' = _
          rw [hcells]
          rfl
        simp only
        rw [Prog.run_bind, run_selectChild hshown, huri]
        change Prog.run _ (documentRow projection c >>= _) s' = _
        rw [Prog.run_bind, hrow]
        exact hrun
      · rw [hdocs k]
        by_cases hk : k = key
        · subst hk
          rw [if_neg fun h => hkey h.1]
          by_cases hmissing : statPhase (s.store.metadata c) = .missing
          · rw [if_pos ⟨List.mem_cons_self, c, hlookup, hmissing⟩, hlookup]
            simp only [docs₁, if_pos hmissing, AList.lookup_insert]
          · simp only [docs₁, if_neg hmissing]
            rw [if_neg]
            rintro ⟨_, c', hc', h⟩
            obtain rfl := Option.some.inj (hlookup.symm.trans hc')
            exact hmissing h
        · have hrest : docs₁.lookup k = docs.lookup k := by
            simp only [docs₁]
            split
            · exact AList.lookup_insert_ne hk
            · rfl
          rw [hrest]
          refine if_congr ⟨?_, ?_⟩ rfl rfl
          · rintro ⟨hmem, c', hc', h⟩
            rw [hother fun he => honly hmem (he ▸ hc')] at h
            exact ⟨List.mem_cons_of_mem key hmem, c', hc', h⟩
          · rintro ⟨hmem, c', hc', h⟩
            have hmem := (List.mem_cons.mp hmem).resolve_left hk
            refine ⟨hmem, c', hc', ?_⟩
            rwa [hother fun he => honly hmem (he ▸ hc')]
      · rw [hmetadata c']
        by_cases hc : c' = c
        · subst hc
          rw [if_neg (fun ⟨k, hk, h⟩ => honly hk h), hsame,
            if_pos ⟨key, List.mem_cons_self, hlookup⟩]
        · rw [hother hc]
          refine if_congr ⟨fun ⟨k, hk, h⟩ => ⟨k, List.mem_cons_of_mem key hk, h⟩, ?_⟩ rfl rfl
          rintro ⟨k, hk, h⟩
          rcases List.mem_cons.mp hk with rfl | hk
          · exact absurd (Option.some.inj (h.symm.trans hlookup)) hc
          · exact ⟨k, hk, h⟩

theorem run_get (hcache : s.store.cache uri = some r) (hfresh : ∀ n,
    ¬ (s.store.metadata r).timeStamp + DocumentCache.cacheExpiration < E.clock n) :
    (DocumentCache.get uri).run E.exec s = (.returned (.hit r), ⟨s.store, s.ticks + 1⟩) := by
  have hread : Store.exec (.cacheGet uri) s.store = (some r, s.store) := by
    rw [Store.exec, hcache]
  have hlookup : (memory (.cacheGet uri)).run E.exec s = (.returned (some r), s) := by
    change (Result.returned (Store.exec (.cacheGet uri) s.store).1, _) = _
    rw [hread]
    rfl
  unfold DocumentCache.get
  rw [Prog.run_bind, hlookup]
  change (Result.returned (if (s.store.metadata r).timeStamp + DocumentCache.cacheExpiration <
    E.clock s.ticks then DocumentCache.CacheResult.expired r else .hit r), _) = _
  rw [if_neg (hfresh s.ticks)]
  rfl

theorem run_cacheServer (h : E.Cached uri r children s.store) :
    ∃ n, (cacheServer uri).run E.exec s = (.returned (), ⟨s.store, n⟩) := by
  have hserver : ∃ b, isServerUri uri = .ok b := by
    obtain ⟨authority, ha⟩ := Option.ne_none_iff_exists'.mp h.authority
    unfold isServerUri
    rw [ha]
    split
    · exact ⟨_, rfl⟩
    · exact ⟨_, rfl⟩
  obtain ⟨b, hb⟩ := hserver
  unfold cacheServer
  rw [hb]
  cases b with
  | false => exact ⟨s.ticks, rfl⟩
  | true =>
    refine ⟨s.ticks + 1, ?_⟩
    change Prog.run E.exec (DocumentCache.get uri >>= _) s = _
    rw [Prog.run_bind, run_get h.cache h.fresh]
    rfl

variable (projection) in
/-- **A query of a cached folder** selects the children whose stat is
missing, and reads the marks of the files. -/
theorem run_query (h : E.Cached uri r children s.store) :
    ∃ cursor docs t n, E.query uri projection s = (.returned cursor, ⟨t, n⟩) ∧
      (docs.keys = [] → cursor.task = none ∧ cursor.loading = false) ∧
      (docs.keys ≠ [] → cursor.task = some (.loadStat docs)) ∧
      t = { s.store with metadata := t.metadata } ∧
      (∀ key c, docs.lookup key = some c ↔
        children.lookup key = some c ∧ statPhase (s.store.metadata c) = .missing) ∧
      (∀ key c, children.lookup key = some c → t.metadata c = readMark (s.store.metadata c)) ∧
      ∀ c, (∀ key, children.lookup key ≠ some c) → t.metadata c = s.store.metadata c := by
  obtain ⟨g, hg, hmap⟩ := h.loaded
  obtain ⟨n, hserver⟩ := run_cacheServer h
  let s' : RoundState := ⟨s.store, n + 1⟩
  have hperm := (E.order children.keys).2
  have hmem (key : Uri) : key ∈ (E.order children.keys).1 ↔ ∃ c, children.lookup key = some c := by
    rw [hperm.mem_iff, ← AList.mem_keys, ← AList.lookup_isSome, Option.isSome_iff_exists]
  obtain ⟨docs, rows, t, hrun, ht, hdocs, hmetadata⟩ := run_childRows projection ∅ []
    (E := E) (s := s') h.child
    (hperm.nodup_iff.mpr children.keys_nodup)
  have hget : (DocumentCache.get uri).run E.exec ⟨s.store, n⟩ = (.returned (.hit r), s') :=
    run_get h.cache h.fresh
  have hfolder : (queryFolder uri projection false r).run E.exec s' =
      (.returned (if docs.keys = [] then ⟨rows, false, none, none⟩ else
        ⟨rows, true, none, some (.loadStat docs)⟩), ⟨t, s'.ticks⟩) := by
    have hdirectory : (isDirectory (s.store.metadata r).entry).run E.exec s' =
        (.returned true, s') := by
      unfold isDirectory
      rw [h.folder]
      rfl
    have hthrow : (throwLastChildUpdateExceptionIfAny r).run E.exec s' = (.returned (), s') := by
      have hread : (memory (.read r)).run E.exec s' = (.returned (s.store.metadata r), s') := rfl
      unfold throwLastChildUpdateExceptionIfAny
      rw [Prog.run_bind, hread]
      simp only [Prog.continueWith, h.noException]
      rfl
    have hchildren : (getChildren r).run E.exec s' = (.returned (some g), s') := by
      change (Result.returned (s.store.metadata r).children, s') = _
      rw [hg]
    unfold queryFolder
    change Prog.run E.exec (isDirectory (s.store.metadata r).entry >>= _) s' = _
    rw [Prog.run_bind, hdirectory]
    simp only [Prog.continueWith, if_true]
    rw [Prog.run_bind, hthrow]
    simp only [Prog.continueWith]
    rw [Prog.run_bind, hchildren]
    simp only [Prog.continueWith]
    change Prog.run E.exec (childRows projection (s.store.maps r g)
      (E.order (s.store.maps r g).keys).1 ∅ [] >>= _) s' = _
    rw [hmap, Prog.run_bind, hrun]
    simp only [Prog.continueWith, Bool.false_eq_true, if_false]
    split
    · rfl
    · rfl
  have hquery : E.query uri projection s =
      (.returned (if docs.keys = [] then ⟨rows, false, none, none⟩ else
        ⟨rows, true, none, some (.loadStat docs)⟩), ⟨t, s'.ticks⟩) := by
    unfold Surroundings.query queryChildDocuments rethrowing
    rw [Prog.run_catching, Prog.run_catching, Prog.run_bind, hserver]
    simp only [Prog.continueWith]
    rw [Prog.run_bind, hget]
    simp only [Prog.continueWith]
    rw [hfolder]
  refine ⟨_, docs, t, _, hquery, fun hnil => ?_, fun hne => ?_, ht, fun key c => ?_,
    fun key c hc => ?_, fun c hc => ?_⟩
  · rw [if_pos hnil]
    exact ⟨rfl, rfl⟩
  · rw [if_neg hne]
  · rw [hdocs key]
    split
    · rename_i hsel
      obtain ⟨_, c', hc', hmissing⟩ := hsel
      refine ⟨fun hc => ⟨hc, ?_⟩, fun hc => hc.1⟩
      obtain rfl := Option.some.inj (hc'.symm.trans hc)
      exact hmissing
    · rename_i hsel
      rw [AList.lookup_empty]
      refine ⟨by simp, fun h => absurd ⟨(hmem key).mpr ⟨c, h.1⟩, c, h⟩ hsel⟩
  · rw [hmetadata c, if_pos ⟨key, (hmem key).mpr ⟨c, hc⟩, hc⟩]
  · rw [hmetadata c, if_neg (fun h => h.elim fun key hkey => hc key hkey.2)]

/-! ## The task -/

/-- What loading its stat makes of a child. -/
def StatLoaded (answer : Except Exn StructStat) (m m' : DocumentMetadata) : Prop :=
  match answer with
  | .ok stat => ∃ now, m' = { m with stat := some stat, timeStamp := now }
  | .error x => m' = { m with lastStatException := some x }

/-- Loading one stat; the task goes on however it ends. -/
theorem run_loadOne :
    ∃ m n, (Prog.catching (do loadStat c; return false) (fun _ => true)
        fun _ => return false).run E.exec s =
        (.returned false, ⟨s.store.setMetadata c m, n⟩) ∧
      StatLoaded (E.outcome (s.store.metadata c).uri) (s.store.metadata c) m := by
  have hload : (loadStat c).run E.exec s =
      match E.outcome (s.store.metadata c).uri with
      | .ok stat => (.returned (), ⟨s.store.setMetadata c { s.store.metadata c with
          stat := some stat, timeStamp := E.clock s.ticks }, s.ticks + 1⟩)
      | .error x => (.threw x, ⟨s.store.setMetadata c { s.store.metadata c with
          lastStatException := some x }, s.ticks⟩) := by
    have hbody : (do
          let stat ← smb (.stat (← getUri c))
          memory (.write c (.stat (some stat)))
          let now ← perform .currentTimeMillis
          memory (.write c (.timeStamp now)) : Proc Unit).run E.exec s =
        match E.outcome (s.store.metadata c).uri with
        | .ok stat => (.returned (), ⟨s.store.setMetadata c { s.store.metadata c with
            stat := some stat, timeStamp := E.clock s.ticks }, s.ticks + 1⟩)
        | .error x => (.threw x, s) := by
      change Prog.run E.exec (Prog.ofExcept (E.outcome (s.store.metadata c).uri) >>= _) s = _
      rcases E.outcome (s.store.metadata c).uri with x | stat
      · rfl
      · change (Result.returned (),
          (⟨(s.store.setMetadata c _).setMetadata c _, _⟩ : RoundState)) = _
        simp [Store.setMetadata, FieldValue.set, Surroundings.exec, Store.exec]
    unfold loadStat
    rw [Prog.run_catching, hbody]
    rcases E.outcome (s.store.metadata c).uri with x | stat
    · rfl
    · rfl
  rw [Prog.run_catching, Prog.run_bind, hload]
  rcases houtcome : E.outcome (s.store.metadata c).uri with x | stat
  · exact ⟨_, _, rfl, rfl⟩
  · exact ⟨_, _, rfl, _, rfl⟩

/-- **The task** loads the stat of each of its children. -/
theorem run_loadStats (keys : List Uri)
    (hdocs : ∀ key c, docs.lookup key = some c → (s.store.metadata c).uri = key)
    (hkeys : keys.Nodup) :
    ∃ t n, (loadStats (fun _ => false) docs keys).run E.exec s = (.returned (), ⟨t, n⟩) ∧
      t = { s.store with metadata := t.metadata } ∧
      (∀ key ∈ keys, ∀ c, docs.lookup key = some c →
        StatLoaded (E.outcome key) (s.store.metadata c) (t.metadata c)) ∧
      ∀ c, (∀ key ∈ keys, docs.lookup key ≠ some c) → t.metadata c = s.store.metadata c := by
  induction keys generalizing s with
  | nil => exact ⟨s.store, s.ticks, rfl, rfl, nofun, fun _ _ => rfl⟩
  | cons key keys ih =>
    obtain ⟨hkey, hkeys⟩ := List.nodup_cons.mp hkeys
    unfold loadStats
    rcases hlookup : docs.lookup key with _ | c
    · obtain ⟨t, n, hrun, ht, hloaded, hrest⟩ := ih hdocs hkeys
      refine ⟨t, n, hrun, ht, fun k hk c hc => ?_, fun c hc => ?_⟩
      · rcases List.mem_cons.mp hk with rfl | hk
        · rw [hlookup] at hc
          cases hc
        · exact hloaded k hk c hc
      · exact hrest c fun k hk => hc k (List.mem_cons_of_mem key hk)
    · obtain ⟨m, n, hone, hm⟩ := run_loadOne (E := E) (c := c) (s := s)
      have huri := hdocs key c hlookup
      have hmuri : m.uri = key := by
        unfold StatLoaded at hm
        split at hm
        · obtain ⟨now, rfl⟩ := hm
          exact huri
        · rw [hm]
          exact huri
      let s' : RoundState := ⟨s.store.setMetadata c m, n⟩
      have hsame : s'.store.metadata c = m := Function.update_self _ _ _
      have hother {c' : Ref} (h : c' ≠ c) : s'.store.metadata c' = s.store.metadata c' :=
        Function.update_of_ne h _ _
      obtain ⟨t, n', hrun, ht, hloaded, hrest⟩ := ih (s := s') (fun k c' hk => by
        by_cases h : c' = c
        · subst h
          rw [hsame, hmuri]
          exact huri.symm.trans (hdocs k c' hk)
        · rw [hother h]
          exact hdocs k c' hk) hkeys
      have honly {k : Uri} (hk : k ∈ keys) : docs.lookup k ≠ some c := by
        intro h
        have heq := (hdocs k c h).symm.trans huri
        exact hkey (heq ▸ hk)
      refine ⟨t, n', ?_, by rw [ht]; rfl, fun k hk c' hc' => ?_, fun c' hc' => ?_⟩
      · simp only
        rw [Prog.run_bind, hone]
        exact hrun
      · rcases List.mem_cons.mp hk with rfl | hk
        · obtain rfl := Option.some.inj (hlookup.symm.trans hc')
          rw [hrest c fun k hk => honly hk, hsame, ← huri]
          exact hm
        · have hne : c' ≠ c := fun he => honly hk (he ▸ hc')
          rw [← hother hne]
          exact hloaded k hk c' hc'
      · rw [hrest c' fun k hk => hc' k (List.mem_cons_of_mem key hk)]
        exact hother fun he => hc' key List.mem_cons_self (he ▸ hlookup)

/-! ## The round -/

/-- What a child is after a round. -/
theorem statPhase_round {m m' : DocumentMetadata} {answer : Except Exn StructStat}
    (h : if statPhase m = .missing then StatLoaded answer (readMark m) m' else m' = readMark m) :
    statPhase m' = (statPhase m).next answer.isOk ∧ m'.uri = m.uri ∧ m'.entry = m.entry := by
  have hkeeps := readMark_keeps (m := m)
  by_cases hneeds : m.entry.type = .file ∧ m.stat = none
  · have hread : readMark m = { m with lastStatException := none } := if_pos hneeds
    cases hmark : m.lastStatException with
    | none =>
      have hphase : statPhase m = .missing := by
        unfold statPhase
        rw [if_pos hneeds, if_pos hmark]
      rw [if_pos hphase, hread] at h
      rw [hphase]
      rcases answer with x | stat
      · rw [show m' = _ from h]
        refine ⟨?_, rfl, rfl⟩
        unfold statPhase
        rw [if_pos hneeds]
        rfl
      · obtain ⟨now, rfl⟩ := h
        refine ⟨?_, rfl, rfl⟩
        unfold statPhase
        rw [if_neg (fun h => nomatch h.2)]
        rfl
    | some x =>
      have hphase : statPhase m = .marked := by
        unfold statPhase
        rw [if_pos hneeds, if_neg (by rw [hmark]; exact nofun)]
      rw [if_neg (by rw [hphase]; exact nofun)] at h
      rw [h, hphase]
      refine ⟨?_, hkeeps⟩
      rw [hread]
      unfold statPhase
      rw [if_pos hneeds]
      rfl
  · have hphase : statPhase m = .settled := if_neg hneeds
    have hread : readMark m = m := if_neg hneeds
    rw [if_neg (by rw [hphase]; exact nofun), hread] at h
    rw [h, hphase]
    exact ⟨rfl, rfl, rfl⟩

variable (projection) in
/-- **A round** reads the marks, and loads the stats that are missing. -/
theorem round_metadata (h : E.Cached uri r children s.store) :
    ∃ metadata, (E.round uri projection s).store = { s.store with metadata := metadata } ∧
      (∀ key c, children.lookup key = some c →
        if statPhase (s.store.metadata c) = .missing then
          StatLoaded (E.outcome key) (readMark (s.store.metadata c)) (metadata c)
        else metadata c = readMark (s.store.metadata c)) ∧
      ∀ c, (∀ key, children.lookup key ≠ some c) → metadata c = s.store.metadata c := by
  obtain ⟨cursor, docs, t, n, hrun, hempty, htask, ht, hdocs, hchild, hrest⟩ :=
    run_query projection h
  by_cases hkeys : docs.keys = []
  · have hround : (E.round uri projection s).store = t := by
      unfold Surroundings.round Surroundings.roundWith
      rw [hrun]
      dsimp only
      rw [(hempty hkeys).1]
    refine ⟨t.metadata, hround.trans ht, fun key c hc => ?_, hrest⟩
    rw [if_neg]
    · exact hchild key c hc
    · intro hmissing
      have hlookup := (hdocs key c).mpr ⟨hc, hmissing⟩
      have hmem : key ∈ docs.keys := by
        rw [← AList.mem_keys, ← AList.lookup_isSome, hlookup]
        rfl
      rw [hkeys] at hmem
      cases hmem
  · have hperm := (E.order docs.keys).2
    obtain ⟨t', n', hstats, ht', hloaded, hkept⟩ := run_loadStats (E := E) (s := ⟨t, n⟩)
      (E.order docs.keys).1
      (fun key c hc => by
        have hc := ((hdocs key c).mp hc).1
        dsimp only
        rw [hchild key c hc, readMark_keeps.1]
        exact (h.child key c hc).1)
      (hperm.nodup_iff.mpr docs.keys_nodup)
    have hround : (E.round uri projection s).store = t' := by
      have hload : (loadStatTask (fun _ => false) docs uri).run E.exec ⟨t, n⟩ =
          (.returned (), ⟨t', n'⟩) := by
        change Prog.run E.exec (loadStats (fun _ => false) docs (E.order docs.keys).1 >>= _)
          (⟨t, n⟩ : RoundState) = _
        rw [Prog.run_bind, hstats]
        rfl
      unfold Surroundings.round Surroundings.roundWith
      rw [hrun]
      dsimp only
      rw [htask hkeys]
      dsimp only
      rw [hload]
    refine ⟨t'.metadata, ?_, fun key c hc => ?_, fun c hc => ?_⟩
    · rw [hround, ht']
      change { t with metadata := t'.metadata } = _
      rw [ht]
    · rw [← hchild key c hc]
      split
      · rename_i hmissing
        have hlookup := (hdocs key c).mpr ⟨hc, hmissing⟩
        have hmem : key ∈ (E.order docs.keys).1 := by
          rw [hperm.mem_iff, ← AList.mem_keys, ← AList.lookup_isSome, hlookup]
          rfl
        exact hloaded key hmem c hlookup
      · rename_i hmissing
        exact hkept c fun k _ hk => hmissing ((hdocs k c).mp hk).2
    · rw [hkept c fun k _ hk => hc k ((hdocs k c).mp hk).1]
      exact hrest c hc

variable (projection) in
/-- **A round** takes every child to its next phase, and keeps the folder
cached. -/
theorem round_spec (h : E.Cached uri r children s.store) :
    E.Cached uri r children (E.round uri projection s).store ∧
      ∀ key c, children.lookup key = some c →
        statPhase ((E.round uri projection s).store.metadata c) =
          (statPhase (s.store.metadata c)).next (E.outcome key).isOk := by
  obtain ⟨metadata, hstore, hchild, hrest⟩ := round_metadata projection h
  rw [hstore]
  -- the folder is no file, so it is not touched where it is its own child
  have hr : metadata r = s.store.metadata r := by
    by_cases hchildren : ∃ key, children.lookup key = some r
    · obtain ⟨key, hkey⟩ := hchildren
      have hfile : (s.store.metadata r).entry.type ≠ .file := by
        intro hfile
        have hfolder := h.folder
        rw [getMimeType, hfile] at hfolder
        cases hfolder
      have hspec := hchild key r hkey
      rw [if_neg (by rw [statPhase, if_neg (fun h => hfile h.1)]; exact nofun), readMark,
        if_neg (fun h => hfile h.1)] at hspec
      exact hspec
    · exact hrest r fun key hkey => hchildren ⟨key, hkey⟩
  refine ⟨⟨h.authority, h.cache, ?_, ?_, ?_, ?_, fun key c hc => ?_⟩, fun key c hc =>
    (statPhase_round (hchild key c hc)).1⟩
  · dsimp only
    rw [hr]
    exact h.folder
  · dsimp only
    rw [hr]
    exact h.fresh
  · dsimp only
    rw [hr]
    exact h.noException
  · dsimp only
    rw [hr]
    exact h.loaded
  · obtain ⟨_, huri, hentry⟩ := statPhase_round (hchild key c hc)
    dsimp only
    rw [huri, hentry]
    exact h.child key c hc

theorem quiet_iff (h : E.Cached uri r children s.store) :
    E.Quiet uri projection s ↔
      ∀ key c, children.lookup key = some c → statPhase (s.store.metadata c) ≠ .missing := by
  obtain ⟨cursor, docs, t, n, hrun, hempty, htask, _, hdocs, _, _⟩ :=
    run_query projection h
  unfold Surroundings.Quiet
  rw [hrun]
  constructor
  · rintro ⟨cursor', hcursor, hnone, _⟩ key c hc hmissing
    obtain rfl := Result.returned.inj hcursor
    have hlookup := (hdocs key c).mpr ⟨hc, hmissing⟩
    have hne : docs.keys ≠ [] := by
      intro hkeys
      have hmem : key ∈ docs.keys := by
        rw [← AList.mem_keys, ← AList.lookup_isSome, hlookup]
        rfl
      rw [hkeys] at hmem
      cases hmem
    rw [htask hne] at hnone
    cases hnone
  · intro hall
    have hkeys : docs.keys = [] := by
      refine List.eq_nil_iff_forall_not_mem.mpr fun key hkey => ?_
      rw [← AList.mem_keys, ← AList.lookup_isSome, Option.isSome_iff_exists] at hkey
      obtain ⟨c, hc⟩ := hkey
      obtain ⟨hc, hmissing⟩ := (hdocs key c).mp hc
      exact hall key c hc hmissing
    exact ⟨cursor, rfl, hempty hkeys⟩

variable (projection) in
/-- **After some rounds** every child is in the phase its own rounds lead
to. -/
theorem iterate_spec (h : E.Cached uri r children s.store) (n : ℕ) :
    E.Cached uri r children ((E.round uri projection)^[n] s).store ∧
      ∀ key c, children.lookup key = some c →
        statPhase (((E.round uri projection)^[n] s).store.metadata c) =
          (StatPhase.next (E.outcome key).isOk)^[n] (statPhase (s.store.metadata c)) := by
  induction n with
  | zero => exact ⟨h, fun _ _ _ => rfl⟩
  | succ n ih =>
    rw [Function.iterate_succ_apply']
    obtain ⟨hcached, hphase⟩ := round_spec projection ih.1
    refine ⟨hcached, fun key c hc => ?_⟩
    rw [hphase key c hc, ih.2 key c hc, Function.iterate_succ_apply']

theorem isOk_eq_false_iff {answer : Except Exn StructStat} :
    answer.isOk = false ↔ ∀ stat, answer ≠ .ok stat := by
  rcases answer with x | stat
  · exact ⟨fun _ => nofun, fun _ => rfl⟩
  · exact ⟨nofun, fun h => absurd rfl (h stat)⟩

theorem quiesces_iff_phases (h : E.Cached uri r children s.store) :
    E.Quiesces uri projection s ↔ ∃ n, ∀ key c, children.lookup key = some c →
      (StatPhase.next (E.outcome key).isOk)^[n] (statPhase (s.store.metadata c)) ≠ .missing := by
  refine exists_congr fun n => ?_
  obtain ⟨hcached, hphase⟩ := iterate_spec projection h n
  rw [quiet_iff hcached]
  constructor
  · intro hall key c hc
    rw [← hphase key c hc]
    exact hall key c hc
  · intro hall key c hc
    rw [hphase key c hc]
    exact hall key c hc

/-- **The rounds end in a quiet query**, if and only if the files whose
stat cannot be loaded are in step. -/
theorem quiesces_iff_inStep (h : E.Cached uri r children s.store) :
    E.Quiesces uri projection s ↔ InStep E children s.store := by
  -- the children with their keys
  let ι := { p : Uri × Ref // children.lookup p.1 = some p.2 }
  have hindex := StatPhase.exists_iterate_ne_missing_iff
    (fun i : ι => statPhase (s.store.metadata i.1.2)) fun i : ι => (E.outcome i.1.1).isOk
  rw [quiesces_iff_phases h]
  constructor
  · rintro ⟨n, hn⟩ key c key' c' hc hc' hfails hfails'
    exact hindex.mp ⟨n, fun ⟨⟨k, d⟩, hd⟩ => hn k d hd⟩ ⟨(key, c), hc⟩ ⟨(key', c'), hc'⟩
      (isOk_eq_false_iff.mpr hfails) (isOk_eq_false_iff.mpr hfails')
  · intro hstep
    obtain ⟨n, hn⟩ := hindex.mpr fun ⟨⟨key, c⟩, hc⟩ ⟨⟨key', c'⟩, hc'⟩ hfails hfails' =>
      hstep key c key' c' hc hc' (isOk_eq_false_iff.mp hfails) (isOk_eq_false_iff.mp hfails')
    exact ⟨n, fun key c hc => hn ⟨(key, c), hc⟩⟩

end Query

/-! ## Three files -/

namespace Surroundings

/-- A share, and a file in it. -/
def media : Uri := Uri.ofShare "nas" "media"

def mediaFile (name : String) : Uri := media.appendPath name

/-- The stat of one file can be loaded, and that of no other. -/
def oneReadable : Surroundings where
  outcome u := if u = mediaFile "b" then .ok ⟨0o100644, 0, 0⟩ else .error ⟨.authFailed, ""⟩
  order keys := ⟨keys, .refl keys⟩
  clock _ := 0

/-- The children of the share. -/
def threeFiles : ChildMap :=
  ((AList.insert (mediaFile "c") 3 ∅).insert (mediaFile "b") 2).insert (mediaFile "a") 1

def fileMetadata (name : String) : DocumentMetadata :=
  ⟨mediaFile name, ⟨.file, "", some name⟩, none, none, none, none, 0⟩

/-- The share, just listed. -/
def listedShare : RoundState where
  store :=
    { metadata := fun r => match r with
        | 0 => ⟨media, ⟨.fileShare, "", some "media"⟩, none, some 0, none, none, 0⟩
        | 1 => fileMetadata "a"
        | 2 => fileMetadata "b"
        | _ => fileMetadata "c"
      maps := fun _ _ => threeFiles
      nextRef := 4
      nextMap := 1
      cache := fun u => if u = media then some 0 else none
      exceptions := fun _ => none }
  ticks := 0

theorem lookup_threeFiles {key : Uri} {c : Ref} (h : threeFiles.lookup key = some c) :
    (key = mediaFile "a" ∧ c = 1) ∨ (key = mediaFile "b" ∧ c = 2) ∨
      (key = mediaFile "c" ∧ c = 3) := by
  unfold threeFiles at h
  by_cases ha : key = mediaFile "a"
  · rw [ha, AList.lookup_insert] at h
    exact .inl ⟨ha, (Option.some.inj h).symm⟩
  · rw [AList.lookup_insert_ne ha] at h
    by_cases hb : key = mediaFile "b"
    · rw [hb, AList.lookup_insert] at h
      exact .inr (.inl ⟨hb, (Option.some.inj h).symm⟩)
    · rw [AList.lookup_insert_ne hb] at h
      by_cases hc : key = mediaFile "c"
      · rw [hc, AList.lookup_insert] at h
        exact .inr (.inr ⟨hc, (Option.some.inj h).symm⟩)
      · rw [AList.lookup_insert_ne hc, AList.lookup_empty] at h
        cases h

theorem cached_listedShare : oneReadable.Cached media 0 threeFiles listedShare.store where
  authority := by decide
  cache := by decide
  folder := rfl
  fresh _ := show ¬ ((0 : ℤ) + 60000 < 0) by decide
  noException := rfl
  loaded := ⟨0, rfl, rfl⟩
  child key c h := by
    rcases lookup_threeFiles h with ⟨rfl, rfl⟩ | ⟨rfl, rfl⟩ | ⟨rfl, rfl⟩
    all_goals exact ⟨rfl, by decide⟩

/-- The files are in step when they have just been listed. -/
theorem quiesces_listedShare : oneReadable.Quiesces media none listedShare := by
  refine (quiesces_iff_inStep cached_listedShare).mpr ?_
  intro key c key' c' hc hc' _ _ _ _
  rcases lookup_threeFiles hc with ⟨rfl, rfl⟩ | ⟨rfl, rfl⟩ | ⟨rfl, rfl⟩
  all_goals
    rcases lookup_threeFiles hc' with ⟨rfl, rfl⟩ | ⟨rfl, rfl⟩ | ⟨rfl, rfl⟩
    all_goals rfl

/-- The share, after a task that is cancelled behind the second of its
files. -/
def cancelledShare : RoundState := oneReadable.roundWith (· = mediaFile "b") media none listedShare

/-- **Two files out of step** keep the rounds going. -/
theorem not_quiesces_cancelledShare : ¬ oneReadable.Quiesces media none cancelledShare := by
  have hcached : oneReadable.Cached media 0 threeFiles cancelledShare.store :=
    { authority := by decide
      cache := by decide
      folder := by decide
      fresh := fun _ => by
        change ¬ (cancelledShare.store.metadata 0).timeStamp + 60000 < 0
        decide
      noException := by decide
      loaded := ⟨0, by decide, AList.ext (by decide)⟩
      child := fun key c h => by
        rcases lookup_threeFiles h with ⟨rfl, rfl⟩ | ⟨rfl, rfl⟩ | ⟨rfl, rfl⟩
        all_goals exact ⟨by decide, by decide⟩ }
  have ha : statPhase (cancelledShare.store.metadata 1) = .missing := by decide
  have hc : statPhase (cancelledShare.store.metadata 3) = .marked := by decide
  have hfails : (oneReadable.outcome (mediaFile "a")).isOk = false ∧
      (oneReadable.outcome (mediaFile "c")).isOk = false := by decide
  rw [quiesces_iff_phases hcached]
  rintro ⟨n, hn⟩
  have hna := hn (mediaFile "a") 1 (by decide)
  have hnc := hn (mediaFile "c") 3 (by decide)
  rw [ha, hfails.1] at hna
  rw [hc, hfails.2] at hnc
  -- of the two, one is missing before every round
  have hstep := StatPhase.exists_iterate_ne_missing_iff
    (fun loaded : Bool => if loaded then .marked else .missing) (fun _ => false) |>.mp
      ⟨n, fun loaded => by cases loaded <;> assumption⟩
  exact absurd (hstep true false rfl rfl nofun nofun) nofun

end Surroundings

end SambaProvider

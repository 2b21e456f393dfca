import SambaProvider.Document.Session
import SambaProvider.Lib.Run

/-!
# What is left of an old location

After a rename, a move or a deletion nothing in the cache should be at
the old location or below it. The operations take out one URI, so this
holds where nothing else was cached there, or a deletion has gone through
all of it; and where what the children maps hold is cached as well, which
is what a session has to keep.
-/

namespace SambaProvider

open Lib TreeIndex

/-- `k` is `d` or lies strictly below it. -/
def AtOrBelow (d k : Uri) : Prop := k = d ∨ Uri.StrictlyBelow d k

/-- The metadata objects found from the cache, through loaded children
maps to any depth. -/
inductive Store.Reaches (s : Store) : Ref → Prop
  | cached {u : Uri} {r : Ref} : s.cache u = some r → s.Reaches r
  | child {p : Ref} {g : MapId} {k : Uri} {c : Ref} :
    s.Reaches p → (s.metadata p).children = some g → (s.maps p g).lookup k = some c →
    s.Reaches c

/-- No key of the cache, no key of the children map of what is cached and
no URI of what the cache reaches is at `d` or below it. -/
structure Store.Cleared (s : Store) (d : Uri) : Prop where
  keys : ∀ k r, s.cache k = some r → ¬ AtOrBelow d k
  childKeys : ∀ u p g k c, s.cache u = some p → (s.metadata p).children = some g →
    (s.maps p g).lookup k = some c → ¬ AtOrBelow d k
  uris : ∀ r, s.Reaches r → ¬ AtOrBelow d (s.metadata r).uri

/-- The operation is to clear `d`: its deletion, or a rename or a move to
another URI. -/
def Operation.Vacates (op : Operation) (d : Uri) : Prop :=
  op = .deleteDocument d ∨ ∃ v, op.renaming = some (d, some v) ∧ v ≠ d

/-! ## The conditions -/

/-- Nothing is cached strictly below `d`. -/
def Store.NothingBelow (s : Store) (d : Uri) : Prop :=
  ∀ k r, s.cache k = some r → ¬ Uri.StrictlyBelow d k

/-- The listing is of children of its directory. -/
def ListsChildren (_ : TreeIndex Uri) (u : Uri) (L : List DirectoryEntry) : Prop :=
  ∀ k ∈ childUris u L, k.buildParentUri = u

/-- The condition on an operation before: a rename carries no children,
and the listings are of children. -/
def KeepsShared (s : Store) (a : Activity) : Prop :=
  (∀ u v, a.op.renaming = some (u, some v) → a.scenario.fault 0 = none →
    CarriesNothing s.index u v) ∧
  a.ListsWell ListsChildren s

/-- The condition on the operation itself: nothing is cached strictly
below `d`, and it does not move there; or a deletion finds a directory,
with all that is cached strictly below it, and nothing missing. -/
def ClearsBelow (s : Store) (a : Activity) (d : Uri) : Prop :=
  (s.NothingBelow d ∧ ∀ v, a.op.renaming = some (d, some v) → s.cache d ≠ none →
    ¬ Uri.StrictlyBelow d v) ∨
  (a.op = .deleteDocument d ∧ (a.scenario.stat d).isDir ∧
    (∀ n x, a.scenario.fault n = some x → x.isFileNotFound = false) ∧
    ∃ tree, a.scenario.Static tree ∧
      ∀ k r, s.cache k = some r → Uri.StrictlyBelow d k → ListedBelow tree d k)

/-! ## One operation -/

variable {s s' : Store} {a : Activity} {res : Result Exn Unit} {i j : TreeIndex Uri}
  {d u v k : Uri} {r : Ref}

theorem kept_shared : Kept Shared ListsChildren where
  initial hnone k p hp := absurd ((hnone k).symm.trans hp) nofun
  parent hcond := hcond
  harmless hK hO hij hS := (hij hK hO).2.2.2 hS
  load hK hO hr hcond hload hS := (loaded_agree hK hO hr hcond hload).2.2.2 hS
  allPut hr hK hO hload hput hS := (allPut_agree hr hK hO hload hput).2.2.2 hS
  remove hK hO hpar hS := Shared.drop hK.remove hO.remove (fun k hk => by
    rw [hpar k hk]
    exact flat_remove_self) (hS.remove hK hO)

/-- What the children maps hold is cached, the same object. -/
abbrev Shares (i : TreeIndex Uri) : Prop := Holds Shared ∅ i

theorem Shares.updated (h : Shares i) (hu : u.getPathSegments ≠ []) (hc : CarriesNothing i u v)
    (hij : Updated i u v j) : Shares j :=
  ⟨keyed_updated h.keyed hij, owned_updated h.keyed h.owned hc hij,
    shared_updated hu h.keyed h.owned h.children hc hij⟩

/-! ## Clearing a location -/

/-- Where the children are cached, only the keys of the cache matter. -/
theorem Shares.cleared (h : Shares s.index)
    (hkeys : ∀ k r, s.cache k = some r → ¬ AtOrBelow d k) : s.Cleared d := by
  have hchild {u k : Uri} {p c : Ref} {g : MapId} (hp : s.cache u = some p)
      (hg : (s.metadata p).children = some g) (hc : (s.maps p g).lookup k = some c) :
      s.cache k = some c := by
    have hchildren : s.index.children p = some fun k => (s.maps p g).lookup k := by
      simp [Store.index, hg]
    exact h.children u p hp _ hchildren k c hc (Set.notMem_empty k)
  have hcached {r : Ref} (hr : s.Reaches r) : ∃ k, s.cache k = some r := by
    induction hr with
    | cached hr => exact ⟨_, hr⟩
    | child _ hg hc ih =>
      obtain ⟨u, hu⟩ := ih
      exact ⟨_, hchild hu hg hc⟩
  refine ⟨hkeys, fun u p g k c hp hg hc => hkeys k c (hchild hp hg hc), fun r hr => ?_⟩
  obtain ⟨k, hk⟩ := hcached hr
  have hkey : (s.metadata r).uri = k := h.keyed.key_eq hk
  rw [hkey]
  exact hkeys k r hk

/-- A document with nothing cached below it has no children loaded. -/
theorem Shares.carriesNothing (h : Shares s.index) (hu : u.getPathSegments ≠ [])
    (hbelow : s.NothingBelow u) : CarriesNothing s.index u v := by
  refine .inr fun r hr m hm k => ?_
  cases hc : m k with
  | none => rfl
  | some c =>
    have hpar := (h.owned u r hr m hm k c hc).2.1
    rw [h.keyed.key_eq hr] at hpar
    have hcached := h.children u r hr m hm k c hc (Set.notMem_empty k)
    exact absurd (Uri.strictlyBelow_of_buildParentUri hu hpar) (hbelow k c hcached)

/-- What is indexed after a rename was so before, or is the renamed
document under its new URI. -/
theorem flat_updated {c : Ref} (hij : Updated i u v j) (h : j.flat k = some c) :
    (k ≠ u ∧ i.flat k = some c) ∨ (k = v ∧ i.flat u ≠ none) := by
  rcases hij with ⟨hnone, rfl⟩ | ⟨r, hr, rfl⟩
  · refine .inl ⟨?_, h⟩
    rintro rfl
    cases hnone.symm.trans h
  · rcases flat_put h with ⟨rfl, _⟩ | ⟨_, hk⟩
    · exact .inr ⟨key_detach_self, by rw [hr]; nofun⟩
    · exact .inl (flat_detach hk)

/-- **One operation that vacates `d`** clears it where the condition
holds. -/
theorem Shares.cleared_of_completes (h : Shares s.index) (hvacates : a.op.Vacates d)
    (hclears : ClearsBelow s a d) (hstep : CompletesWith s a (.returned ()) s') :
    s'.Cleared d := by
  rcases hvacates with hop | ⟨v, hren, hne⟩
  · have hs' : Shares s'.index :=
      h.harmless kept_shared (harmless_of_completes (by rw [hop]; trivial) ⟨_, hstep⟩)
    obtain ⟨us, hindex, hreturned⟩ := removed_of_completes hop hstep
    obtain ⟨_, hd, hcovered⟩ := hreturned rfl
    refine hs'.cleared fun k r hk => ?_
    have hk' : (removeAll us s.index).flat k = some r := hindex ▸ hk
    obtain ⟨hus, hflat⟩ := flat_removeAll hk'
    rintro (rfl | hbelow)
    · exact hus hd
    rcases hclears with ⟨hnothing, _⟩ | ⟨_, hdir, hmissing, tree, hstatic, hlisted⟩
    · exact hnothing k r hflat hbelow
    · exact hus (hcovered hdir hmissing k (.inr ⟨tree, hstatic, hlisted k r hflat hbelow⟩))
  · rcases hclears with ⟨hnothing, hinside⟩ | ⟨hop, _⟩
    swap
    · rw [hop] at hren
      cases hren
    have hseg := getPathSegments_ne_nil_of_renaming hren
    rcases updated_of_completes hren hstep with ⟨_, hres⟩ | ⟨v', hv', _, hupdated⟩
    · exact absurd rfl hres
    obtain rfl := Option.some.inj hv'
    have hs' := h.updated hseg (h.carriesNothing hseg hnothing) hupdated
    refine hs'.cleared fun k r hk => ?_
    rcases flat_updated hupdated hk with ⟨hkd, hflat⟩ | ⟨rfl, hcached⟩
    · rintro (rfl | hbelow)
      · exact hkd rfl
      · exact hnothing k r hflat hbelow
    · rintro (hkd | hbelow)
      · exact hne hkd
      · exact hinside k hren hcached hbelow

/-! ## Sessions -/

/-- **Nothing of an old location is left** after a rename, a move or a
deletion that meets its condition, in every session whose operations
have met theirs. -/
theorem cleared_of_reached (h : Reached Completes KeepsShared Store.Initial s)
    (hvacates : a.op.Vacates d) (hclears : ClearsBelow s a d)
    (hstep : CompletesWith s a (.returned ()) s') : s'.Cleared d := by
  have hshares : Shares s.index := by
    refine h.inv (I := fun s => Shares s.index) (fun s hs => .initial kept_shared hs)
      fun s a s' hI hok ⟨res, hstep⟩ => ?_
    exact hI.completes kept_shared (fun u v j hren hfault =>
      hI.updated (getPathSegments_ne_nil_of_renaming hren) (hok.1 u v hren hfault)) hok.2 hstep
  exact hshares.cleared_of_completes hvacates hclears hstep

/-- A directory with loaded children is deleted, and has them all. -/
theorem cleared_deleted :
    loadedStore.cache ((inHomes "a").appendPath "b") = some 1 ∧
      deletedStore.Cleared (inHomes "a") := by
  have hstart : Reached Completes KeepsShared Store.Initial emptyStore := .start ⟨_, rfl⟩
  have hquery := hstart.next (a := queryA) ⟨_, completes_queryA⟩
    ⟨fun _ _ hop => (by cases hop), trivial⟩
  have hchildren : ListsChildren queriedStore.index (inHomes "a")
    (loadA.listing (inHomes "a")) := by unfold ListsChildren; decide
  have hload := hquery.next (a := loadA) ⟨_, completes_loadA⟩
    ⟨fun _ _ hop => (by cases hop), fun _ => ⟨fun hclose => hclose rfl, fun _ => hchildren⟩⟩
  have hb : ListedBelow (fun _ => [⟨.file, "", some "b"⟩]) (inHomes "a")
      ((inHomes "a").appendPath "b") :=
    .child (e := ⟨.file, "", some "b"⟩) (by decide)
  have hclears : ClearsBelow loadedStore deleteA (inHomes "a") := by
    refine .inr ⟨rfl, by decide, fun _ _ hx => (by cases hx), _, fun _ _ => rfl,
      fun k r hk hbelow => ?_⟩
    rcases eq_of_loadedStore hk with rfl | rfl
    · exact absurd hbelow Uri.not_strictlyBelow_self
    · exact hb
  exact ⟨by decide, cleared_of_reached hload (.inl rfl) hclears completes_deleteA⟩

/-- **A rename leaves the children at the old location**: they are cached
there still. -/
theorem not_cleared_renameLoaded :
    ∃ s s', Reached Completes (fun _ a => ∀ n, a.scenario.fault n = none) Store.Initial s ∧
      renameA.op.Vacates (inHomes "a") ∧ CompletesWith s renameA (.returned ()) s' ∧
      ¬ s'.Cleared (inHomes "a") := by
  have hrun : Reached Completes (fun _ a => ∀ n, a.scenario.fault n = none) Store.Initial
    emptyStore := .start ⟨_, rfl⟩
  have hrun := hrun.next (a := queryA) ⟨_, completes_queryA⟩ fun _ => rfl
  have hrun := hrun.next (a := loadA) ⟨_, completes_loadA⟩ fun _ => rfl
  refine ⟨loadedStore, renamedStore, hrun, .inr ⟨inHomes "c", by decide, by decide⟩,
    completes_renameA, fun h => ?_⟩
  exact h.keys ((inHomes "a").appendPath "b") 1 (by decide) (.inr (by decide))

end SambaProvider

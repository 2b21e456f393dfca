import SambaProvider.Document.Session
import SambaProvider.Lib.Run

/-!
# The cache and the listings

A document is found in the cache by its URI, and in the children map of
its parent, where that is loaded. Along a session the two agree as long
as no rename takes loaded children along and every listing that is
loaded names what is cached below its directory.
-/

namespace SambaProvider

open Lib TreeIndex

/-- For every cached `p` with a loaded children map: its entries carry the
URIs they are found under, and `p` is their parent; and what is cached
with `p` as its parent is an entry, the same object. -/
def Store.Coherent (s : Store) : Prop :=
  ∀ u p g, s.cache u = some p → (s.metadata p).children = some g →
    (∀ k c, (s.maps p g).lookup k = some c →
      (s.metadata c).uri = k ∧ k.buildParentUri = (s.metadata p).uri) ∧
    ∀ k c, s.cache k = some c → k.buildParentUri = (s.metadata p).uri →
      (s.maps p g).lookup k = some c

/-! ## The condition -/

/-- What is cached under `u` has no children loaded; or it has, and they
are none, and nothing is cached below `v`; or `v` is `u`. -/
def RenamesAlone (i : TreeIndex Uri) (u v : Uri) : Prop :=
  v = u ∨ ∀ r, i.flat u = some r → i.children r = none ∨
    ((∀ m, i.children r = some m → ∀ k, m k = none) ∧
      ∀ k c, i.flat k = some c → k ≠ u → k.buildParentUri ≠ v)

/-- The directory is the parent of what it lists, and lists what is
cached with it as the parent. -/
def ListsCached (i : TreeIndex Uri) (u : Uri) (L : List DirectoryEntry) : Prop :=
  (∀ k ∈ childUris u L, k.buildParentUri = u) ∧
    ∀ k c, i.flat k = some c → k.buildParentUri = u → k ∈ childUris u L

/-- The condition on an operation in the state it starts from. -/
def KeepsListings (s : Store) (a : Activity) : Prop :=
  (∀ u v, a.op.renaming = some (u, some v) → a.scenario.fault 0 = none →
    RenamesAlone s.index u v) ∧
  a.ListsWell ListsCached s

/-! ## One operation -/

variable {s s' : Store} {a : Activity} {i j : TreeIndex Uri} {u v : Uri} {r : Ref}

theorem kept_listed : Kept (Listed Uri.buildParentUri) ListsCached where
  initial hnone k p hp := absurd ((hnone k).symm.trans hp) nofun
  parent hcond := hcond.1
  harmless hK hO hij hL := (hij hK hO).2.2.1 hL
  load hK hO hr hcond hload hL :=
    (loaded_agree hK hO hr (fun hc => (hcond hc).1) hload).2.2.1 hL fun hc => (hcond hc).2
  allPut hr hK hO hload hput hL := (allPut_agree hr hK hO hload hput).2.2.1 hL
  remove hK _ hpar hL := Listed.drop hK.remove (fun k hk => by
    rw [hpar k hk]
    exact flat_remove_self) hL.remove

/-- The cache and the listings agree, as trees. -/
abbrev Agrees (i : TreeIndex Uri) : Prop := Holds (Listed Uri.buildParentUri) ∅ i

theorem Agrees.coherent (h : Agrees s.index) : s.Coherent := by
  intro u p g hp hg
  have hchildren : s.index.children p = some fun k => (s.maps p g).lookup k := by
    simp [Store.index, hg]
  refine ⟨fun k c hc => ?_, fun k c hc hpar => ?_⟩
  · obtain ⟨hkey, hpar, _⟩ := h.owned u p hp _ hchildren k c hc
    exact ⟨hkey, hpar⟩
  · exact h.children u p hp _ hchildren k c hc hpar (Set.notMem_empty k)

theorem RenamesAlone.carriesNothing (h : RenamesAlone i u v) : CarriesNothing i u v := by
  refine h.imp id fun h r hr m hm k => ?_
  rcases h r hr with hnone | ⟨hempty, _⟩
  · exact absurd (hnone.symm.trans hm) nofun
  · exact hempty m hm k

theorem Agrees.updated (h : Agrees i) (halone : RenamesAlone i u v) (hij : Updated i u v j) :
    Agrees j := by
  refine ⟨keyed_updated h.keyed hij, owned_updated h.keyed h.owned halone.carriesNothing hij,
    listed_updated h.keyed h.children ?_ hij⟩
  refine halone.imp id fun halone => ?_
  cases hr : i.flat u with
  | none => exact .inl nofun
  | some r =>
    rcases halone r hr with hnone | ⟨_, hbelow⟩
    · refine .inl fun r' hr' => ?_
      obtain rfl := Option.some.inj hr'
      exact hnone
    · exact .inr hbelow

/-! ## Sessions -/

/-- **The cache and the listings agree** after every session whose
operations meet the condition. -/
theorem coherent_of_reached (h : Reached Completes KeepsListings Store.Initial s) :
    s.Coherent := by
  refine Agrees.coherent (h.inv (I := fun s => Agrees s.index)
    (fun s hs => .initial kept_listed hs) fun s a s' hI hok ⟨res, hstep⟩ => ?_)
  exact hI.completes kept_listed (fun u v j hren hfault => hI.updated (hok.1 u v hren hfault))
    hok.2 hstep

/-- A directory is queried, and its children are loaded. -/
theorem coherent_loaded :
    loadedStore.cache (inHomes "a") = some 0 ∧ (loadedStore.metadata 0).children = some 0 ∧
      loadedStore.Coherent := by
  have hstart : Reached Completes KeepsListings Store.Initial emptyStore := .start ⟨_, rfl⟩
  have hquery := hstart.next (a := queryA) ⟨_, completes_queryA⟩
    ⟨fun _ _ hop => (by cases hop), trivial⟩
  have hlists : ListsCached queriedStore.index (inHomes "a") (loadA.listing (inHomes "a")) := by
    refine ⟨by decide, fun k c hc hpar => ?_⟩
    obtain rfl := eq_of_queriedStore hc
    exact absurd hpar (by decide)
  have hload := hquery.next (a := loadA) ⟨_, completes_loadA⟩
    ⟨fun _ _ hop => (by cases hop), fun _ => ⟨fun hclose => hclose rfl, fun _ => hlists⟩⟩
  exact ⟨by decide, by decide, coherent_of_reached hload⟩

/-- **A rename takes the loaded children along**, under their old URIs. -/
theorem not_coherent_renameLoaded :
    ∃ s, Reached Completes (fun _ a => ∀ n, a.scenario.fault n = none) Store.Initial s ∧
      ¬ s.Coherent := by
  have hrun : Reached Completes (fun _ a => ∀ n, a.scenario.fault n = none) Store.Initial
    emptyStore := .start ⟨_, rfl⟩
  have hrun := hrun.next (a := queryA) ⟨_, completes_queryA⟩ fun _ => rfl
  have hrun := hrun.next (a := loadA) ⟨_, completes_loadA⟩ fun _ => rfl
  have hrun := hrun.next (a := renameA) ⟨_, completes_renameA⟩ fun _ => rfl
  refine ⟨renamedStore, hrun, fun h => ?_⟩
  have hentry := (h (inHomes "c") 0 0 (by decide) (by decide)).1
    ((inHomes "a").appendPath "b") 1 (by decide)
  exact absurd hentry.2 (by decide)

end SambaProvider

import Mathlib.Order.BooleanAlgebra.Set
import SambaProvider.Document.Deletion

/-!
# Which changes keep the two trees in agreement

For each change of the index, what keeps the flat index and the children
maps in agreement. A new document, a removal and forgotten children keep
it; a rename needs a document without loaded children, and a load needs
a listing that names what is indexed below the directory.
-/

namespace SambaProvider

open Lib TreeIndex

variable {i j : TreeIndex Uri} {r : Ref} {u v k : Uri} {L : List DirectoryEntry} {us : List Uri}

abbrev OwnedIndex (i : TreeIndex Uri) : Prop := Owned Uri.buildParentUri i

abbrev ListedIndex (i : TreeIndex Uri) : Prop := Listed Uri.buildParentUri ∅ i

abbrev SharedIndex (i : TreeIndex Uri) : Prop := Shared ∅ i

/-! ## A new document -/

section InsertNew

theorem ownedBy_of_children_eq_none (h : i.children r = none) :
    OwnedBy Uri.buildParentUri i r := fun _ hm => absurd (h.symm.trans hm) nofun

theorem keyed_insertNew (hK : i.Keyed) : (insertNew i u).Keyed :=
  (hK.extend extends_add).put size_lt_size_add

theorem owned_insertNew (hK : i.Keyed) (hO : OwnedIndex i) : OwnedIndex (insertNew i u) :=
  (hO.extend extends_add hK).put size_lt_size_add (hK.extend extends_add)
    (ownedBy_of_children_eq_none children_add_size)

theorem listed_insertNew (hK : i.Keyed) (hL : ListedIndex i) : ListedIndex (insertNew i u) := by
  refine Listed.mono Set.sdiff_subset ((hL.extend extends_add hK).put size_lt_size_add
    (hK.extend extends_add) fun m hm => ?_)
  exact absurd (children_add_size.symm.trans hm) nofun

theorem shared_insertNew (hK : i.Keyed) (hO : OwnedIndex i) (hS : SharedIndex i) :
    SharedIndex (insertNew i u) := by
  refine Shared.mono Set.sdiff_subset ((hS.extend extends_add hK).put size_lt_size_add
    (hK.extend extends_add) (ownedBy_of_children_eq_none children_add_size)
    (hO.extend extends_add hK) fun m hm => ?_)
  exact absurd (children_add_size.symm.trans hm) nofun

end InsertNew

/-! ## Changes that keep everything -/

section Harmless

/-- A change that keeps what is owned, listed and shared. -/
def Harmless (i j : TreeIndex Uri) : Prop :=
  i.Keyed → OwnedIndex i →
    j.Keyed ∧ OwnedIndex j ∧ (ListedIndex i → ListedIndex j) ∧ (SharedIndex i → SharedIndex j)

theorem Harmless.refl : Harmless i i := fun hK hO => ⟨hK, hO, id, id⟩

theorem Harmless.trans {l : TreeIndex Uri} (h : Harmless i j) (h' : Harmless j l) :
    Harmless i l := by
  intro hK hO
  obtain ⟨hKj, hOj, hL, hS⟩ := h hK hO
  obtain ⟨hKl, hOl, hL', hS'⟩ := h' hKj hOj
  exact ⟨hKl, hOl, fun h => hL' (hL h), fun h => hS' (hS h)⟩

theorem harmless_insertNew : Harmless i (insertNew i u) := fun hK hO =>
  ⟨keyed_insertNew hK, owned_insertNew hK hO, listed_insertNew hK, shared_insertNew hK hO⟩

theorem harmless_extends (h : i.Extends j) : Harmless i j := fun hK hO =>
  ⟨hK.extend h, hO.extend h hK, fun hL => hL.extend h hK, fun hS => hS.extend h hK⟩

theorem harmless_forget : Harmless i (i.setChildren r none) := fun hK hO =>
  ⟨hK.setChildren, hO.forget, fun hL => hL.forget, fun hS => hS.forget⟩

theorem harmless_remove : Harmless i (i.remove Uri.buildParentUri u) := fun hK hO =>
  ⟨hK.remove, hO.remove, fun hL => hL.remove, fun hS => hS.remove hK hO⟩

theorem harmless_removeAll : Harmless i (removeAll us i) := by
  induction us generalizing i with
  | nil => exact .refl
  | cons u us ih => exact harmless_remove.trans ih

end Harmless

/-! ## Removals -/

/-- A removal leaves less indexed. -/
theorem flat_removeAll {c : Ref} (h : (removeAll us i).flat k = some c) :
    k ∉ us ∧ i.flat k = some c := by
  rw [flat_removeAll_eq] at h
  split at h
  · cases h
  · exact ⟨‹_›, h⟩

/-! ## A rename

A document without loaded children carries nothing along. One whose
loaded children are none does not either, but then what is indexed below
its new URI is not among them. -/

section Rename

/-- The children of the renamed document are those it had. -/
theorem children_detach (hK : i.Keyed) (hr : i.flat u = some r) :
    (i.detach Uri.buildParentUri r u v).children r = i.children r := by
  change (if (i.detach Uri.buildParentUri r u v).flat (Uri.buildParentUri u) = some r then _
    else _) = _
  rw [if_neg fun h => ne_of_flat_detach hK hr h rfl]
  rfl

theorem key_detach_same (hK : i.Keyed) (hr : i.flat u = some r) :
    (i.detach Uri.buildParentUri r u u).key = i.key := by
  funext p
  by_cases hp : p = r
  · subst hp
    rw [key_detach_self, hK.key_eq hr]
  · exact key_detach hp

/-- No child has been loaded, or the document keeps its URI. -/
def CarriesNothing (i : TreeIndex Uri) (u v : Uri) : Prop :=
  v = u ∨ ∀ r, i.flat u = some r → ∀ m, i.children r = some m → ∀ k, m k = none

theorem ownedBy_detach (hK : i.Keyed) (hO : OwnedIndex i) (hr : i.flat u = some r)
    (h : CarriesNothing i u v) :
    OwnedBy Uri.buildParentUri (i.detach Uri.buildParentUri r u v) r := by
  intro m hm k c hc
  rw [children_detach hK hr] at hm
  rcases h with rfl | h
  · rw [key_detach_same hK hr]
    exact hO _ r hr m hm k c hc
  · rw [h r hr m hm k] at hc
    cases hc

theorem keyed_updated (hK : i.Keyed) (h : Updated i u v j) : j.Keyed := by
  rcases h with ⟨_, rfl⟩ | ⟨r, hr, rfl⟩
  · exact hK
  · exact (hK.detach hr).put (hK.lt_size hr)

theorem owned_updated (hK : i.Keyed) (hO : OwnedIndex i) (hc : CarriesNothing i u v)
    (h : Updated i u v j) : OwnedIndex j := by
  rcases h with ⟨_, rfl⟩ | ⟨r, hr, rfl⟩
  · exact hO
  · exact (hO.detach hK hr).put (hK.lt_size hr) (hK.detach hr) (ownedBy_detach hK hO hr hc)

/-- **A rename keeps the listings**, if the document carries no children
map along, or keeps its URI, or nothing is indexed below its new one. -/
theorem listed_updated (hK : i.Keyed) (hL : ListedIndex i)
    (hc : v = u ∨ (∀ r, i.flat u = some r → i.children r = none) ∨
      ∀ k c, i.flat k = some c → k ≠ u → Uri.buildParentUri k ≠ v)
    (h : Updated i u v j) : ListedIndex j := by
  rcases h with ⟨_, rfl⟩ | ⟨r, hr, rfl⟩
  · exact hL
  refine Listed.mono Set.sdiff_subset ((hL.detach hK hr).put (hK.lt_size hr) (hK.detach hr) ?_)
  intro m hm k c hk hpar _
  rw [children_detach hK hr] at hm
  obtain ⟨hne, hflat⟩ := flat_detach hk
  rcases hc with rfl | hnone | hbelow
  · rw [key_detach_same hK hr] at hpar
    exact hL _ r hr m hm k c hflat hpar (Set.notMem_empty k)
  · exact absurd ((hnone r hr).symm.trans hm) nofun
  · rw [key_detach_self] at hpar
    exact absurd hpar (hbelow k c hflat hne)

theorem shared_updated (hu : u.getPathSegments ≠ []) (hK : i.Keyed) (hO : OwnedIndex i)
    (hS : SharedIndex i) (hc : CarriesNothing i u v) (h : Updated i u v j) : SharedIndex j := by
  rcases h with ⟨_, rfl⟩ | ⟨r, hr, rfl⟩
  · exact hS
  refine Shared.mono Set.sdiff_subset ((hS.detach hK hO).put (hK.lt_size hr) (hK.detach hr)
    (ownedBy_detach hK hO hr hc) (hO.detach hK hr) ?_)
  intro m hm k c hck _
  rw [children_detach hK hr] at hm
  rcases hc with rfl | hnone
  · -- The document is no child of its own.
    have hne : k ≠ v := by
      rintro rfl
      have hself := (hO _ r hr m hm _ c hck).2.1
      rw [hK.key_eq hr] at hself
      exact Uri.not_strictlyBelow_self (Uri.strictlyBelow_of_buildParentUri hu hself)
    exact (flat_remove_of_ne hne).trans (hS _ r hr m hm k c hck (Set.notMem_empty k))
  · rw [hnone r hr m hm k] at hck
    cases hck

end Rename

/-! ## A load -/

section Load

/-- The keys of the loaded children. -/
abbrev loadedKeys (u : Uri) (L : List DirectoryEntry) : Set Uri := {k | k ∈ childUris u L}

/-- **A load** keeps what is owned if the directory is the parent of every
child it lists, as far as it is indexed. -/
theorem loaded_agree (hK : i.Keyed) (hO : OwnedIndex i) (hr : r < i.size)
    (hparent : i.flat (i.key r) = some r →
      ∀ k ∈ childUris (i.key r) L, Uri.buildParentUri k = i.key r)
    (h : Loaded i r L j) :
    j.Keyed ∧ OwnedIndex j ∧
      (ListedIndex i →
        (i.flat (i.key r) = some r → ∀ k c, i.flat k = some c →
          Uri.buildParentUri k = i.key r → k ∈ childUris (i.key r) L) →
        Listed Uri.buildParentUri (loadedKeys (i.key r) L) j) ∧
      (SharedIndex i → Shared (loadedKeys (i.key r) L) j) := by
  obtain ⟨l, m, hfresh, rfl⟩ := h
  have hext := hfresh.grown
  have hKl := hK.extend hext
  have hmem {k : Uri} {c : Ref} (hc : m k = some c) : k ∈ childUris (i.key r) L :=
    (hfresh.isSome_iff k).mp (by rw [hc]; rfl)
  have hindexed (h : l.flat (l.key r) = some r) : i.flat (i.key r) = some r := by
    rwa [hext.flat_eq, hext.key_eq hr] at h
  refine ⟨hKl.setChildren, ?_, fun hL hbelow => ?_, fun hS => ?_⟩
  · refine (hO.extend hext hK).load hKl fun h k c hc => ?_
    obtain ⟨hkey, _, hlt, _⟩ := hfresh.fresh hc
    rw [hext.key_eq hr]
    exact ⟨hkey, hparent (hindexed h) k (hmem hc), hlt⟩
  · refine Listed.mono (Set.empty_union _).subset ((hL.extend hext hK).load hKl ?_)
    intro h k c hk hpar
    rw [hext.key_eq hr] at hpar
    rw [hext.flat_eq] at hk
    exact hbelow (hindexed h) k c hk hpar
  · exact Shared.mono (Set.empty_union _).subset
      ((hS.extend hext hK).load fun k c hc => hmem hc)

/-- **Indexing what was loaded** restores the agreement. -/
theorem allPut_agree {j' : TreeIndex Uri} (hr : r < i.size) (hK : j.Keyed) (hO : OwnedIndex j)
    (h : Loaded i r L j) (hput : AllPut j r j') :
    j'.Keyed ∧ OwnedIndex j' ∧
      (Listed Uri.buildParentUri (loadedKeys (i.key r) L) j → ListedIndex j') ∧
      (Shared (loadedKeys (i.key r) L) j → SharedIndex j') := by
  obtain ⟨l, m, hfresh, rfl⟩ := h
  obtain ⟨cs, hcs, rfl⟩ := hput
  have hchildren : (l.setChildren r (some m)).children r = some m := children_setChildren_self
  have hc {c : Ref} (hmem : c ∈ cs) : ∃ k, m k = some c := by
    obtain ⟨m', k, hm', hk⟩ := (hcs c).mp hmem
    rw [hchildren] at hm'
    obtain rfl := Option.some.inj hm'
    exact ⟨k, hk⟩
  have hready : ∀ c ∈ cs, c < (l.setChildren r (some m)).size ∧
      (l.setChildren r (some m)).children c = none := by
    intro c hmem
    obtain ⟨k, hk⟩ := hc hmem
    obtain ⟨_, hle, hlt, hnone⟩ := hfresh.fresh hk
    have hne : c ≠ r := (hr.trans_le hle).ne'
    exact ⟨hlt, (children_setChildren_of_ne hne).trans hnone⟩
  -- Every key that was loaded is the key of a node that is indexed.
  have hall : loadedKeys (i.key r) L \ {k | ∃ c ∈ cs, (l.setChildren r (some m)).key c = k} ⊆
      ∅ := by
    rintro k ⟨hk, hno⟩
    obtain ⟨c, hck⟩ := Option.isSome_iff_exists.mp ((hfresh.isSome_iff k).mpr hk)
    exact hno ⟨c, (hcs c).mpr ⟨m, k, hchildren, hck⟩, (hfresh.fresh hck).1⟩
  obtain ⟨hK', hO', hL', hS'⟩ := puts_agree hready hK hO
  exact ⟨hK', hO', fun hL => (hL' hL).mono hall, fun hS => (hS' hS).mono hall⟩

end Load

end SambaProvider

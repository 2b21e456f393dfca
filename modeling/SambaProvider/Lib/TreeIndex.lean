import Mathlib.Data.Set.Basic
import Mathlib.Logic.Function.Basic

/-!
# A tree kept twice

Nodes are found in two ways: by their key, in one flat index, and from
the node of the parent key, in a map of its children that may or may not
be loaded. Nodes are mutable and have a key of their own. The module is
about when the two ways agree.

`Keyed` says that the flat index holds every node under its own key.
Three conditions then relate it to the children of an indexed node.
`Owned`: the children carry the key they are found under, and the node
is their parent. `Listed`: what the flat index has below the node is
among its children, as the same node. `Shared`: the children are in the
flat index, as the same nodes. The last two take a set of keys for which
they need not hold, for the time in which children are loaded but not
yet all indexed.
-/

namespace SambaProvider

namespace Lib

/-- A tree kept twice; `size` bounds the nodes that exist. -/
@[ext] structure TreeIndex (K : Type*) where
  flat : K → Option ℕ
  key : ℕ → K
  children : ℕ → Option (K → Option ℕ)
  size : ℕ

namespace TreeIndex

variable {K : Type*} (parent : K → K)

/-! ## Operations -/

/-- One more node, which nothing refers to. -/
def add (i : TreeIndex K) (k : K) : TreeIndex K where
  flat := i.flat
  key := Function.update i.key i.size k
  children := Function.update i.children i.size none
  size := i.size + 1

/-- A node is indexed, and is a child of the node of its parent key, if
that is indexed and its children are loaded. -/
def put [DecidableEq K] (i : TreeIndex K) (r : ℕ) : TreeIndex K :=
  let flat := Function.update i.flat (i.key r) (some r)
  { i with
    flat := flat
    children := fun p =>
      if flat (parent (i.key r)) = some p then
        (i.children p).map fun m => Function.update m (i.key r) (some r)
      else i.children p }

/-- What is indexed under a key is taken out, here and there. -/
def remove [DecidableEq K] (i : TreeIndex K) (k : K) : TreeIndex K :=
  let flat := Function.update i.flat k none
  { i with
    flat := flat
    children := fun p =>
      if flat (parent k) = some p then (i.children p).map fun m => Function.update m k none
      else i.children p }

/-- A node gets another key. -/
def setKey (i : TreeIndex K) (r : ℕ) (k : K) : TreeIndex K :=
  { i with key := Function.update i.key r k }

/-- The children of a node are loaded, or forgotten. -/
def setChildren (i : TreeIndex K) (r : ℕ) (m : Option (K → Option ℕ)) : TreeIndex K :=
  { i with children := Function.update i.children r m }

/-! ## Agreement -/

/-- The flat index holds nodes that exist, under their own keys. -/
structure Keyed (i : TreeIndex K) : Prop where
  key_eq : ∀ {k r}, i.flat k = some r → i.key r = k
  lt_size : ∀ {k r}, i.flat k = some r → r < i.size

/-- The children of `p` exist, carry the keys they are found under, and
`p` is their parent. -/
def OwnedBy (i : TreeIndex K) (p : ℕ) : Prop :=
  ∀ m, i.children p = some m → ∀ k c, m k = some c →
    i.key c = k ∧ parent k = i.key p ∧ c < i.size

/-- What is indexed with `p` as its parent is among the children of `p`,
the keys in `S` apart. -/
def ListedBy (S : Set K) (i : TreeIndex K) (p : ℕ) : Prop :=
  ∀ m, i.children p = some m → ∀ k c, i.flat k = some c → parent k = i.key p → k ∉ S →
    m k = some c

/-- The children of `p` are indexed, the keys in `S` apart. -/
def SharedBy (S : Set K) (i : TreeIndex K) (p : ℕ) : Prop :=
  ∀ m, i.children p = some m → ∀ k c, m k = some c → k ∉ S → i.flat k = some c

/-- A condition on the indexed nodes. -/
def OnIndexed (C : TreeIndex K → ℕ → Prop) (i : TreeIndex K) : Prop :=
  ∀ k p, i.flat k = some p → C i p

abbrev Owned (i : TreeIndex K) : Prop := OnIndexed (OwnedBy parent) i

abbrev Listed (S : Set K) (i : TreeIndex K) : Prop := OnIndexed (ListedBy parent S) i

abbrev Shared (S : Set K) (i : TreeIndex K) : Prop := OnIndexed (SharedBy S) i

variable {parent} {i : TreeIndex K} {k : K} {r p : ℕ} {S T : Set K} {m : K → Option ℕ}

theorem Keyed.unique {k' : K} (hK : i.Keyed) (h : i.flat k = some r) (h' : i.flat k' = some r) :
    k = k' :=
  (hK.key_eq h).symm.trans (hK.key_eq h')

theorem Listed.mono (hST : S ⊆ T) (h : Listed parent S i) : Listed parent T i :=
  fun k p hp m hm u c hu hpar hT => h k p hp m hm u c hu hpar fun hS => hT (hST hS)

theorem Shared.mono (hST : S ⊆ T) (h : Shared S i) : Shared T i :=
  fun k p hp m hm u c hu hT => h k p hp m hm u c hu fun hS => hT (hST hS)

/-! ## Adding nodes -/

section Add

/-- `j` has the nodes of `i`, and further ones that nothing refers to. -/
structure Extends (i j : TreeIndex K) : Prop where
  flat_eq : j.flat = i.flat
  size_le : i.size ≤ j.size
  key_eq : ∀ {r}, r < i.size → j.key r = i.key r
  children_eq : ∀ {r}, r < i.size → j.children r = i.children r

variable {j l : TreeIndex K}

theorem Extends.refl : Extends i i := ⟨rfl, le_rfl, fun _ => rfl, fun _ => rfl⟩

theorem Extends.trans (h : Extends i j) (h' : Extends j l) : Extends i l where
  flat_eq := h'.flat_eq.trans h.flat_eq
  size_le := h.size_le.trans h'.size_le
  key_eq hr := (h'.key_eq (hr.trans_le h.size_le)).trans (h.key_eq hr)
  children_eq hr := (h'.children_eq (hr.trans_le h.size_le)).trans (h.children_eq hr)

theorem extends_add : Extends i (i.add k) where
  flat_eq := rfl
  size_le := Nat.le_succ _
  key_eq hr := Function.update_of_ne (Nat.ne_of_lt hr) _ _
  children_eq hr := Function.update_of_ne (Nat.ne_of_lt hr) _ _

@[simp] theorem key_add_size : (i.add k).key i.size = k := Function.update_self ..

@[simp] theorem children_add_size : (i.add k).children i.size = none := Function.update_self ..

theorem size_lt_size_add : i.size < (i.add k).size := Nat.lt_succ_self _

theorem Keyed.extend (h : Extends i j) (hK : i.Keyed) : j.Keyed where
  key_eq hr := by
    rw [h.flat_eq] at hr
    exact (h.key_eq (hK.lt_size hr)).trans (hK.key_eq hr)
  lt_size hr := by
    rw [h.flat_eq] at hr
    exact (hK.lt_size hr).trans_le h.size_le

theorem Owned.extend (h : Extends i j) (hK : i.Keyed) (hO : Owned parent i) :
    Owned parent j := by
  intro k p hp m hm u c hc
  rw [h.flat_eq] at hp
  rw [h.children_eq (hK.lt_size hp)] at hm
  obtain ⟨hkey, hpar, hlt⟩ := hO k p hp m hm u c hc
  refine ⟨(h.key_eq hlt).trans hkey, ?_, hlt.trans_le h.size_le⟩
  rw [h.key_eq (hK.lt_size hp), hpar]

theorem Listed.extend (h : Extends i j) (hK : i.Keyed) (hL : Listed parent S i) :
    Listed parent S j := by
  intro k p hp m hm u c hu hpar
  rw [h.flat_eq] at hp hu
  rw [h.children_eq (hK.lt_size hp)] at hm
  rw [h.key_eq (hK.lt_size hp)] at hpar
  exact hL k p hp m hm u c hu hpar

theorem Shared.extend (h : Extends i j) (hK : i.Keyed) (hS : Shared S i) : Shared S j := by
  intro k p hp m hm u c hc huS
  rw [h.flat_eq] at hp ⊢
  rw [h.children_eq (hK.lt_size hp)] at hm
  exact hS k p hp m hm u c hc huS

end Add

/-! ## Indexing a node -/

section Put

variable [DecidableEq K]

/-- The children after a `put`: those before it, with the node among them
where its parent has loaded children. -/
theorem children_put (h : (i.put parent r).children p = some m) :
    (∃ m', i.children p = some m' ∧ (i.put parent r).flat (parent (i.key r)) = some p ∧
      m = Function.update m' (i.key r) (some r)) ∨
    (i.children p = some m ∧ (i.put parent r).flat (parent (i.key r)) ≠ some p) := by
  change (if (i.put parent r).flat (parent (i.key r)) = some p then _ else _) = _ at h
  split at h
  · rename_i hp
    obtain ⟨m', hm', rfl⟩ := Option.map_eq_some_iff.mp h
    exact .inl ⟨m', hm', hp, rfl⟩
  · rename_i hp
    exact .inr ⟨h, hp⟩

theorem flat_put_self : (i.put parent r).flat (i.key r) = some r := Function.update_self ..

theorem flat_put_of_ne (h : k ≠ i.key r) : (i.put parent r).flat k = i.flat k :=
  Function.update_of_ne h _ _

/-- An indexed node after a `put` is the new one or an old one. -/
theorem flat_put (h : (i.put parent r).flat k = some p) :
    (k = i.key r ∧ p = r) ∨ (k ≠ i.key r ∧ i.flat k = some p) := by
  by_cases hk : k = i.key r
  · subst hk
    exact .inl ⟨rfl, Option.some.inj (h.symm.trans flat_put_self)⟩
  · exact .inr ⟨hk, by rwa [flat_put_of_ne hk] at h⟩

theorem Keyed.put (hr : r < i.size) (hK : i.Keyed) : (i.put parent r).Keyed where
  key_eq h := by
    rcases flat_put h with ⟨rfl, rfl⟩ | ⟨_, h⟩
    · rfl
    · exact hK.key_eq h
  lt_size h := by
    rcases flat_put h with ⟨rfl, rfl⟩ | ⟨_, h⟩
    · exact hr
    · exact hK.lt_size h

/-- A condition on the children of every indexed node is kept by a `put`
if it holds of the new node as well. -/
theorem onIndexed_put {C : TreeIndex K → ℕ → Prop} (hr : C i r) (h : OnIndexed C i)
    (hC : ∀ k p, (i.put parent r).flat k = some p → C i p → C (i.put parent r) p) :
    OnIndexed C (i.put parent r) := by
  intro k p hp
  refine hC k p hp ?_
  rcases flat_put hp with ⟨rfl, rfl⟩ | ⟨_, hp⟩
  · exact hr
  · exact h k p hp

theorem Owned.put (hr : r < i.size) (hK : i.Keyed) (hown : OwnedBy parent i r)
    (h : Owned parent i) : Owned parent (i.put parent r) := by
  refine onIndexed_put hown h fun k p hp hC m hm u c hc => ?_
  rcases children_put hm with ⟨m', hm', hpar, rfl⟩ | ⟨hm', _⟩
  · by_cases hu : u = i.key r
    · subst hu
      rw [Function.update_self] at hc
      obtain rfl := Option.some.inj hc
      exact ⟨rfl, ((Keyed.put hr hK).key_eq hpar).symm, hr⟩
    · rw [Function.update_of_ne hu] at hc
      exact hC m' hm' u c hc
  · exact hC m hm' u c hc

/-- **What is indexed is listed from then on**, wherever its parent is
loaded. -/
theorem Listed.put (hr : r < i.size) (hK : i.Keyed) (hlist : ListedBy parent S i r)
    (h : Listed parent S i) : Listed parent (S \ {i.key r}) (i.put parent r) := by
  intro k p hp m hm u c hu hpar hS
  have hold : ListedBy parent S i p := by
    rcases flat_put hp with ⟨rfl, rfl⟩ | ⟨_, hp⟩
    · exact hlist
    · exact h k p hp
  -- The parent of the key is the node the `put` has updated.
  have hparent : (i.put parent r).flat (parent u) = some p := by
    rw [hpar]
    exact (Keyed.put hr hK).key_eq hp ▸ hp
  rcases flat_put hu with ⟨rfl, rfl⟩ | ⟨hne, hu⟩
  · rcases children_put hm with ⟨m', _, _, rfl⟩ | ⟨_, hno⟩
    · exact Function.update_self ..
    · exact absurd hparent hno
  · have huS : u ∉ S := fun hmem => hS ⟨hmem, hne⟩
    rcases children_put hm with ⟨m', hm', _, rfl⟩ | ⟨hm', _⟩
    · rw [Function.update_of_ne hne]
      exact hold m' hm' u c hu hpar huS
    · exact hold m hm' u c hu hpar huS

/-- **What is indexed is shared from then on**, wherever it is a child. -/
theorem Shared.put (hr : r < i.size) (hK : i.Keyed) (hown : OwnedBy parent i r)
    (hOwn : Owned parent i) (hsh : SharedBy S i r) (h : Shared S i) :
    Shared (S \ {i.key r}) (i.put parent r) := by
  intro k p hp m hm u c hc hS
  have hold : SharedBy S i p := by
    rcases flat_put hp with ⟨rfl, rfl⟩ | ⟨_, hp⟩
    · exact hsh
    · exact h k p hp
  have hpar := (Owned.put hr hK hown hOwn k p hp m hm u c hc).2.1
  have hparent : (i.put parent r).flat (parent u) = some p := by
    rw [hpar]
    exact (Keyed.put hr hK).key_eq hp ▸ hp
  by_cases hu : u = i.key r
  · subst hu
    rcases children_put hm with ⟨m', _, _, rfl⟩ | ⟨_, hno⟩
    · rw [Function.update_self] at hc
      rw [← hc]
      exact flat_put_self
    · exact absurd hparent hno
  · rw [flat_put_of_ne hu]
    have huS : u ∉ S := fun hmem => hS ⟨hmem, hu⟩
    rcases children_put hm with ⟨m', hm', _, rfl⟩ | ⟨hm', _⟩
    · rw [Function.update_of_ne hu] at hc
      exact hold m' hm' u c hc huS
    · exact hold m hm' u c hc huS

theorem children_put_eq_none (h : i.children p = none) :
    (i.put parent r).children p = none := by
  change (if _ then _ else _) = _
  split
  · rw [h]
    rfl
  · exact h

/-- **Indexing nodes without children one after another** lists and
shares them all. -/
theorem puts_agree {cs : List ℕ} (hcs : ∀ c ∈ cs, c < i.size ∧ i.children c = none)
    (hK : i.Keyed) (hO : Owned parent i) :
    (cs.foldl (put parent) i).Keyed ∧ Owned parent (cs.foldl (put parent) i) ∧
      (Listed parent S i →
        Listed parent (S \ {k | ∃ c ∈ cs, i.key c = k}) (cs.foldl (put parent) i)) ∧
      (Shared S i →
        Shared (S \ {k | ∃ c ∈ cs, i.key c = k}) (cs.foldl (put parent) i)) := by
  induction cs generalizing i S with
  | nil =>
    have hsub : S ⊆ S \ {k | ∃ c ∈ ([] : List ℕ), i.key c = k} := fun k hk => ⟨hk, by simp⟩
    exact ⟨hK, hO, Listed.mono hsub, Shared.mono hsub⟩
  | cons c cs ih =>
    obtain ⟨hlt, hnone⟩ := hcs c List.mem_cons_self
    have hown : OwnedBy parent i c := fun m hm => absurd (hnone.symm.trans hm) nofun
    have hstep := ih (i := i.put parent c) (S := S \ {i.key c})
      (fun d hd => ⟨(hcs d (List.mem_cons_of_mem c hd)).1,
        children_put_eq_none (hcs d (List.mem_cons_of_mem c hd)).2⟩)
      (hK.put hlt) (hO.put hlt hK hown)
    have hsub : (S \ {i.key c}) \ {k | ∃ d ∈ cs, i.key d = k} ⊆
        S \ {k | ∃ d ∈ c :: cs, i.key d = k} := by
      rintro k ⟨⟨hS, hne⟩, hno⟩
      refine ⟨hS, ?_⟩
      rintro ⟨d, hd, rfl⟩
      rcases List.mem_cons.mp hd with rfl | hd
      · exact hne rfl
      · exact hno ⟨d, hd, rfl⟩
    refine ⟨hstep.1, hstep.2.1, fun hL => ?_, fun hS => ?_⟩
    · refine Listed.mono hsub (hstep.2.2.1 (hL.put hlt hK fun m hm => ?_))
      exact absurd (hnone.symm.trans hm) nofun
    · refine Shared.mono hsub (hstep.2.2.2 (hS.put hlt hK hown hO fun m hm => ?_))
      exact absurd (hnone.symm.trans hm) nofun

end Put

/-! ## Taking a node out

After `remove k` the node that was indexed under `k` may have any key:
a rename changes it first. -/

section Remove

variable [DecidableEq K]

theorem children_remove (h : (i.remove parent k).children p = some m) :
    (∃ m', i.children p = some m' ∧ (i.remove parent k).flat (parent k) = some p ∧
      m = Function.update m' k none) ∨
    (i.children p = some m ∧ (i.remove parent k).flat (parent k) ≠ some p) := by
  change (if (i.remove parent k).flat (parent k) = some p then _ else _) = _ at h
  split at h
  · rename_i hp
    obtain ⟨m', hm', rfl⟩ := Option.map_eq_some_iff.mp h
    exact .inl ⟨m', hm', hp, rfl⟩
  · rename_i hp
    exact .inr ⟨h, hp⟩

@[simp] theorem flat_remove_self : (i.remove parent k).flat k = none := Function.update_self ..

theorem flat_remove_of_ne {k' : K} (h : k' ≠ k) : (i.remove parent k).flat k' = i.flat k' :=
  Function.update_of_ne h _ _

theorem flat_remove {k' : K} (h : (i.remove parent k).flat k' = some p) :
    k' ≠ k ∧ i.flat k' = some p := by
  by_cases hk : k' = k
  · subst hk
    rw [flat_remove_self] at h
    cases h
  · exact ⟨hk, by rwa [flat_remove_of_ne hk] at h⟩

/-- The children after a `remove` are among those before it, and the key
that went is not one of them where its parent is indexed. -/
theorem child_of_child_remove {u : K} {c : ℕ} (h : (i.remove parent k).children p = some m)
    (hc : m u = some c) : ∃ m', i.children p = some m' ∧ m' u = some c ∧
      ((i.remove parent k).flat (parent k) = some p → u ≠ k) := by
  rcases children_remove h with ⟨m', hm', _, rfl⟩ | ⟨hm', hno⟩
  · have hu : u ≠ k := by
      rintro rfl
      rw [Function.update_self] at hc
      cases hc
    rw [Function.update_of_ne hu] at hc
    exact ⟨m', hm', hc, fun _ => hu⟩
  · exact ⟨m, hm', hc, fun hp => absurd hp hno⟩

theorem Keyed.remove (hK : i.Keyed) : (i.remove parent k).Keyed where
  key_eq h := hK.key_eq (flat_remove h).2
  lt_size h := hK.lt_size (flat_remove h).2

theorem Owned.remove (h : Owned parent i) : Owned parent (i.remove parent k) := by
  intro k' p hp m hm u c hc
  obtain ⟨m', hm', hc', _⟩ := child_of_child_remove hm hc
  exact h k' p (flat_remove hp).2 m' hm' u c hc'

theorem Listed.remove (h : Listed parent S i) : Listed parent S (i.remove parent k) := by
  intro k' p hp m hm u c hu hpar hS
  obtain ⟨hne, hu⟩ := flat_remove hu
  rcases children_remove hm with ⟨m', hm', _, rfl⟩ | ⟨hm', _⟩
  · rw [Function.update_of_ne hne]
    exact h k' p (flat_remove hp).2 m' hm' u c hu hpar hS
  · exact h k' p (flat_remove hp).2 m hm' u c hu hpar hS

theorem Shared.remove (hK : i.Keyed) (hOwn : Owned parent i) (h : Shared S i) :
    Shared S (i.remove parent k) := by
  intro k' p hp m hm u c hc hS
  have hp' := (flat_remove hp).2
  obtain ⟨m', hm', hc', hgone⟩ := child_of_child_remove hm hc
  have hu : u ≠ k := by
    rintro rfl
    refine hgone ?_ rfl
    rw [(hOwn k' p hp' m' hm' u c hc').2.1, hK.key_eq hp']
    exact hp
  rw [flat_remove_of_ne hu]
  exact h k' p hp' m' hm' u c hc' hS

end Remove

/-! ## Renaming a node, first half

The node gets its new key and is taken out under the old one; `put`
indexes it again. -/

section Detach

variable [DecidableEq K]

/-- A node leaves the index under its key and carries another one. -/
def detach (parent : K → K) (i : TreeIndex K) (r : ℕ) (k k' : K) : TreeIndex K :=
  (i.setKey r k').remove parent k

variable {k' : K}

theorem flat_detach {u : K} (h : (i.detach parent r k k').flat u = some p) :
    u ≠ k ∧ i.flat u = some p :=
  @flat_remove K parent (i.setKey r k') k p _ u h

/-- Another node of the index keeps its key. -/
theorem key_detach (h : p ≠ r) : (i.detach parent r k k').key p = i.key p :=
  Function.update_of_ne h _ _

@[simp] theorem key_detach_self : (i.detach parent r k k').key r = k' := Function.update_self ..

theorem ne_of_flat_detach {u : K} (hK : i.Keyed) (hr : i.flat k = some r)
    (h : (i.detach parent r k k').flat u = some p) : p ≠ r := by
  rintro rfl
  obtain ⟨hne, hu⟩ := flat_detach h
  exact hne (hK.unique hu hr)

theorem Keyed.detach (hK : i.Keyed) (hr : i.flat k = some r) :
    (i.detach parent r k k').Keyed where
  key_eq h := (key_detach (ne_of_flat_detach hK hr h)).trans (hK.key_eq (flat_detach h).2)
  lt_size h := hK.lt_size (flat_detach h).2

theorem Owned.detach (hK : i.Keyed) (hr : i.flat k = some r) (h : Owned parent i) :
    Owned parent (i.detach parent r k k') := by
  intro u p hp m hm w c hc
  have hne := ne_of_flat_detach hK hr hp
  have hp' := (flat_detach hp).2
  obtain ⟨m', hm', hc', hgone⟩ := child_of_child_remove hm hc
  obtain ⟨hkey, hpar, hlt⟩ := h u p hp' m' hm' w c hc'
  -- The renamed node was a child of its parent only, and is one no more.
  have hcr : c ≠ r := by
    rintro rfl
    have hwk : w = k := hkey.symm.trans (hK.key_eq hr)
    have hparent : parent k = u := by rw [← hwk, hpar, hK.key_eq hp']
    refine hgone ?_ hwk
    rw [hparent]
    exact hp
  exact ⟨(key_detach hcr).trans hkey, hpar.trans (key_detach hne).symm, hlt⟩

theorem Listed.detach (hK : i.Keyed) (hr : i.flat k = some r) (h : Listed parent S i) :
    Listed parent S (i.detach parent r k k') := by
  intro u p hp m hm w c hw hpar hS
  have hp' := (flat_detach hp).2
  obtain ⟨hne, hw'⟩ := flat_detach hw
  rw [key_detach (ne_of_flat_detach hK hr hp)] at hpar
  rcases children_remove hm with ⟨m', hm', _, rfl⟩ | ⟨hm', _⟩
  · rw [Function.update_of_ne hne]
    exact h u p hp' m' hm' w c hw' hpar hS
  · exact h u p hp' m hm' w c hw' hpar hS

theorem Shared.detach (hK : i.Keyed) (hOwn : Owned parent i) (h : Shared S i) :
    Shared S (i.detach parent r k k') := by
  intro u p hp m hm w c hc hS
  have hp' := (flat_detach hp).2
  obtain ⟨m', hm', hc', hgone⟩ := child_of_child_remove hm hc
  have hw : w ≠ k := by
    rintro rfl
    refine hgone ?_ rfl
    rw [(hOwn u p hp' m' hm' w c hc').2.1, hK.key_eq hp']
    exact hp
  exact (flat_remove_of_ne hw).trans (h u p hp' m' hm' w c hc' hS)

end Detach

/-! ## Loading and forgetting children -/

section Children

theorem children_setChildren_self {o : Option (K → Option ℕ)} :
    (i.setChildren r o).children r = o := Function.update_self ..

theorem children_setChildren_of_ne {o : Option (K → Option ℕ)} (h : p ≠ r) :
    (i.setChildren r o).children p = i.children p := Function.update_of_ne h _ _

theorem Keyed.setChildren {o : Option (K → Option ℕ)} (hK : i.Keyed) :
    (i.setChildren r o).Keyed := ⟨hK.key_eq, hK.lt_size⟩

/-- Forgotten children satisfy every condition on the children. -/
theorem Owned.forget (h : Owned parent i) : Owned parent (i.setChildren r none) := by
  intro k p hp m hm
  by_cases hpr : p = r
  · rw [hpr, children_setChildren_self] at hm
    cases hm
  · rw [children_setChildren_of_ne hpr] at hm
    exact h k p hp m hm

theorem Listed.forget (h : Listed parent S i) : Listed parent S (i.setChildren r none) := by
  intro k p hp m hm
  by_cases hpr : p = r
  · rw [hpr, children_setChildren_self] at hm
    cases hm
  · rw [children_setChildren_of_ne hpr] at hm
    exact h k p hp m hm

theorem Shared.forget (h : Shared S i) : Shared S (i.setChildren r none) := by
  intro k p hp m hm
  by_cases hpr : p = r
  · rw [hpr, children_setChildren_self] at hm
    cases hm
  · rw [children_setChildren_of_ne hpr] at hm
    exact h k p hp m hm

/-- Loaded children are owned if the node is the parent of each. -/
theorem Owned.load (hK : i.Keyed)
    (hm : i.flat (i.key r) = some r → ∀ k c, m k = some c →
      i.key c = k ∧ parent k = i.key r ∧ c < i.size)
    (h : Owned parent i) : Owned parent (i.setChildren r (some m)) := by
  intro k p hp m' hm'
  by_cases hpr : p = r
  · subst hpr
    rw [children_setChildren_self] at hm'
    obtain rfl := Option.some.inj hm'
    have hindexed : i.flat (i.key p) = some p := by
      have hp' : i.flat k = some p := hp
      rw [hK.key_eq hp']
      exact hp'
    exact hm hindexed
  · rw [children_setChildren_of_ne hpr] at hm'
    exact h k p hp m' hm'

/-- **Loaded children are listed, but for the keys that are loaded**, if
nothing else is indexed below the node. -/
theorem Listed.load (hK : i.Keyed)
    (hm : i.flat (i.key r) = some r → ∀ k c, i.flat k = some c → parent k = i.key r → k ∈ T)
    (h : Listed parent S i) : Listed parent (S ∪ T) (i.setChildren r (some m)) := by
  intro k p hp m' hm' u c hu hpar hST
  by_cases hpr : p = r
  · subst hpr
    have hindexed : i.flat (i.key p) = some p := by
      have hp' : i.flat k = some p := hp
      rw [hK.key_eq hp']
      exact hp'
    exact absurd (Or.inr (hm hindexed u c hu hpar)) hST
  · rw [children_setChildren_of_ne hpr] at hm'
    exact h k p hp m' hm' u c hu hpar fun hS => hST (.inl hS)

theorem Shared.load (hm : ∀ k c, m k = some c → k ∈ T) (h : Shared S i) :
    Shared (S ∪ T) (i.setChildren r (some m)) := by
  intro k p hp m' hm' u c hc hST
  by_cases hpr : p = r
  · subst hpr
    rw [children_setChildren_self] at hm'
    obtain rfl := Option.some.inj hm'
    exact absurd (Or.inr (hm u c hc)) hST
  · rw [children_setChildren_of_ne hpr] at hm'
    exact h k p hp m' hm' u c hc fun hS => hST (.inl hS)

/-- Exceptions whose parent is not indexed are none. -/
theorem Listed.drop (hK : i.Keyed) (hT : ∀ k ∈ T, i.flat (parent k) = none)
    (h : Listed parent T i) : Listed parent ∅ i := by
  intro k p hp m hm u c hu hpar _
  refine h k p hp m hm u c hu hpar fun hmem => ?_
  have hnone := hT u hmem
  rw [hpar, hK.key_eq hp, hp] at hnone
  cases hnone

theorem Shared.drop (hK : i.Keyed) (hO : Owned parent i)
    (hT : ∀ k ∈ T, i.flat (parent k) = none) (h : Shared T i) : Shared ∅ i := by
  intro k p hp m hm u c hc _
  refine h k p hp m hm u c hc fun hmem => ?_
  have hnone := hT u hmem
  rw [(hO k p hp m hm u c hc).2.1, hK.key_eq hp, hp] at hnone
  cases hnone

end Children

end TreeIndex

end Lib

end SambaProvider

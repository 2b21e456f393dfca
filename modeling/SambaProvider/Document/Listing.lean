import SambaProvider.Document.Changes

/-!
# What listings do to the index

The loop of `loadChildren` has one rule, for a metadata object that is
shared and for one of a deletion: an invariant of the entries that are
still to come, the children made so far and the store. With it follow
the changes of a load, of a mount and of a deletion.
-/

namespace SambaProvider

open Lib DocumentMetadata SambaDocumentsProvider

variable {σ : Scenario} {w w' : World Server} {α β : Type} {r : Ref} {u v k : Uri} {dir : SmbDir}
  {n : ℕ} {i j : TreeIndex Uri} {L : List DirectoryEntry}

/-! ## The loop -/

/-- **The rule of the listing loop.** It ends with a fault or out of fuel
somewhere in the listing, or has gone through all of it without one. -/
theorem readChildren_rule {uri : Proc Uri} {child : Uri → DirectoryEntry → Proc β}
    {I : List DirectoryEntry → (AList fun _ : Uri => β) → Store → Prop}
    (huri : ∀ L acc w res t, I L acc w.store → uri.Ends σ.Step w res t →
      res = .returned u ∧ t = w)
    (hskip : ∀ e L acc s, I (e :: L) acc s → u.buildChildUri e = none → I L acc s)
    (hchild : ∀ e L acc k w res t, I (e :: L) acc w.store → u.buildChildUri e = some k →
      (child k e).Ends σ.Step w res t →
      ∃ v, res = .returned v ∧ t.server = w.server ∧ I L (acc.insert k v) t.store)
    {acc : AList fun _ : Uri => β} {res : Result Exn (AList fun _ : Uri => β)}
    (hI : I (w.server.pending dir) acc w.store)
    (h : (readChildren uri child dir n acc).Ends σ.Step w res w') :
    ((∃ L acc', I L acc' w'.store) ∧ (∀ M, res ≠ .returned M) ∧
        ∀ x, res = .threw x → ∃ m, σ.fault m = some x) ∨
      ∃ M, res = .returned M ∧ I [] M w'.store ∧
        w'.server.calls = w.server.calls + (w.server.pending dir).length + 1 ∧
        ∀ j ≤ (w.server.pending dir).length, σ.fault (w.server.calls + j) = none := by
  induction n generalizing w acc with
  | zero =>
    obtain ⟨rfl, rfl⟩ := h
    exact .inl ⟨⟨_, _, hI⟩, nofun, nofun⟩
  | succ n ih =>
    rcases ends_seq_smb h with ⟨x, hx, rfl, rfl⟩ | ⟨hfault, a, t, ⟨ha, ht⟩, h⟩
    · refine .inl ⟨⟨_, _, hI⟩, nofun, fun y hy => ?_⟩
      obtain rfl := Result.threw.inj hy
      exact ⟨_, hx⟩
    -- The entry is the next one of the listing, and the rest is left.
    obtain ⟨hpending, hcalls⟩ : t.pending dir = (w.server.pending dir).tail ∧
        t.calls = w.server.calls + 1 := by
      subst ht
      exact ⟨Function.update_self .., rfl⟩
    have hhead : a = (w.server.pending dir).head? := ha
    cases hL : w.server.pending dir with
    | nil =>
      rw [hL] at hI hhead
      subst hhead
      obtain ⟨rfl, rfl⟩ := h
      refine .inr ⟨acc, rfl, hI, hcalls, fun j hj => ?_⟩
      obtain rfl : j = 0 := by simpa using hj
      exact hfault
    | cons e L =>
      rw [hL] at hI hhead hpending
      subst hhead
      -- What the loop does after an entry, from the world it is left in.
      have hrest {acc' : AList fun _ : Uri => β} {s : Store}
          (hI' : I L acc' s) (h : (readChildren uri child dir n acc').Ends σ.Step ⟨s, t⟩ res w') :
          ((∃ L acc', I L acc' w'.store) ∧ (∀ M, res ≠ .returned M) ∧
              ∀ x, res = .threw x → ∃ m, σ.fault m = some x) ∨
            ∃ M, res = .returned M ∧ I [] M w'.store ∧
              w'.server.calls = w.server.calls + (e :: L).length + 1 ∧
              ∀ j ≤ (e :: L).length, σ.fault (w.server.calls + j) = none := by
        have hI'' : I (World.server ⟨s, t⟩ |>.pending dir) acc' s := by
          rw [show t.pending dir = L from hpending]
          exact hI'
        rcases ih hI'' h with hstop | ⟨M, hM, hIM, hc, hf⟩
        · exact .inl hstop
        · rw [show t.pending dir = L from hpending, show t.calls = _ from hcalls] at hc hf
          refine .inr ⟨M, hM, hIM, ?_, fun j hj => ?_⟩
          · rw [hc, List.length_cons]
            omega
          · rcases Nat.eq_zero_or_pos j with rfl | hpos
            · exact hfault
            · rw [List.length_cons] at hj
              have hprev := hf (j - 1) (by omega)
              rwa [show w.server.calls + 1 + (j - 1) = w.server.calls + j by omega] at hprev
      obtain ⟨_, _, ⟨rfl, rfl⟩, h⟩ := ends_seq_of_returns
        (P := fun a t' => a = u ∧ t' = ⟨w.store, t⟩)
        (fun res s hs => by
          obtain ⟨rfl, rfl⟩ := huri (e :: L) acc ⟨w.store, t⟩ res s hI hs
          exact ⟨u, rfl, rfl, rfl⟩) h
      split at h
      · rename_i hnone
        exact hrest (hskip e L acc _ hI hnone) h
      · rename_i k hk
        obtain ⟨v, ⟨s, t'⟩, ⟨hserver, hI'⟩, hf⟩ := ends_seq_of_returns
          (P := fun v t' => t'.server = t ∧ I L (acc.insert k v) t'.store)
          (fun res s hs => hchild e L acc k ⟨w.store, t⟩ res s hI hk hs) h
        obtain rfl : t' = t := hserver
        exact hrest hI' hf

/-! ## Loading children -/

section Loading

/-- `m` has a new node of `l` for each of the URIs, and `l` is `i` with
further nodes. -/
structure FreshChildren (i l : TreeIndex Uri) (uris : List Uri) (m : Uri → Option Ref) :
    Prop where
  grown : i.Extends l
  isSome_iff : ∀ k, (m k).isSome ↔ k ∈ uris
  fresh : ∀ {k c}, m k = some c →
    l.key c = k ∧ i.size ≤ c ∧ c < l.size ∧ l.children c = none

/-- The index after `loadChildren` of `r` with this listing, before any of
the children is indexed. -/
def Loaded (i : TreeIndex Uri) (r : Ref) (listing : List DirectoryEntry) (j : TreeIndex Uri) :
    Prop :=
  ∃ l m, FreshChildren i l (childUris (i.key r) listing) m ∧ j = l.setChildren r (some m)

/-- All loaded children of `r` are indexed, in some order. -/
def AllPut (i : TreeIndex Uri) (r : Ref) (j : TreeIndex Uri) : Prop :=
  ∃ cs : List Ref, (∀ c, c ∈ cs ↔ ∃ m k, i.children r = some m ∧ m k = some c) ∧
    j = cs.foldl (TreeIndex.put Uri.buildParentUri) i

/-- A new child is one more node of the index. -/
theorem ends_newChild {e : DirectoryEntry} {res : Result Exn Ref}
    (h : (newChild k e).Ends σ.Step w res w') :
    res = .returned w.store.index.size ∧ w'.server = w.server ∧
      w'.store.index = w.store.index.add k := by
  obtain ⟨m, huri, _, hch, h⟩ := ends_seq_make h
  simp only [memory, perform, ends_memory, Prog.ends_ctorPure] at h
  obtain ⟨rfl, rfl⟩ := h
  exact ⟨rfl, rfl, huri ▸ Store.index_new hch⟩

/-- **The loop over a shared directory** makes a new node for each child
it has listed. -/
theorem ends_readChildren (hr : r < w.store.index.size)
    {res : Result Exn ChildMap}
    (h : (readChildren (getUri r) newChild dir n ∅).Ends σ.Step w res w') :
    (w.store.index.Extends w'.store.index ∧ ∀ M, res ≠ .returned M) ∨
      ∃ M, res = .returned M ∧
        FreshChildren w.store.index w'.store.index
          (childUris (w.store.index.key r) (w.server.pending dir)) (fun k => M.lookup k) ∧
        w'.server.calls = w.server.calls + (w.server.pending dir).length + 1 ∧
        ∀ j ≤ (w.server.pending dir).length, σ.fault (w.server.calls + j) = none := by
  let i := w.store.index
  let uris := childUris (i.key r) (w.server.pending dir)
  let I (L : List DirectoryEntry) (acc : ChildMap) (s : Store) : Prop :=
    i.Extends s.index ∧
      (∀ k, (acc.lookup k).isSome ∨ k ∈ childUris (i.key r) L ↔ k ∈ uris) ∧
      ∀ {k c}, acc.lookup k = some c →
        s.index.key c = k ∧ i.size ≤ c ∧ c < s.index.size ∧ s.index.children c = none
  have hI : I (w.server.pending dir) ∅ w.store := by
    refine ⟨.refl, fun k => ?_, fun hc => ?_⟩
    · simp [uris]
    · simp at hc
  refine (readChildren_rule (u := i.key r) (I := I) ?_ ?_ ?_ hI h).imp ?_ ?_
  · rintro L acc t res t' ⟨hext, _⟩ hg
    simp only [getUri, memory, perform, Prog.act_bind, Prog.ctorPure_bind, ends_memory,
      Prog.ends_pure] at hg
    obtain ⟨rfl, rfl⟩ := hg
    exact ⟨congrArg _ (hext.key_eq hr), rfl⟩
  · rintro e L acc s ⟨hext, hkeys, hfresh⟩ hnone
    refine ⟨hext, fun k => ?_, hfresh⟩
    rw [← hkeys k, childUris, childUris, List.filterMap_cons, hnone]
  · rintro e L acc k t res t' ⟨hext, hkeys, hfresh⟩ hk hnew
    obtain ⟨rfl, hserver, hindex⟩ := ends_newChild hnew
    refine ⟨_, rfl, hserver, ?_, fun k' => ?_, fun {k' c} hc => ?_⟩
    · rw [hindex]
      exact hext.trans TreeIndex.extends_add
    · rw [← hkeys k', childUris, childUris, List.filterMap_cons, hk]
      by_cases hkk : k' = k
      · subst hkk
        simp
      · simp [AList.lookup_insert_ne hkk, hkk]
    · rw [hindex]
      by_cases hkk : k' = k
      · subst hkk
        rw [AList.lookup_insert] at hc
        obtain rfl := Option.some.inj hc
        exact ⟨TreeIndex.key_add_size, hext.size_le, TreeIndex.size_lt_size_add,
          TreeIndex.children_add_size⟩
      · rw [AList.lookup_insert_ne hkk] at hc
        obtain ⟨hkey, hle, hlt, hnone⟩ := hfresh hc
        exact ⟨(TreeIndex.extends_add.key_eq hlt).trans hkey, hle,
          hlt.trans TreeIndex.size_lt_size_add,
          (TreeIndex.extends_add.children_eq hlt).trans hnone⟩
  · rintro ⟨⟨L, acc, hext, _⟩, hres, _⟩
    exact ⟨hext, hres⟩
  · rintro ⟨M, hM, ⟨hext, hkeys, hfresh⟩, hcalls, hfaults⟩
    refine ⟨M, hM, ⟨hext, fun k => ?_, hfresh⟩, hcalls, hfaults⟩
    rw [← hkeys k]
    simp [childUris]

/-- The listing of `loadChildren` once the directory is open. -/
theorem ends_listing (hr : r < w.store.index.size) {res : Result Exn Unit}
    (h : (do
      let children ← readChildren (getUri r) newChild dir n ∅
      memory (.setChildren r children)
      let now ← perform .currentTimeMillis
      memory (.write r (.timeStamp now)) : Proc Unit).Ends σ.Step w res w') :
    (w.store.index.Extends w'.store.index ∧ res ≠ .returned ()) ∨
      (Loaded w.store.index r (w.server.pending dir) w'.store.index ∧ res = .returned () ∧
        w'.server.calls = w.server.calls + (w.server.pending dir).length + 1 ∧
        ∀ j ≤ (w.server.pending dir).length, σ.fault (w.server.calls + j) = none) := by
  rcases ends_seq h with ⟨M, t, hread, h⟩ | ⟨x, hread, rfl⟩ | ⟨hread, rfl⟩
  · rcases ends_readChildren hr hread with ⟨_, hres⟩ | ⟨M', hM, hfresh, hcalls, hfaults⟩
    · exact absurd rfl (hres M)
    obtain rfl := Result.returned.inj hM
    simp only [memory, perform, Prog.act_bind, Prog.ctorPure_bind, ends_memory,
      ends_currentTimeMillis, Prog.ends_ctorPure] at h
    obtain ⟨now, rfl, rfl⟩ := h
    refine .inr ⟨⟨t.store.index, _, hfresh, ?_⟩, rfl, hcalls, hfaults⟩
    rw [Store.index_write (fun _ => rfl) fun _ => rfl, Store.index_setChildren]
  · rcases ends_readChildren hr hread with ⟨hext, _⟩ | ⟨M, hM, _⟩
    · exact .inl ⟨hext, by simp⟩
    · cases hM
  · rcases ends_readChildren hr hread with ⟨hext, _⟩ | ⟨M, hM, _⟩
    · exact .inl ⟨hext, by simp⟩
    · cases hM

/-- **`loadChildren`** sets the children it has listed, or leaves new
nodes that nothing refers to. It fails after it has set them only where
the directory cannot be closed. -/
theorem ends_loadChildren (hr : r < w.store.index.size) {res : Result Exn Unit}
    (h : (loadChildren n r).Ends σ.Step w res w') :
    (w.store.index.Extends w'.store.index ∧ res ≠ .returned ()) ∨
      (Loaded w.store.index r (σ.listing w.server.opened (w.store.index.key r)) w'.store.index ∧
        (∀ j ≤ (σ.listing w.server.opened (w.store.index.key r)).length + 1,
          σ.fault (w.server.calls + j) = none) ∧
        (res = .returned () ∨
          σ.fault (w.server.calls +
            ((σ.listing w.server.opened (w.store.index.key r)).length + 2)) ≠ none)) := by
  set L := σ.listing w.server.opened (w.store.index.key r) with hL
  obtain ⟨r', t, hbody, hcaught⟩ := Prog.ends_catching.mp h
  -- The exception of the block is kept in the object and goes on.
  have hexc : w'.store.index = t.store.index ∧ (res = .returned () ↔ r' = .returned ()) := by
    rcases r' with _ | x | _
    · obtain ⟨rfl, rfl⟩ := hcaught
      exact ⟨rfl, Iff.rfl⟩
    · simp only [Prog.Caught, if_true, memory, perform, Prog.act_bind, Prog.ctorPure_bind,
        ends_memory, Prog.ends_throw] at hcaught
      obtain ⟨rfl, rfl⟩ := hcaught
      exact ⟨Store.index_write (fun _ => rfl) fun _ => rfl, by simp⟩
    · obtain ⟨rfl, rfl⟩ := hcaught
      exact ⟨rfl, Iff.rfl⟩
  rw [hexc.1]
  have hkey : (w.store.metadata r).uri = w.store.index.key r := rfl
  simp only [getUri, memory, perform, Prog.act_bind, Prog.ctorPure_bind, Prog.pure_bind,
    ends_memory, Store.exec] at hbody
  rcases ends_seq_smb hbody with ⟨x, _, rfl, rfl⟩ | ⟨hopen, dir, s, ⟨hdir, hs⟩, hbody⟩
  · exact .inl ⟨.refl, fun hres => absurd (hexc.2.mp hres) (by simp)⟩
  have hpending : s.pending dir = L := by
    rw [hdir, hs]
    exact Function.update_self ..
  have hcalls : s.calls = w.server.calls + 1 := by rw [hs]; rfl
  obtain ⟨r₁, t₁, hlist, hclose⟩ := Prog.ends_withResource.mp hbody
  rcases ends_listing (w := ⟨w.store, s⟩) hr hlist with
    ⟨hext, hres⟩ | ⟨hloaded, rfl, hcalls₁, hfaults⟩
  · rcases hclose with ⟨rfl, rfl, rfl⟩ | ⟨hne, c, hc, rfl⟩
    · exact .inl ⟨hext, fun hres => absurd (hexc.2.mp hres) (by simp)⟩
    · have ht : t.store = t₁.store := by
        rcases ends_smb.mp hc with ⟨_, _, _, rfl⟩ | ⟨_, _, _, _, _, rfl⟩
        · rfl
        · rfl
      rw [ht]
      refine .inl ⟨hext, fun hr' => ?_⟩
      have hclosed := hexc.2.mp hr'
      rcases r₁ with a | x | _
      · exact hres rfl
      · rcases c with _ | _ | _ <;> cases hclosed
      · exact hne rfl
  · rw [hpending, hcalls] at hcalls₁ hfaults
    rw [hpending] at hloaded
    have hlisted : ∀ j ≤ L.length + 1, σ.fault (w.server.calls + j) = none := by
      intro j hj
      rcases Nat.eq_zero_or_pos j with rfl | hpos
      · exact hopen
      · have hprev := hfaults (j - 1) (by omega)
        rwa [show w.server.calls + 1 + (j - 1) = w.server.calls + j by omega] at hprev
    rcases hclose with ⟨hne, _⟩ | ⟨_, c, hc, rfl⟩
    · cases hne
    rcases ends_smb.mp hc with ⟨x, hx, rfl, rfl⟩ | ⟨_, _, t', _, rfl, rfl⟩
    · refine .inr ⟨hloaded, hlisted, .inr ?_⟩
      rw [hcalls₁] at hx
      rw [show w.server.calls + (L.length + 2) = w.server.calls + 1 + L.length + 1 by omega, hx]
      simp
    · exact .inr ⟨hloaded, hlisted, .inl (hexc.2.mpr rfl)⟩

/-- Putting the values of a map, in the order of its keys that the walk
has. -/
theorem ends_forM_put {M : ChildMap} {keys : List Uri} {res : Result Exn Unit}
    (h : (keys.forM (visit M fun _ c => DocumentCache.put c)).Ends σ.Step w res w') :
    res = .returned () ∧ w'.store.index =
      (keys.filterMap fun key => M.lookup key).foldl (TreeIndex.put Uri.buildParentUri)
        w.store.index := by
  induction keys generalizing w with
  | nil =>
    obtain ⟨rfl, rfl⟩ := h
    exact ⟨rfl, rfl⟩
  | cons key keys ih =>
    rw [List.forM, visit] at h
    cases hc : M.lookup key with
    | none =>
      rw [hc] at h
      rw [List.filterMap_cons, hc]
      exact ih h
    | some c =>
      rw [hc] at h
      obtain ⟨t, _, hindex, h⟩ := ends_seq_put h
      rw [List.filterMap_cons, hc, List.foldl_cons, ← hindex]
      exact ih h

theorem ends_putChildren {g : MapId} (hg : (w.store.metadata r).children = some g)
    {res : Result Exn Unit} (h : (putChildren r (some g)).Ends σ.Step w res w') :
    res = .returned () ∧ AllPut w.store.index r w'.store.index := by
  simp only [putChildren, forValues, memory, perform, Prog.act_bind, Prog.ctorPure_bind,
    ends_memory, ends_hashOrder, Store.exec] at h
  obtain ⟨⟨keys, hperm⟩, h⟩ := h
  obtain ⟨rfl, hindex⟩ := ends_forM_put h
  refine ⟨rfl, _, fun c => ?_, hindex⟩
  have hchildren : w.store.index.children r = some fun k => (w.store.maps r g).lookup k := by
    simp [Store.index, hg]
  rw [List.mem_filterMap, hchildren]
  constructor
  · rintro ⟨k, _, hk⟩
    exact ⟨_, k, rfl, hk⟩
  · rintro ⟨m, k, hm, hk⟩
    obtain rfl := Option.some.inj hm
    have hlookup : (w.store.maps r g).lookup k = some c := hk
    have hmem : k ∈ w.store.maps r g := AList.lookup_isSome.mp (by rw [hlookup]; rfl)
    exact ⟨k, hperm.mem_iff.mpr hmem, hk⟩

/-- Where the children are loaded, the object has a map of them. -/
theorem exists_children_of_loaded {s : Store} (h : Loaded i r L s.index) :
    ∃ g, (s.metadata r).children = some g := by
  obtain ⟨l, m, _, hl⟩ := h
  have hsome : s.index.children r = some m := by
    rw [hl]
    exact TreeIndex.children_setChildren_self
  obtain ⟨g, hg, _⟩ := Option.map_eq_some_iff.mp hsome
  exact ⟨g, hg⟩

/-- **A children task** leaves new nodes that nothing refers to, or loads
the children and indexes them all; where the directory cannot be closed,
they are loaded and not indexed. -/
theorem ends_loadChildrenTask {cancelled : Bool} (hr : r < w.store.index.size)
    {res : Result Exn Unit} (h : (loadChildrenTask n cancelled r).Ends σ.Step w res w') :
    w.store.index.Extends w'.store.index ∨
      ∃ j, Loaded w.store.index r (σ.listing w.server.opened (w.store.index.key r)) j ∧
        (∀ m ≤ (σ.listing w.server.opened (w.store.index.key r)).length + 1,
          σ.fault (w.server.calls + m) = none) ∧
        (AllPut j r w'.store.index ∨
          (w'.store.index = j ∧ σ.fault (w.server.calls +
            ((σ.listing w.server.opened (w.store.index.key r)).length + 2)) ≠ none)) := by
  simp only [loadChildrenTask, runTask] at h
  obtain ⟨r', t, hattempt, h⟩ := Prog.ends_bind.mp h
  obtain ⟨res', hrun, rfl⟩ := Prog.ends_attempt.mp hattempt
  -- Whatever is notified, the store stays.
  have hnotify {s : World Server} {res : Result Exn Unit}
      (h : (notifyLoaded r).Ends σ.Step s res w') : w' = s := by
    simp only [notifyLoaded, notifyChange, getUri, memory, perform, Prog.act_bind,
      Prog.ctorPure_bind, Prog.pure_bind, ends_memory, ends_notifyChange] at h
    exact h.2
  rcases ends_seq hrun with ⟨_, s, hload, hget⟩ | ⟨x, hload, rfl⟩ | ⟨hload, rfl⟩
  · rcases ends_loadChildren hr hload with ⟨_, hres⟩ | ⟨hloaded, hfaults, _⟩
    · exact absurd rfl hres
    simp only [getChildren, memory, perform, Prog.act_bind, Prog.ctorPure_bind, ends_memory,
      Prog.ends_pure] at hget
    obtain ⟨rfl, rfl⟩ := hget
    obtain ⟨g, hg⟩ := exists_children_of_loaded hloaded
    refine .inr ⟨_, hloaded, hfaults, .inl ?_⟩
    have hfinish (h : (finishLoading r (some g)).Ends σ.Step s res w') :
        AllPut s.store.index r w'.store.index := by
      obtain ⟨_, s', hput, h⟩ := ends_seq_of_returns
        (P := fun _ s' => AllPut s.store.index r s'.store.index)
        (fun _ _ h => ⟨(), ends_putChildren hg h⟩) h
      rw [hnotify h]
      exact hput
    have hread : (Store.exec (.read r) s.store).1.children = some g := hg
    change Prog.Ends σ.Step (if cancelled then _ else _) s res w' at h
    rw [hread] at h
    split at h
    all_goals exact hfinish h
  all_goals
    have hw : w' = t := by
      first
      | exact h.2
      | change Prog.Ends σ.Step (if cancelled then _ else _) t res w' at h
        split at h
        · exact h.2
        · exact hnotify h
    subst hw
    rcases ends_loadChildren hr hload with ⟨hext, _⟩ | ⟨hloaded, hfaults, hres | hclose⟩
    · exact .inl hext
    · cases hres
    · exact .inr ⟨_, hloaded, hfaults, .inr ⟨rfl, hclose⟩⟩

theorem key_of_loaded (h : Loaded i r L j) (hr : r < i.size) : j.key r = i.key r := by
  obtain ⟨l, m, hfresh, rfl⟩ := h
  exact hfresh.grown.key_eq hr

@[simp] theorem key_insertNew : (insertNew i u).key i.size = u := TreeIndex.key_add_size

theorem size_lt_insertNew : i.size < (insertNew i u).size := Nat.lt_succ_self _

/-- The exception clause of the mount checker changes neither the world
nor whether it returns. -/
theorem ends_mountChecker {p : Proc Unit} {res : Result Exn Unit}
    (h : (p.catching (fun _ => true) fun x => do
      perform (.shares (.removeCredential u))
      .throw x).Ends σ.Step w res w') :
    ∃ res', p.Ends σ.Step w res' w' ∧ (res = .returned () ↔ res' = .returned ()) := by
  obtain ⟨r', t, hp, hc⟩ := Prog.ends_catching.mp h
  rcases r' with _ | x | _
  · obtain ⟨rfl, rfl⟩ := hc
    exact ⟨_, hp, Iff.rfl⟩
  · simp only [Prog.Caught, if_true, perform, Prog.act_bind, Prog.ctorPure_bind, ends_shares,
      Prog.ends_throw] at hc
    obtain ⟨_, rfl, rfl⟩ := hc
    exact ⟨_, hp, by simp⟩
  · obtain ⟨rfl, rfl⟩ := hc
    exact ⟨_, hp, Iff.rfl⟩

theorem ends_runMount (hr : r < w.store.index.size) {res : Result Exn Unit}
    (h : (runMount n u r).Ends σ.Step w res w') :
    (w.store.index.Extends w'.store.index ∧ res ≠ .returned ()) ∨
      (Loaded w.store.index r (σ.listing w.server.opened (w.store.index.key r)) w'.store.index ∧
        ∀ j ≤ (σ.listing w.server.opened (w.store.index.key r)).length + 1,
          σ.fault (w.server.calls + j) = none) := by
  simp only [runMount, perform, Prog.act_bind, Prog.ctorPure_bind, ends_shares] at h
  obtain ⟨begun, h⟩ := h
  rcases begun with x | ⟨⟩
  · obtain ⟨rfl, rfl⟩ := h
    exact .inl ⟨.refl, nofun⟩
  simp only [Prog.ofExcept, Prog.ctorPure_bind] at h
  have hload {res : Result Exn Unit} {t : World Server}
      (h : (loadChildren n r).Ends σ.Step w res t) := ends_loadChildren hr h
  rcases ends_seq h with ⟨_, t, hcheck, h⟩ | ⟨x, hcheck, rfl⟩ | ⟨hcheck, rfl⟩
  · obtain ⟨res', hp, hres⟩ := ends_mountChecker hcheck
    rcases hload hp with ⟨_, hne⟩ | ⟨hloaded, hfaults, _⟩
    · exact absurd (hres.mp rfl) hne
    simp only [ends_shares] at h
    obtain ⟨saved, h⟩ := h
    have ht : w' = t := by
      rcases saved with x | ⟨⟩
      · exact h.2
      · exact h.2
    rw [ht]
    exact .inr ⟨hloaded, hfaults⟩
  all_goals
    obtain ⟨res', hp, hres⟩ := ends_mountChecker hcheck
    rcases hload hp with ⟨hext, _⟩ | ⟨hloaded, hfaults, _⟩
    · exact .inl ⟨hext, nofun⟩
    · exact .inr ⟨hloaded, hfaults⟩

/-- **A mount** that is not cancelled leaves the share uncached where it
was mounted before; else it caches the share, loads and indexes its
children, or takes it out again. -/
theorem ends_mountServer {host share : String} {res : Result Exn Unit}
    (hfuel : res ≠ .outOfFuel)
    (h : (mountServer n false host share).Ends σ.Step w res w') :
    let u := Uri.ofShare host share
    let r := w.store.index.size
    let L := σ.listing w.server.opened u
    w.store.index.Extends w'.store.index ∨
      (∃ j, ((insertNew w.store.index u).Extends j ∨ Loaded (insertNew w.store.index u) r L j) ∧
        w'.store.index = j.remove Uri.buildParentUri u) ∨
      ∃ j, Loaded (insertNew w.store.index u) r L j ∧
        (∀ m ≤ L.length + 1, σ.fault (w.server.calls + m) = none) ∧
        AllPut j r w'.store.index := by
  intro u r L
  obtain ⟨m, huri, _, hch, h⟩ := ends_seq_make h
  simp only [memory, perform, Prog.act_bind, Prog.ctorPure_bind, ends_memory, ends_shares] at h
  obtain ⟨mounted, h⟩ := h
  have hnew : (Store.exec (.new m) w.store).2.index = w.store.index.add u := by
    rw [Store.index_new hch, huri]
  split at h
  · obtain ⟨rfl, rfl⟩ := h
    rw [hnew]
    exact .inl TreeIndex.extends_add
  refine .inr ?_
  obtain ⟨t, hserver, hput, h⟩ := ends_seq_put h
  have hcached : t.store.index = insertNew w.store.index u := by
    rw [hput]
    exact congrArg (TreeIndex.put _ · _) hnew
  have hr : r < t.store.index.size := by
    rw [hcached]
    exact size_lt_insertNew
  have hkey : t.store.index.key r = u := by rw [hcached, key_insertNew]
  obtain ⟨r', s, hattempt, h⟩ := Prog.ends_bind.mp h
  obtain ⟨res', hrun, rfl⟩ := Prog.ends_attempt.mp hattempt
  have hmount := ends_runMount hr hrun
  rw [hkey, hserver, hcached] at hmount
  -- A mount that has failed takes out the URI of the object, the share's.
  have hfailed (h : (do DocumentCache.remove (← getUri r) : Proc Unit).Ends σ.Step s res w')
      (hj : (insertNew w.store.index u).Extends s.store.index ∨
        Loaded (insertNew w.store.index u) r L s.store.index) :
      w'.store.index = s.store.index.remove Uri.buildParentUri u := by
    simp only [getUri, memory, perform, Prog.act_bind, Prog.ctorPure_bind, Prog.pure_bind,
      ends_memory] at h
    have hkey' : s.store.index.key r = u := by
      rcases hj with hext | hloaded
      · rw [hext.key_eq size_lt_insertNew, key_insertNew]
      · rw [key_of_loaded hloaded size_lt_insertNew, key_insertNew]
    rw [(ends_remove h).2.2]
    exact congrArg _ hkey'
  rcases res' with _ | x | _
  · rcases hmount with ⟨_, hne⟩ | ⟨hloaded, hfaults⟩
    · exact absurd rfl hne
    obtain ⟨g, hg⟩ := exists_children_of_loaded hloaded
    refine .inr ⟨_, hloaded, hfaults, ?_⟩
    change (do putChildren r (← getChildren r) : Proc Unit).Ends σ.Step s res w' at h
    simp only [getChildren, memory, perform, Prog.act_bind, Prog.ctorPure_bind, Prog.pure_bind,
      ends_memory] at h
    rw [show (Store.exec (.read r) s.store).1.children = some g from hg] at h
    exact (ends_putChildren hg h).2
  · have hj := hmount.imp And.left And.left
    exact .inl ⟨s.store.index, hj, hfailed h hj⟩
  · exact absurd h.1 hfuel

end Loading

end SambaProvider

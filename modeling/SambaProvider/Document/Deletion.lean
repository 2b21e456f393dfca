import Mathlib.Tactic.Set
import SambaProvider.Document.Listing

/-!
# What a deletion does to the index

A deletion takes URIs out of the index one after another: those of the
documents it has deleted, and in the end that of the document it was
called for. Where the listings of the server do not change and nothing
is missing, these are all documents listed below it.
-/

namespace SambaProvider

open Lib DocumentMetadata SambaDocumentsProvider

variable {σ : Scenario} {w w' : World Server} {α : Type} {u v k : Uri} {dir : SmbDir} {n : ℕ}
  {i : TreeIndex Uri} {us vs : List Uri} {tree : Uri → List DirectoryEntry}

/-! ## Listed documents -/

/-- The children of a local metadata object with one more entry. -/
def addEntry (uri : Uri) (children : AList fun _ : Uri => DirectoryEntry)
    (entry : DirectoryEntry) : AList fun _ : Uri => DirectoryEntry :=
  match uri.buildChildUri entry with
  | none => children
  | some childUri => children.insert childUri entry

/-- The children of a directory with this listing. -/
def childEntries (uri : Uri) (listing : List DirectoryEntry) :
    AList fun _ : Uri => DirectoryEntry :=
  listing.foldl (addEntry uri) ∅

/-- A document found below a directory by going through the listings. -/
inductive ListedBelow (tree : Uri → List DirectoryEntry) : Uri → Uri → Prop
  | child {u k : Uri} {e : DirectoryEntry} :
    (childEntries u (tree u)).lookup k = some e → ListedBelow tree u k
  | inside {u v k : Uri} {e : DirectoryEntry} :
    (childEntries u (tree u)).lookup v = some e → getMimeType e = .ok .directory →
    ListedBelow tree v k → ListedBelow tree u k

/-- Every directory handle lists what the tree has for its URI. -/
def Scenario.Static (σ : Scenario) (tree : Uri → List DirectoryEntry) : Prop :=
  ∀ dir u, σ.listing dir u = tree u

/-! ## Removals -/

theorem removeAll_append : removeAll (us ++ vs) i = removeAll vs (removeAll us i) :=
  List.foldl_append

theorem flat_removeAll_eq : (removeAll us i).flat k = if k ∈ us then none else i.flat k := by
  induction us generalizing i with
  | nil => rfl
  | cons u us ih =>
    rw [removeAll, List.foldl_cons, ← removeAll, ih]
    by_cases hk : k = u
    · subst hk
      simp [TreeIndex.remove]
    · simp [TreeIndex.remove, hk]

/-- A part of a deletion: it takes some URIs out, throws an `IOException`
only where the server has, and where it returns, has taken out `goal`. -/
def Removes (σ : Scenario) (goal : Set Uri) (w : World Server) (res : Result Exn Unit)
    (w' : World Server) : Prop :=
  ∃ us, w'.store.index = removeAll us w.store.index ∧
    (∀ x, res = .threw x → x.isIOException = true → ∃ m, σ.fault m = some x) ∧
    (res = .returned () → ∀ k ∈ goal, k ∈ us)

theorem Removes.seq {p : Proc Unit} {f : Unit → Proc Unit} {goal goal' : Set Uri}
    {res : Result Exn Unit}
    (hp : ∀ res t, p.Ends σ.Step w res t → Removes σ goal w res t)
    (hf : ∀ t res w', (f ()).Ends σ.Step t res w' → Removes σ goal' t res w')
    (h : (p >>= f).Ends σ.Step w res w') : Removes σ (goal ∪ goal') w res w' := by
  rcases ends_seq h with ⟨_, t, hpt, hft⟩ | ⟨x, hpt, rfl⟩ | ⟨hpt, rfl⟩
  · obtain ⟨us, hus, _, hgoal⟩ := hp _ _ hpt
    obtain ⟨vs, hvs, hexc, hgoal'⟩ := hf _ _ _ hft
    refine ⟨us ++ vs, ?_, hexc, fun hres k hk => ?_⟩
    · rw [removeAll_append, hvs, hus]
    · rcases hk with hk | hk
      · exact List.mem_append_left _ (hgoal rfl k hk)
      · exact List.mem_append_right _ (hgoal' hres k hk)
  · obtain ⟨us, hus, hexc, _⟩ := hp _ _ hpt
    exact ⟨us, hus, hexc, nofun⟩
  · obtain ⟨us, hus, _, _⟩ := hp _ _ hpt
    exact ⟨us, hus, nofun, nofun⟩

theorem Removes.mono {goal goal' : Set Uri} {res : Result Exn Unit} (hsub : goal' ⊆ goal)
    (h : Removes σ goal w res w') : Removes σ goal' w res w' := by
  obtain ⟨us, hus, hexc, hgoal⟩ := h
  exact ⟨us, hus, hexc, fun hres k hk => hgoal hres k (hsub hk)⟩

/-- A part that leaves the store alone. -/
theorem Removes.of_store_eq {goal : Set Uri} {res : Result Exn Unit}
    (hstore : w'.store = w.store)
    (hexc : ∀ x, res = .threw x → x.isIOException = true → ∃ m, σ.fault m = some x)
    (hgoal : res = .returned () → goal = ∅) : Removes σ goal w res w' := by
  refine ⟨[], by rw [hstore]; rfl, hexc, fun hres k hk => ?_⟩
  rw [hgoal hres] at hk
  exact hk.elim

/-- A call of the client leaves the store alone, and throws what the
server has. -/
theorem ends_smb_store {c : SmbCall} {res : Result Exn c.Value}
    (h : (smb c).Ends σ.Step w res w') :
    w'.store = w.store ∧ ∀ x, res = .threw x → ∃ m, σ.fault m = some x := by
  rcases ends_smb.mp h with ⟨x, hx, rfl, rfl⟩ | ⟨_, a, t, _, rfl, rfl⟩
  · refine ⟨rfl, fun y hy => ?_⟩
    obtain rfl := Result.threw.inj hy
    exact ⟨_, hx⟩
  · exact ⟨rfl, nofun⟩

theorem removes_unlink {res : Result Exn Unit} (h : (smb (.unlink u)).Ends σ.Step w res w') :
    Removes σ ∅ w res w' :=
  .of_store_eq (ends_smb_store h).1 (fun x hx _ => (ends_smb_store h).2 x hx) fun _ => rfl

theorem removes_rmdir {res : Result Exn Unit} (h : (smb (.rmdir u)).Ends σ.Step w res w') :
    Removes σ ∅ w res w' :=
  .of_store_eq (ends_smb_store h).1 (fun x hx _ => (ends_smb_store h).2 x hx) fun _ => rfl

theorem removes_remove {res : Result Exn Unit}
    (h : (DocumentCache.remove u).Ends σ.Step w res w') : Removes σ {u} w res w' := by
  obtain ⟨rfl, _, hindex⟩ := ends_remove h
  refine ⟨[u], hindex, nofun, fun _ k hk => ?_⟩
  rw [show k = u from hk]
  exact List.mem_singleton_self u

theorem removes_revoke {res : Result Exn Unit}
    (h : (revokeDocumentPermission u).Ends σ.Step w res w') : Removes σ ∅ w res w' := by
  simp only [revokeDocumentPermission, perform, ends_revokeDocumentPermission,
    Prog.ends_ctorPure] at h
  obtain ⟨rfl, rfl⟩ := h
  exact .of_store_eq rfl nofun fun _ => rfl

/-- **A loop of removals** takes out what every turn does. -/
theorem Removes.forM {f : Uri → Proc Unit} {goal : Uri → Set Uri} {keys : List Uri}
    {res : Result Exn Unit}
    (hf : ∀ k ∈ keys, ∀ w res w', (f k).Ends σ.Step w res w' → Removes σ (goal k) w res w')
    (h : (keys.forM f).Ends σ.Step w res w') :
    Removes σ {v | ∃ k ∈ keys, v ∈ goal k} w res w' := by
  induction keys generalizing w res w' with
  | nil =>
    obtain ⟨rfl, rfl⟩ := h
    exact .of_store_eq rfl nofun fun _ => by simp
  | cons key keys ih =>
    rw [List.forM] at h
    refine (Removes.seq (hf key List.mem_cons_self w)
      (fun t res w' h => ih (fun k hk => hf k (List.mem_cons_of_mem key hk)) h) h).mono ?_
    rintro v ⟨k, hk, hv⟩
    rcases List.mem_cons.mp hk with rfl | hk
    · exact .inl hv
    · exact .inr ⟨k, hk, hv⟩

/-! ## The recursion -/

/-- A local listing leaves the store alone and has the entries of the
directory. -/
theorem ends_loadLocalChildren {res : Result Exn (AList fun _ : Uri => DirectoryEntry)}
    (h : (loadLocalChildren n u).Ends σ.Step w res w') :
    w'.store = w.store ∧
      (∀ x, res = .threw x → ∃ m, σ.fault m = some x) ∧
      ∀ children, res = .returned children →
        children = childEntries u (σ.listing w.server.opened u) := by
  rcases ends_seq_smb h with ⟨x, hx, rfl, rfl⟩ | ⟨_, dir, s, ⟨hdir, hs⟩, h⟩
  · refine ⟨rfl, fun y hy => ?_, nofun⟩
    obtain rfl := Result.threw.inj hy
    exact ⟨_, hx⟩
  have hpending : s.pending dir = σ.listing w.server.opened u := by
    rw [hdir, hs]
    exact Function.update_self ..
  obtain ⟨r', t, hread, hclose⟩ := Prog.ends_withResource.mp h
  let I (L : List DirectoryEntry) (acc : AList fun _ : Uri => DirectoryEntry) (s : Store) : Prop :=
    s = w.store ∧ L.foldl (addEntry u) acc = childEntries u (σ.listing w.server.opened u)
  have hI : I (s.pending dir) ∅ w.store := ⟨rfl, by rw [hpending]; rfl⟩
  have hloop := readChildren_rule (u := u) (I := I) (w := ⟨w.store, s⟩)
    (by
      rintro L acc t res t' _ ⟨rfl, rfl⟩
      exact ⟨rfl, rfl⟩)
    (by
      rintro e L acc s ⟨hs, hfold⟩ hnone
      refine ⟨hs, ?_⟩
      rwa [List.foldl_cons, addEntry, hnone] at hfold)
    (by
      rintro e L acc k t res t' ⟨hs, hfold⟩ hk ⟨rfl, rfl⟩
      refine ⟨e, rfl, rfl, hs, ?_⟩
      rwa [List.foldl_cons, addEntry, hk] at hfold)
    hI hread
  have hbody : t.store = w.store ∧ (∀ x, r' = .threw x → ∃ m, σ.fault m = some x) ∧
      ∀ children, r' = .returned children →
        children = childEntries u (σ.listing w.server.opened u) := by
    rcases hloop with ⟨⟨_, _, hs, _⟩, hne, hexc⟩ | ⟨M, rfl, ⟨hs, hfold⟩, _⟩
    · exact ⟨hs, hexc, fun M hM => absurd hM (hne M)⟩
    · refine ⟨hs, nofun, fun M' hM' => ?_⟩
      obtain rfl := Result.returned.inj hM'
      exact hfold
  rcases hclose with ⟨_, rfl, rfl⟩ | ⟨_, c, hc, rfl⟩
  · exact ⟨hbody.1, nofun, nofun⟩
  obtain ⟨hstore, hexc⟩ := ends_smb_store hc
  refine ⟨hstore.trans hbody.1, fun x hx => ?_, fun children hch => ?_⟩
  · rcases r' with a | y | _
    · rcases c with _ | z | _
      · cases hx
      · obtain rfl := Result.threw.inj hx
        exact hexc z rfl
      · cases hx
    · rcases c with _ | _ | _
      · exact hbody.2.1 x hx
      · exact hbody.2.1 x hx
      · cases hx
    · rcases c with _ | _ | _ <;> cases hx
  · rcases r' with a | y | _
    · rcases c with _ | z | _
      · exact hbody.2.2 children hch
      · cases hch
      · cases hch
    · rcases c with _ | _ | _ <;> cases hch
    · rcases c with _ | _ | _ <;> cases hch

/-- What the deletion of a folder takes out. -/
def covered (σ : Scenario) (u : Uri) : Set Uri :=
  {k | k = u ∨ ∃ tree, σ.Static tree ∧ ListedBelow tree u k}

theorem removes_deleteFile {res : Result Exn Unit} (h : (deleteFile u).Ends σ.Step w res w') :
    Removes σ {u} w res w' := by
  refine (Removes.seq (fun _ _ => removes_unlink)
    (fun _ _ _ h => Removes.seq (fun _ _ => removes_remove)
      (fun _ _ _ => removes_revoke) h) h).mono ?_
  intro k hk
  exact .inr (.inl hk)

/-- **The deletion of a folder** takes out the folder and, where the
listings do not change, all that is listed below it. -/
theorem removes_recursiveDeleteFolder {res : Result Exn Unit}
    (h : (recursiveDeleteFolder n u).Ends σ.Step w res w') :
    Removes σ (covered σ u) w res w' := by
  induction n generalizing u w res w' with
  | zero =>
    obtain ⟨rfl, rfl⟩ := h
    exact .of_store_eq rfl (by simp) (by simp)
  | succ n ih =>
    rcases ends_seq h with ⟨children, t, hload, h⟩ | ⟨x, hload, rfl⟩ | ⟨hload, rfl⟩
    · obtain ⟨hstore, _, hchildren⟩ := ends_loadLocalChildren hload
      obtain rfl := hchildren children rfl
      set L := σ.listing w.server.opened u with hL
      -- What the turn of the loop for a child takes out.
      let goal (k : Uri) : Set Uri :=
        {v | ∃ e, (childEntries u L).lookup k = some e ∧
          (v = k ∨ getMimeType e = .ok .directory ∧ v ∈ covered σ k)}
      have hloop (res : Result Exn Unit) (t' : World Server)
          (h : (forValues (childEntries u L) fun childUri entry => do
            if ← isDirectory entry then recursiveDeleteFolder n childUri
            else deleteFile childUri).Ends σ.Step t res t') :
          Removes σ {v | ∃ k ∈ (childEntries u L).keys, v ∈ goal k} t res t' := by
        simp only [forValues, perform, Prog.act_bind, Prog.ctorPure_bind, ends_hashOrder] at h
        obtain ⟨⟨keys, hperm⟩, h⟩ := h
        have hturn (k : Uri) (_ : k ∈ keys) (s : World Server) (res : Result Exn Unit)
            (s' : World Server)
            (h : (visit (childEntries u L) (fun childUri entry => do
              if ← isDirectory entry then recursiveDeleteFolder n childUri
              else deleteFile childUri) k).Ends σ.Step s res s') : Removes σ (goal k) s res s' := by
          unfold visit at h
          split at h
          · rename_i e he
            rcases ends_isDirectory h with ⟨x, hx, rfl, rfl⟩ | ⟨hdir, h⟩ | ⟨⟨ext, hext⟩, h⟩
            · refine .of_store_eq rfl (fun y hy hio => ?_) (by simp)
              obtain rfl := Result.threw.inj hy
              exact absurd hio (by simp [hx])
            · refine (ih h).mono ?_
              rintro v ⟨e', he', rfl | ⟨_, hv⟩⟩
              · exact .inl rfl
              · exact hv
            · refine (removes_deleteFile h).mono ?_
              rintro v ⟨e', he', rfl | ⟨hdir, _⟩⟩
              · rfl
              · obtain rfl := Option.some.inj (he.symm.trans he')
                rw [hext] at hdir
                cases hdir
          · rename_i hnone
            obtain ⟨rfl, rfl⟩ := h
            refine .of_store_eq rfl (by simp) fun _ => ?_
            refine Set.eq_empty_of_forall_notMem ?_
            rintro v ⟨e, he, _⟩
            rw [hnone] at he
            cases he
        refine (Removes.forM hturn h).mono ?_
        rintro v ⟨k, hk, hv⟩
        exact ⟨k, hperm.mem_iff.mpr hk, hv⟩
      have hrest : Removes σ _ t res w' := Removes.seq hloop
        (fun _ _ _ h => Removes.seq (fun _ _ => removes_rmdir)
          (fun _ _ _ h => Removes.seq (fun _ _ => removes_remove)
            (fun _ _ _ => removes_revoke) h) h) h
      obtain ⟨us, hus, hexc, hgoal⟩ := hrest
      refine ⟨us, by rw [hus, hstore], hexc, fun hres k hk => hgoal hres k ?_⟩
      rcases hk with rfl | ⟨tree, hstatic, hbelow⟩
      · exact .inr (.inr (.inl rfl))
      · have hlisting : tree u = L := (hstatic _ u).symm
        refine .inl ?_
        cases hbelow with
        | child he =>
          rw [hlisting] at he
          exact ⟨k, AList.lookup_isSome.mp (by rw [he]; rfl), _, he, .inl rfl⟩
        | @inside _ v _ e he hdir hk =>
          rw [hlisting] at he
          exact ⟨v, AList.lookup_isSome.mp (by rw [he]; rfl), e, he,
            .inr ⟨hdir, .inr ⟨tree, hstatic, hk⟩⟩⟩
    · obtain ⟨hstore, hexc, _⟩ := ends_loadLocalChildren hload
      refine .of_store_eq hstore (fun y hy _ => ?_) (by simp)
      obtain rfl := Result.threw.inj hy
      exact hexc x rfl
    · obtain ⟨hstore, _, _⟩ := ends_loadLocalChildren hload
      exact .of_store_eq hstore (by simp) (by simp)

/-- What `deleteDocument` does before its exception clauses. -/
theorem removes_deleteBody {res : Result Exn Unit}
    (h : (do
      let metadata ← fromUri u
      deleteTree n metadata
      notifyChange u.buildParentUri : Proc Unit).Ends σ.Step w res w') :
    Removes σ {k | k = u ∨ (σ.stat u).isDir ∧ k ∈ covered σ u} w res w' ∧
      (u.getPathSegments = [] → ∃ x, res = .threw x ∧ x.isIOException = false) := by
  have hnotify (t : World Server) (res : Result Exn Unit) (w' : World Server)
      (h : (notifyChange u.buildParentUri).Ends σ.Step t res w') : Removes σ ∅ t res w' := by
    simp only [notifyChange, perform, ends_notifyChange, Prog.ends_ctorPure] at h
    obtain ⟨rfl, rfl⟩ := h
    exact .of_store_eq rfl nofun fun _ => rfl
  rcases ends_seq h with ⟨m, t, hm, h⟩ | ⟨x, hm, rfl⟩ | ⟨hm, rfl⟩
  · obtain ⟨hstore, ⟨_, x, hx, _⟩ | ⟨hseg, ⟨x, _, hx⟩ | ⟨m', hm', huri, _, htype⟩⟩⟩ :=
      ends_fromUri hm
    · cases hx
    · cases hx
    obtain rfl := Result.returned.inj hm'
    refine ⟨?_, fun hnil => absurd hnil hseg⟩
    -- The type the server has given decides which deletion is made.
    have htree (res : Result Exn Unit) (t' : World Server)
        (h : (deleteTree n m).Ends σ.Step t res t') :
        Removes σ {k | k = u ∨ (σ.stat u).isDir ∧ k ∈ covered σ u} t res t' := by
      rcases ends_isDirectory h with ⟨x, hx, rfl, rfl⟩ | ⟨hdir, h⟩ | ⟨⟨ext, hext⟩, h⟩
      · refine .of_store_eq rfl (fun y hy hio => ?_) nofun
        obtain rfl := Result.threw.inj hy
        exact absurd hio (by simp [hx])
      · rw [huri] at h
        refine (removes_recursiveDeleteFolder h).mono ?_
        rintro k (rfl | ⟨_, hk⟩)
        · exact .inl rfl
        · exact hk
      · rw [huri] at h
        refine (removes_deleteFile h).mono ?_
        rintro k (rfl | ⟨hdir, _⟩)
        · rfl
        · rw [if_pos hdir] at htype
          simp [getMimeType, htype] at hext
    obtain ⟨us, hus, hexc, hgoal⟩ := Removes.seq htree hnotify h
    exact ⟨us, by rw [hus, hstore], hexc, fun hres k hk => hgoal hres k (.inl hk)⟩
  · obtain ⟨hstore, ⟨hseg, y, hy, hio⟩ | ⟨hseg, ⟨y, hf, hy⟩ | ⟨m', hm', _⟩⟩⟩ := ends_fromUri hm
    · obtain rfl := Result.threw.inj hy
      refine ⟨.of_store_eq hstore (fun y hy hio' => ?_) nofun, fun _ => ⟨x, rfl, hio⟩⟩
      obtain rfl := Result.threw.inj hy
      exact absurd hio' (by simp [hio])
    · obtain rfl := Result.threw.inj hy
      refine ⟨.of_store_eq hstore (fun y hy _ => ?_) nofun, fun hnil => absurd hnil hseg⟩
      obtain rfl := Result.threw.inj hy
      exact ⟨_, hf⟩
    · cases hm'
  · obtain ⟨_, ⟨_, y, hy, _⟩ | ⟨_, ⟨y, _, hy⟩ | ⟨m', hm', _⟩⟩⟩ := ends_fromUri hm
    · cases hy
    · cases hy
    · cases hm'

/-- **The deletion of a document** that returns has taken out its URI;
and if the document is a directory, no call has found its target
missing and the listings do not change, all that is listed below it. -/
theorem ends_deleteDocument {res : Result Exn Unit}
    (h : (deleteDocument n u).Ends σ.Step w res w') :
    ∃ us, w'.store.index = removeAll us w.store.index ∧
      (res = .returned () → u.getPathSegments ≠ [] ∧ u ∈ us ∧
        ((σ.stat u).isDir → (∀ m x, σ.fault m = some x → x.isFileNotFound = false) →
          ∀ k ∈ covered σ u, k ∈ us)) := by
  obtain ⟨r', t, hbody, hcaught⟩ := Prog.ends_catching.mp h
  obtain ⟨⟨us, hus, hexc, hgoal⟩, hseg⟩ := removes_deleteBody hbody
  rcases r' with _ | x | _
  · obtain ⟨rfl, rfl⟩ := hcaught
    refine ⟨us, hus, fun _ => ⟨fun hnil => ?_, hgoal rfl u (.inl rfl), fun hdir _ k hk => ?_⟩⟩
    · obtain ⟨x, hx, _⟩ := hseg hnil
      cases hx
    · exact hgoal rfl k (.inr ⟨hdir, hk⟩)
  · change if x.isIOException then _ else _ at hcaught
    split at hcaught
    · rename_i hio
      change Prog.Ends σ.Step (if x.isFileNotFound then _ else _) t res w' at hcaught
      split at hcaught
      · -- Something was missing: the URI is taken out after all.
        rename_i hmissing
        obtain ⟨s, _, hremove, hcaught⟩ := ends_seq_remove hcaught
        simp only [notifyChange, perform, ends_notifyChange, Prog.ends_ctorPure] at hcaught
        obtain ⟨rfl, rfl⟩ := hcaught
        refine ⟨us ++ [u], ?_, fun _ => ⟨fun hnil => ?_, by simp, fun _ hno => ?_⟩⟩
        · rw [removeAll_append, ← hus, hremove]
          rfl
        · obtain ⟨y, hy, hio'⟩ := hseg hnil
          obtain rfl := Result.threw.inj hy
          exact absurd hio (by simp [hio'])
        · obtain ⟨m, hm⟩ := hexc x rfl hio
          exact absurd hmissing (by simp [hno m x hm])
      · obtain ⟨rfl, rfl⟩ := hcaught
        exact ⟨us, hus, nofun⟩
    · obtain ⟨rfl, rfl⟩ := hcaught
      exact ⟨us, hus, nofun⟩
  · obtain ⟨rfl, rfl⟩ := hcaught
    exact ⟨us, hus, nofun⟩

end SambaProvider

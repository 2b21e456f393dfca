import SambaProvider.Document.World

/-!
# What an operation does to the index

Each operation on the document cache is one of a few changes of the
index: nothing, a new document, forgotten children, a rename, removals,
or a load. The lemmas of this module say which, for every way in which
an operation can end; nothing after it looks at the programs again.
-/

namespace SambaProvider

open Lib DocumentMetadata SambaDocumentsProvider

variable {σ : Scenario} {w w' : World Server} {α : Type} {r : Ref} {u v : Uri}
  {i j : TreeIndex Uri}

/-- The children of a directory by its listing. -/
def childUris (uri : Uri) (listing : List DirectoryEntry) : List Uri :=
  listing.filterMap uri.buildChildUri

/-- The index with a new document. -/
def insertNew (i : TreeIndex Uri) (uri : Uri) : TreeIndex Uri :=
  (i.add uri).put Uri.buildParentUri i.size

/-- What `updateCache` does to the index. -/
def Updated (i : TreeIndex Uri) (uri newUri : Uri) (j : TreeIndex Uri) : Prop :=
  (i.flat uri = none ∧ j = i) ∨
    ∃ r, i.flat uri = some r ∧
      j = (i.detach Uri.buildParentUri r uri newUri).put Uri.buildParentUri r

/-- The URI a rename leads to, where the provider accepts it. -/
def renameTarget (uri : Uri) (displayName : String) : Option Uri :=
  if uri.buildParentUri.getPathSegments.isEmpty then none
  else uri.buildParentUri.buildNamedChildUri (some displayName)

/-- The URI a move leads to, where the provider accepts it. -/
def moveTarget (uri targetParentUri : Uri) : Option Uri :=
  if uri.getAuthority ≠ targetParentUri.getAuthority then none
  else if uri.getPathSegments.isEmpty ∨ targetParentUri.getPathSegments.isEmpty ∨
      uri.getPathSegments.head? ≠ targetParentUri.getPathSegments.head? then none
  else targetParentUri.buildNamedChildUri uri.getLastPathSegment

/-- The index with some URIs taken out one after another. -/
def removeAll (uris : List Uri) (i : TreeIndex Uri) : TreeIndex Uri :=
  uris.foldl (TreeIndex.remove Uri.buildParentUri) i

/-- A sequence that starts with a call of the client. -/
theorem ends_seq_smb {c : SmbCall} {f : c.Value → Proc α} {res : Result Exn α}
    (h : (smb c >>= f).Ends σ.Step w res w') :
    (∃ x, σ.fault w.server.calls = some x ∧ res = .threw x ∧ w' = ⟨w.store, w.server.next⟩) ∨
      (σ.fault w.server.calls = none ∧
        ∃ a t, σ.Returns c w.server.next a t ∧ (f a).Ends σ.Step ⟨w.store, t⟩ res w') := by
  rcases ends_seq h with ⟨a, t, ha, hf⟩ | ⟨x, hx, rfl⟩ | ⟨hx, _⟩
  · rcases ends_smb.mp ha with ⟨x, _, hx, _⟩ | ⟨hnone, b, s, hret, hb, rfl⟩
    · cases hx
    · obtain rfl := Result.returned.inj hb
      exact .inr ⟨hnone, a, s, hret, hf⟩
  · rcases ends_smb.mp hx with ⟨y, hy, hxy, rfl⟩ | ⟨_, b, s, _, hb, _⟩
    · obtain rfl := Result.threw.inj hxy
      exact .inl ⟨x, hy, rfl, rfl⟩
    · cases hb
  · rcases ends_smb.mp hx with ⟨y, _, hxy, _⟩ | ⟨_, b, s, _, hb, _⟩
    · cases hxy
    · cases hb

/-! ## Making metadata -/

section Making

variable {res : Result Exn α}

/-- `fromUri` leaves the store as it is, and refuses a URI without
segments before it asks the server. -/
theorem ends_fromUri {res : Result Exn DocumentMetadata}
    (h : (fromUri u).Ends σ.Step w res w') :
    w'.store = w.store ∧
      ((u.getPathSegments = [] ∧ ∃ x, res = .threw x ∧ x.isIOException = false) ∨
        (u.getPathSegments ≠ [] ∧
          ((∃ x, σ.fault w.server.calls = some x ∧ res = .threw x) ∨
            ∃ m, res = .returned m ∧ m.uri = u ∧ m.children = none ∧
              m.entry.type = if (σ.stat u).isDir then .dir else .file))) := by
  unfold fromUri at h
  split at h
  · rename_i hseg
    obtain ⟨rfl, rfl⟩ := h
    exact ⟨rfl, .inl ⟨List.isEmpty_iff.mp hseg, _, rfl, rfl⟩⟩
  · rename_i hseg
    have hne : u.getPathSegments ≠ [] := fun h => hseg (List.isEmpty_iff.mpr h)
    rcases ends_seq_smb h with ⟨x, hx, rfl, rfl⟩ | ⟨_, stat, t, ⟨rfl, rfl⟩, h⟩
    · exact ⟨rfl, .inr ⟨hne, .inl ⟨x, hx, rfl⟩⟩⟩
    · obtain ⟨m, huri, hentry, hch, rfl, rfl⟩ := ends_seq_make h
      exact ⟨rfl, .inr ⟨hne, .inr ⟨_, rfl, huri, hch, congrArg DirectoryEntry.type hentry⟩⟩⟩

/-- A new object is made and put. -/
theorem ends_newDocument {m : DocumentMetadata} (hm : m.children = none) {f : Ref → Proc α}
    (h : (memory (.new m) >>= fun r => DocumentCache.put r >>= fun _ => f r).Ends
      σ.Step w res w') :
    ∃ t, t.server = w.server ∧ t.store.index = insertNew w.store.index m.uri ∧
      (f w.store.nextRef).Ends σ.Step t res w' := by
  simp only [memory, perform, Prog.act_bind, Prog.ctorPure_bind, ends_memory] at h
  obtain ⟨t, hserver, hindex, h⟩ := ends_seq_put h
  refine ⟨t, hserver, ?_, h⟩
  rw [hindex]
  change TreeIndex.put _ (Store.exec (.new m) w.store).2.index _ = _
  rw [Store.index_new hm]
  rfl

end Making

/-! ## The operations -/

section Operations

/-- Reading a row changes nothing. -/
theorem ends_documentRow {projection : Option (List Column)} {res : Result Exn (List Cell)}
    (h : (documentRow projection r).Ends σ.Step w res w') : w' = w := by
  simp only [documentRow, memory, perform, Prog.act_bind, Prog.ctorPure_bind, ends_memory] at h
  rcases hv : getDocumentValues (projection.getD defaultDocumentProjection)
    (Store.exec (.read r) w.store).1 with x | a
  all_goals
    rw [hv] at h
    exact h.2

theorem ends_describeDocument {res : Result Exn DocumentMetadata}
    (h : (describeDocument u).Ends σ.Step w res w') :
    w'.store = w.store ∧ ∀ m, res = .returned m → m.uri = u ∧ m.children = none := by
  simp only [describeDocument, perform, Prog.act_bind, Prog.ctorPure_bind, ends_shares] at h
  obtain ⟨share, h⟩ := h
  split at h
  · unfold create at h
    obtain ⟨m, hm, huri, _, hch, rfl⟩ := ends_make h
    refine ⟨rfl, fun m' hm' => ?_⟩
    obtain rfl := Result.returned.inj (hm.symm.trans hm')
    exact ⟨huri, hch⟩
  · obtain ⟨hstore, hcases⟩ := ends_fromUri h
    refine ⟨hstore, fun m hm => ?_⟩
    subst hm
    rcases hcases with ⟨_, x, hx, _⟩ | ⟨_, ⟨x, _, hx⟩ | ⟨m', hm', huri, hch, _⟩⟩
    · cases hx
    · cases hx
    · obtain rfl := Result.returned.inj hm'
      exact ⟨huri, hch⟩

/-- **A query** answers from the cache, or indexes a new document. -/
theorem ends_queryDocument {projection : Option (List Column)} {res : Result Exn (List Cell)}
    (h : (queryDocument u projection).Ends σ.Step w res w') :
    w'.store.index = w.store.index ∨ w'.store.index = insertNew w.store.index u := by
  obtain ⟨res', h, _⟩ := ends_rethrowing h
  obtain ⟨result, _, h⟩ := ends_seq_get h
  split at h
  · rcases ends_seq h with ⟨m, t, hm, h⟩ | ⟨x, hx, _⟩ | ⟨hx, _⟩
    · obtain ⟨hstore, hcases⟩ := ends_describeDocument hm
      obtain ⟨huri, hch⟩ := hcases m rfl
      obtain ⟨t', _, hindex, h⟩ := ends_newDocument hch h
      rw [ends_documentRow h, hindex, hstore, huri]
      exact .inr rfl
    · rw [(ends_describeDocument hx).1]
      exact .inl rfl
    · rw [(ends_describeDocument hx).1]
      exact .inl rfl
  · rw [ends_documentRow h]
    exact .inl rfl

/-- **A creation** changes nothing, forgets the children of what is
cached, or indexes a new document. -/
theorem ends_createDocument {isDir : Bool} {name : String} {res : Result Exn Uri}
    (h : (createDocument u isDir name).Ends σ.Step w res w') :
    w'.store.index = w.store.index ∨
      (∃ r, w'.store.index = w.store.index.setChildren r none) ∨
      ∃ v, w'.store.index = insertNew w.store.index v := by
  obtain ⟨res', h, _⟩ := ends_rethrowing h
  simp only at h
  split at h
  · obtain ⟨_, rfl⟩ := h
    exact .inl rfl
  · rename_i v hv
    have hserver {res : Result Exn Unit} {t : World Server}
        (h : (createOnServer isDir v).Ends σ.Step w res t) : t.store = w.store := by
      unfold createOnServer at h
      split at h
      all_goals
        rcases ends_smb.mp h with ⟨_, _, _, rfl⟩ | ⟨_, _, _, _, _, rfl⟩
        · rfl
        · rfl
    rcases ends_seq h with ⟨_, t, hcreate, h⟩ | ⟨x, hx, _⟩ | ⟨hx, _⟩
    · simp only [notifyChange, perform, Prog.act_bind, Prog.ctorPure_bind, ends_notifyChange] at h
      rw [← hserver hcreate]
      obtain ⟨result, _, h⟩ := ends_seq_get h
      split at h
      · rename_i r _
        obtain ⟨_, t', hindex, h⟩ := ends_seq_of_returns
          (P := fun _ t' => t'.store.index = t.store.index.setChildren r none)
          (fun _ _ h => ⟨(), ends_reset h⟩) h
        obtain ⟨_, rfl⟩ := h
        exact .inr (.inl ⟨r, hindex⟩)
      · obtain ⟨m, huri, _, hch, h⟩ := ends_seq_make h
        obtain ⟨t', _, hindex, h⟩ := ends_newDocument hch h
        obtain ⟨_, rfl⟩ := h
        exact .inr (.inr ⟨m.uri, hindex⟩)
    · rw [hserver hx]
      exact .inl rfl
    · rw [hserver hx]
      exact .inl rfl

/-- **The update after a rename** takes the object out under its old URI
and puts it in under the new one. -/
theorem ends_updateCache {res : Result Exn Unit}
    (h : (updateCache u v).Ends σ.Step w res w') :
    res = .returned () ∧ Updated w.store.index u v w'.store.index := by
  obtain ⟨result, hitem, h⟩ := ends_seq_get h
  split at h
  · rename_i hnone
    obtain ⟨rfl, rfl⟩ := h
    exact ⟨rfl, .inl ⟨hitem.symm.trans hnone, rfl⟩⟩
  · rename_i r hr
    obtain ⟨t, _, hrename, h⟩ := ends_seq_rename h
    obtain ⟨t', _, hremove, h⟩ := ends_seq_remove h
    obtain ⟨rfl, _, hput⟩ := ends_put h
    refine ⟨rfl, .inr ⟨r, hitem.symm.trans hr, ?_⟩⟩
    rw [hput, hremove, hrename]
    rfl

theorem ends_updateCache_return {res : Result Exn Uri}
    (h : (updateCache u v >>= fun _ => pure v : Proc Uri).Ends σ.Step w res w') :
    res = .returned v ∧ Updated w.store.index u v w'.store.index := by
  obtain ⟨_, t, hupdated, h⟩ := ends_seq_of_returns
    (P := fun _ t => Updated w.store.index u v t.store.index)
    (fun _ _ h => ⟨(), ends_updateCache h⟩) h
  obtain ⟨rfl, rfl⟩ := h
  exact ⟨rfl, hupdated⟩

/-- **A rename** that returns is accepted by provider and server, and
updates the cache; one that does not leaves the index as it is. -/
theorem ends_renameDocument {name : String} {res : Result Exn Uri}
    (h : (renameDocument u name).Ends σ.Step w res w') :
    (w'.store.index = w.store.index ∧ ∀ v, res ≠ .returned v) ∨
      ∃ v, renameTarget u name = some v ∧ σ.fault w.server.calls = none ∧ res = .returned v ∧
        Updated w.store.index u v w'.store.index := by
  obtain ⟨res', h, hres⟩ := ends_rethrowing h
  simp only at h
  unfold renameTarget
  split at h
  · obtain ⟨rfl, rfl⟩ := h
    exact .inl ⟨rfl, fun v hv => nomatch (hres v).mp hv⟩
  rename_i hseg
  rw [if_neg hseg]
  split at h
  · obtain ⟨rfl, rfl⟩ := h
    exact .inl ⟨rfl, fun v hv => nomatch (hres v).mp hv⟩
  rename_i v hv
  rcases ends_seq_smb h with ⟨x, _, rfl, rfl⟩ | ⟨hfault, _, t, rfl, h⟩
  · exact .inl ⟨rfl, fun v hv => nomatch (hres v).mp hv⟩
  simp only [notifyChange, revokeDocumentPermission, perform, Prog.act_bind, Prog.ctorPure_bind,
    ends_notifyChange, ends_revokeDocumentPermission] at h
  obtain ⟨hv', hupdated⟩ := ends_updateCache_return h
  exact .inr ⟨v, hv, hfault, (hres v).mpr hv', hupdated⟩

/-- **A move** likewise. -/
theorem ends_moveDocument {target : Uri} {res : Result Exn Uri}
    (h : (moveDocument u target).Ends σ.Step w res w') :
    (w'.store.index = w.store.index ∧ ∀ v, res ≠ .returned v) ∨
      ∃ v, moveTarget u target = some v ∧ σ.fault w.server.calls = none ∧ res = .returned v ∧
        Updated w.store.index u v w'.store.index := by
  obtain ⟨res', h, hres⟩ := ends_rethrowing h
  unfold moveTarget
  split at h
  · obtain ⟨rfl, rfl⟩ := h
    exact .inl ⟨rfl, fun v hv => nomatch (hres v).mp hv⟩
  rename_i hauth
  rw [if_neg hauth]
  split at h
  · obtain ⟨rfl, rfl⟩ := h
    exact .inl ⟨rfl, fun v hv => nomatch (hres v).mp hv⟩
  rename_i hshare
  rw [if_neg hshare]
  split at h
  · obtain ⟨rfl, rfl⟩ := h
    exact .inl ⟨rfl, fun v hv => nomatch (hres v).mp hv⟩
  rename_i v hv
  rcases ends_seq_smb h with ⟨x, _, rfl, rfl⟩ | ⟨hfault, _, t, rfl, h⟩
  · exact .inl ⟨rfl, fun v hv => nomatch (hres v).mp hv⟩
  simp only [notifyChange, revokeDocumentPermission, perform, Prog.act_bind, Prog.ctorPure_bind,
    ends_notifyChange, ends_revokeDocumentPermission] at h
  obtain ⟨hv', hupdated⟩ := ends_updateCache_return h
  exact .inr ⟨v, hv, hfault, (hres v).mpr hv', hupdated⟩

/-- **A document load** indexes what it has loaded, if it has. -/
theorem ends_loadDocumentTask {cancelled : Bool} {res : Result Exn Unit}
    (h : (loadDocumentTask cancelled u).Ends σ.Step w res w') :
    w'.store.index = w.store.index ∨ w'.store.index = insertNew w.store.index u := by
  have hloaded {m : DocumentMetadata} {t : World Server} (huri : m.uri = u)
      (hch : m.children = none)
      (h : (do
        let r ← memory (.new m)
        DocumentCache.put r
        notifyChange u : Proc Unit).Ends σ.Step t res w') :
      w'.store.index = insertNew t.store.index u := by
    obtain ⟨t', _, hindex, h⟩ := ends_newDocument hch h
    simp only [notifyChange, perform, ends_notifyChange] at h
    rw [h.2, hindex, huri]
  simp only [loadDocumentTask, runTask] at h
  obtain ⟨r', t, hattempt, h⟩ := Prog.ends_bind.mp h
  obtain ⟨res', hrun, rfl⟩ := Prog.ends_attempt.mp hattempt
  obtain ⟨hstore, hcases⟩ := ends_fromUri hrun
  rw [← hstore]
  rcases res' with m | x | _
  · have hm : m.uri = u ∧ m.children = none := by
      rcases hcases with ⟨_, x, hx, _⟩ | ⟨_, ⟨x, _, hx⟩ | ⟨m', hm', huri, hch, _⟩⟩
      · cases hx
      · cases hx
      · obtain rfl := Result.returned.inj hm'
        exact ⟨huri, hch⟩
    change Prog.Ends _ (if cancelled then _ else _) _ _ _ at h
    split at h
    all_goals exact .inr (hloaded hm.1 hm.2 h)
  · change Prog.Ends _ (if cancelled then _ else _) _ _ _ at h
    split at h
    · obtain ⟨_, rfl⟩ := h
      exact .inl rfl
    · simp only [notifyChange, memory, perform, Prog.act_bind, Prog.ctorPure_bind, ends_memory,
        ends_notifyChange] at h
      obtain ⟨_, rfl⟩ := h
      exact .inl rfl
  · obtain ⟨_, rfl⟩ := h
    exact .inl rfl

end Operations

end SambaProvider

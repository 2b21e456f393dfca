import SambaProvider.Document.Race

/-!
# Removed documents and listings

Each thread alone, with the other one doing what it may: a listing that
is not late keeps what the marks say, and a deletion or a rename that has
ended has set them all, once the server has lost the document. So
together they leave the document neither in the cache nor in the children
map of its directory. A listing that is late brings it back.
-/

namespace SambaProvider

open Lib DocumentMetadata

namespace Race

variable {dir : Ref} {c : Uri} {isRename : Bool} {s t : Race} {m : Memory}

/-! ## The listing -/

/-- One effect of the listing, where it is not late. -/
def ListerTurn (dir : Ref) (c : Uri) (e : Effect) (s : Race) (a : e.Answer) (t : Race) : Prop :=
  Step c e s a t ∧ ListerOk dir c e s

/-- What the marks say holds, and some references are to objects that
exist. -/
def Holds (dir : Ref) (c : Uri) (refs : Set Ref) (s : Race) : Prop :=
  s.Ok dir c ∧ ∀ q ∈ refs, q < s.store.nextRef

/-- The objects of a children map. -/
def refsOf (children : ChildMap) : Set Ref := {q | ∃ k, children.lookup k = some q}

/-- The listing keeps `I`, whatever the removal does. -/
abbrev ListerKeeps {α : Type} (dir : Ref) (c : Uri) (I : Race → Prop) (p : Proc α) : Prop :=
  p.Keeps (ByRemover dir c) (ByLister dir c) (ListerTurn dir c) I

variable {refs : Set Ref} {α : Type} {n : ℕ} {r : Ref}

theorem Holds.byRemover (h : Holds dir c refs s) (hst : ByRemover dir c s t) :
    Holds dir c refs t :=
  ⟨hst.ok h.1, fun q hq => Nat.lt_of_lt_of_le (h.2 q hq) hst.grows⟩

theorem Holds.byLister (h : Holds dir c refs s) (hst : ByLister dir c s t) :
    Holds dir c refs t :=
  ⟨hst.ok h.1, fun q hq => Nat.lt_of_lt_of_le (h.2 q hq) hst.grows⟩

theorem holds_stable (s t : Race) (h : Holds dir c refs s) (hst : ByRemover dir c s t) :
    Holds dir c refs t := h.byRemover hst

theorem lister_memory (hm : ∀ s, Holds dir c refs s → ListerMemory dir s.store m) :
    ListerKeeps dir c (Holds dir c refs) (memory m) := by
  rintro s hs t hst a u ⟨⟨rfl, rfl⟩, hok⟩
  have ht := hs.byRemover hst
  have hby := byLister_memory ht.1 (hm t ht) hok
  exact ⟨hby, fun v hv => (ht.byLister hby).byRemover hv⟩

theorem lister_smb {call : SmbCall} (hcall : call.leaves = true) :
    ListerKeeps dir c (Holds dir c refs) (smb call) := by
  rintro s hs t hst a u ⟨⟨present, hserves, rfl⟩, _⟩
  have ht := hs.byRemover hst
  have hpresent : present = t.present := by
    unfold Serves at hserves
    split at hserves
    · split at hserves
      · rcases hserves with h | ⟨h, _⟩
        · exact h
        · rw [hcall] at h
          cases h
      · rw [hserves.2, hserves.1, hcall]
    · exact hserves
  rw [hpresent]
  refine ⟨isRely_byLister.refl t, ?_⟩
  exact Prog.keeps_ofExcept holds_stable t ht

theorem lister_currentTimeMillis :
    ListerKeeps dir c (Holds dir c refs) (perform .currentTimeMillis) := by
  rintro s hs t hst a u ⟨hstep, _⟩
  obtain rfl : t = u := hstep.symm
  exact ⟨isRely_byLister.refl t, fun v hv => (hs.byRemover hst).byRemover hv⟩

theorem lister_hashOrder {keys : List Uri} :
    ListerKeeps dir c (Holds dir c refs) (perform (.hashOrder keys)) := by
  rintro s hs t hst a u ⟨hstep, _⟩
  obtain rfl : t = u := hstep.symm
  exact ⟨isRely_byLister.refl t, fun v hv => (hs.byRemover hst).byRemover hv⟩

theorem lister_notifyChange {uri : Uri} :
    ListerKeeps dir c (Holds dir c refs) (SambaDocumentsProvider.notifyChange uri) := by
  rintro s hs t hst a u ⟨hstep, _⟩
  obtain rfl : t = u := hstep.symm
  exact ⟨isRely_byLister.refl t, fun v hv => (hs.byRemover hst).byRemover hv⟩

theorem lister_getUri : ListerKeeps dir c (Holds dir c refs) (getUri r) :=
  Prog.keeps_bind isRely_byRemover (lister_memory fun _ _ => trivial) fun _ =>
    Prog.keeps_pure holds_stable

theorem lister_getChildren : ListerKeeps dir c (Holds dir c refs) (getChildren r) :=
  Prog.keeps_bind isRely_byRemover (lister_memory fun _ _ => trivial) fun _ =>
    Prog.keeps_pure holds_stable

/-- **A child is put into the cache.** -/
theorem lister_put (hr : r ∈ refs) :
    ListerKeeps dir c (Holds dir c refs) (DocumentCache.put r) := by
  refine Prog.keeps_bind isRely_byRemover lister_getUri fun uri => ?_
  refine Prog.keeps_bind isRely_byRemover (lister_memory fun s hs => hs.2 r hr) fun _ => ?_
  refine Prog.keeps_bind isRely_byRemover lister_getUri fun uri => ?_
  refine Prog.keeps_bind isRely_byRemover (lister_memory fun _ _ => trivial) fun found => ?_
  cases found with
  | none => exact Prog.keeps_pure holds_stable
  | some parent =>
    refine Prog.keeps_bind isRely_byRemover lister_getChildren fun children => ?_
    cases children with
    | none => exact Prog.keeps_pure holds_stable
    | some g =>
      refine Prog.keeps_bind isRely_byRemover lister_getUri fun childUri => ?_
      exact lister_memory fun s hs => hs.2 r hr

theorem lister_notifyLoaded : ListerKeeps dir c (Holds dir c refs) (notifyLoaded r) :=
  Prog.keeps_bind isRely_byRemover lister_getUri fun _ => lister_notifyChange

/-- The listing from a state on, to an end as in `P`. -/
abbrev ListerSafe {α : Type} (dir : Ref) (c : Uri) (P : Result Exn α → Race → Prop) (p : Proc α)
    (s : Race) : Prop :=
  p.Safe (ByRemover dir c) (ByLister dir c) (ListerTurn dir c) P s

/-- A new child is an object that exists. -/
theorem lister_newChild {uri : Uri} {e : DirectoryEntry} (hs : Holds dir c refs s) :
    ListerSafe dir c (fun res t => Holds dir c refs t ∧
      ∀ q, res = .returned q → Holds dir c (insert q refs) t) (newChild uri e) s := by
  rintro t hst now u ⟨hstep, _⟩
  obtain rfl : t = u := hstep.symm
  have ht := hs.byRemover hst
  refine ⟨isRely_byLister.refl t, ?_⟩
  rintro t' hst' a u ⟨⟨rfl, rfl⟩, hok⟩
  have ht' := ht.byRemover hst'
  have hby := byLister_memory ht'.1 (m := .new ⟨uri, e, none, none, none, none, now⟩) rfl hok
  have hu := ht'.byLister hby
  refine ⟨hby, fun v hv => ⟨hu.byRemover hv, fun q hq => ?_⟩⟩
  obtain rfl := Result.returned.inj hq
  refine Holds.byRemover ⟨hu.1, fun q hq => ?_⟩ hv
  rcases hq with rfl | hq
  · exact Nat.lt_succ_self _
  · exact hu.2 q hq

theorem refsOf_insert {children : ChildMap} {k : Uri} :
    refsOf (children.insert k r) ⊆ insert r (refsOf children) := by
  rintro q ⟨k', hq⟩
  by_cases hk : k' = k
  · subst hk
    rw [AList.lookup_insert] at hq
    exact .inl (Option.some.inj hq).symm
  · rw [AList.lookup_insert_ne hk] at hq
    exact .inr ⟨k', hq⟩

theorem Holds.mono {refs' : Set Ref} (h : Holds dir c refs s) (hsub : refs' ⊆ refs) :
    Holds dir c refs' s := ⟨h.1, fun q hq => h.2 q (hsub hq)⟩

/-- **The loop over the directory** returns children that exist. -/
theorem lister_readChildren {handle : SmbDir} {children : ChildMap}
    (hs : Holds dir c (refsOf children) s) :
    ListerSafe dir c (fun res t => t.Ok dir c ∧
      ∀ M, res = .returned M → Holds dir c (refsOf M) t)
      (readChildren (getUri r) newChild handle n children) s := by
  induction n generalizing children s with
  | zero => exact fun t ht => ⟨(hs.byRemover ht).1, by simp⟩
  | succ n ih =>
    refine Prog.Safe.bind isRely_byRemover (lister_smb rfl s hs) (fun found t ht => ?_)
      (fun x t ht => ⟨ht.1, by simp⟩) fun t ht => ⟨ht.1, by simp⟩
    cases found with
    | none =>
      refine fun u hu => ⟨(ht.byRemover hu).1, fun M hM => ?_⟩
      obtain rfl := Result.returned.inj hM
      exact ht.byRemover hu
    | some e =>
      refine Prog.Safe.bind isRely_byRemover (lister_getUri t ht) (fun uri t ht => ?_)
        (fun x t ht => ⟨ht.1, by simp⟩) fun t ht => ⟨ht.1, by simp⟩
      cases uri.buildChildUri e with
      | none => exact ih ht
      | some k =>
        refine Prog.Safe.bind isRely_byRemover (lister_newChild ht) (fun q t ht => ?_)
          (fun x t ht => ⟨ht.1.1, by simp⟩) fun t ht => ⟨ht.1.1, by simp⟩
        exact ih ((ht.2 q rfl).mono refsOf_insert)

/-- **`loadChildren`.** -/
theorem lister_loadChildren : ListerKeeps dir c (Holds dir c ∅) (loadChildren n dir) := by
  refine Prog.keeps_catching isRely_byRemover holds_stable ?_ fun x => ?_
  · refine Prog.keeps_bind isRely_byRemover lister_getUri fun uri => ?_
    refine Prog.keeps_bind isRely_byRemover (lister_smb rfl) fun handle => ?_
    refine Prog.keeps_withResource isRely_byRemover holds_stable (lister_smb rfl) ?_
    intro s hs
    have hempty : Holds dir c (refsOf ∅) s := by
      refine ⟨hs.1, ?_⟩
      rintro q ⟨k, hk⟩
      rw [AList.lookup_empty] at hk
      cases hk
    refine Prog.Safe.bind isRely_byRemover (lister_readChildren hempty) (fun M t ht => ?_)
      (fun x t ht => ⟨ht.1, fun q hq => hq.elim⟩) fun t ht => ⟨ht.1, fun q hq => hq.elim⟩
    have hrest : ListerKeeps dir c (Holds dir c (refsOf M)) (do
        memory (.setChildren dir M)
        let now ← perform .currentTimeMillis
        memory (.write dir (.timeStamp now)) : Proc Unit) := by
      refine Prog.keeps_bind isRely_byRemover (lister_memory fun s hs => ?_) fun _ => ?_
      · exact ⟨rfl, fun k q hq => hs.2 q ⟨k, hq⟩⟩
      · exact Prog.keeps_bind isRely_byRemover lister_currentTimeMillis fun now =>
          lister_memory fun _ _ => fun _ => ⟨rfl, rfl⟩
    exact (hrest t (ht.2 M rfl)).mono fun _ _ h => h.mono fun _ hq => hq.elim
  · exact Prog.keeps_bind isRely_byRemover (lister_memory fun _ _ => fun _ => ⟨rfl, rfl⟩)
      fun _ => Prog.keeps_throw holds_stable

theorem lister_putChildren {children : Option MapId} :
    ListerKeeps dir c (Holds dir c ∅) (putChildren r children) := by
  cases children with
  | none => exact Prog.keeps_throw holds_stable
  | some g =>
    rintro s hs t hst a u ⟨⟨rfl, rfl⟩, _⟩
    have ht := hs.byRemover hst
    refine ⟨isRely_byLister.refl t, ?_⟩
    change ListerSafe dir c _
      (forValues (t.store.maps r g) fun _ child => DocumentCache.put child) t
    have hloop : ListerKeeps dir c (Holds dir c (refsOf (t.store.maps r g)))
        (forValues (t.store.maps r g) fun _ child => DocumentCache.put child) := by
      refine Prog.keeps_bind isRely_byRemover lister_hashOrder fun order => ?_
      refine Prog.keeps_forM isRely_byRemover holds_stable fun k => ?_
      unfold visit
      split
      · rename_i q hq
        exact lister_put ⟨k, hq⟩
      · exact Prog.keeps_pure holds_stable
    refine (hloop t ⟨ht.1, ?_⟩).mono fun _ _ h => h.mono fun _ hq => hq.elim
    rintro q ⟨k, hq⟩
    exact ht.1.sound.maps hq

theorem lister_finishLoading {children : Option MapId} :
    ListerKeeps dir c (Holds dir c ∅) (finishLoading r children) :=
  Prog.keeps_bind isRely_byRemover lister_putChildren fun _ => lister_notifyLoaded

/-- **`LoadChildrenTask`**, where it is not late, does no more than a
listing may. -/
theorem lister_loadChildrenTask {cancelled : Bool} :
    ListerKeeps dir c (Holds dir c ∅) (loadChildrenTask n cancelled dir) := by
  have hrun : ListerKeeps dir c (Holds dir c ∅) (do
      loadChildren n dir
      getChildren dir : Proc (Option MapId)) :=
    Prog.keeps_bind isRely_byRemover lister_loadChildren fun _ => lister_getChildren
  refine Prog.keeps_bind isRely_byRemover (Prog.keeps_attempt hrun) fun answer => ?_
  cases answer with
  | ok children =>
    cases cancelled with
    | false => exact lister_finishLoading
    | true =>
      cases children with
      | none => exact Prog.keeps_pure holds_stable
      | some g => exact lister_finishLoading
  | error x =>
    cases cancelled with
    | false => exact lister_notifyLoaded
    | true => exact Prog.keeps_pure holds_stable

/-! ## The removal -/

/-- One effect of the removal, where it meets its condition. -/
def RemoverTurn (dir : Ref) (c : Uri) (isRename : Bool) (e : Effect) (s : Race) (a : e.Answer)
    (t : Race) : Prop :=
  RemoverStep dir c isRename e s a t ∧ RemoverOk dir c isRename e s a t

/-- Once the server has lost the document, the removal has taken it out
everywhere. -/
def Clean (s : Race) : Prop := s.present = true ∨ (s.forgotten = true ∧ s.unlisted = true)

/-- A fact about the objects, that neither the listing nor an access to a
map ends. -/
structure Lasting (dir : Ref) (c : Uri) (K : Race → Prop) : Prop where
  byLister : ∀ s t, K s → ByLister dir c s t → K t
  same : ∀ s t, K s → t.store.metadata = s.store.metadata →
    t.store.nextRef = s.store.nextRef → t.present = s.present → K t

/-- The removal is clean, and `K` lasts. -/
def Tidy (dir : Ref) (c : Uri) (K : Race → Prop) (s : Race) : Prop :=
  s.Ok dir c ∧ Clean s ∧ K s

abbrev RemoverSafe {α : Type} (dir : Ref) (c : Uri) (isRename : Bool)
    (P : Result Exn α → Race → Prop) (p : Proc α) (s : Race) : Prop :=
  p.Safe (ByLister dir c) (ByRemover dir c) (RemoverTurn dir c isRename) P s

abbrev RemoverKeeps {α : Type} (dir : Ref) (c : Uri) (isRename : Bool) (I : Race → Prop)
    (p : Proc α) : Prop :=
  p.Keeps (ByLister dir c) (ByRemover dir c) (RemoverTurn dir c isRename) I

variable {K : Race → Prop}

theorem lasting_true : Lasting dir c fun _ => True :=
  ⟨fun _ _ _ _ => trivial, fun _ _ _ _ _ _ => trivial⟩

theorem Clean.byLister (h : Clean s) (hst : ByLister dir c s t) : Clean t := by
  unfold Clean
  rw [hst.present, hst.forgotten, hst.unlisted]
  exact h

theorem Tidy.byLister (hK : Lasting dir c K) (h : Tidy dir c K s) (hst : ByLister dir c s t) :
    Tidy dir c K t :=
  ⟨hst.ok h.1, h.2.1.byLister hst, hK.byLister s t h.2.2 hst⟩

theorem tidy_stable (hK : Lasting dir c K) (s t : Race) (h : Tidy dir c K s)
    (hst : ByLister dir c s t) : Tidy dir c K t := h.byLister hK hst

theorem mark_forgotten (h : s.forgotten = true) : (s.mark dir c isRename m).forgotten = true := by
  unfold mark
  split
  · exact h
  · split
    case h_3 => split <;> exact h
    all_goals simp [h]

theorem mark_unlisted (h : s.unlisted = true) : (s.mark dir c isRename m).unlisted = true := by
  unfold mark
  split
  · exact h
  · split
    case h_3 => split <;> simp [h]
    all_goals simp [h]

theorem Clean.after (h : Clean s) : Clean (s.after dir c isRename m) := by
  rcases h with hp | ⟨hf, hu⟩
  · exact .inl (mark_present.trans hp)
  · exact .inr ⟨mark_forgotten hf, mark_unlisted hu⟩

theorem byRemover_after (hm : RemoverMemory c s m) {a : m.Answer}
    (hok : RemoverOk dir c isRename (.memory m) s a t) :
    ByRemover dir c s (s.after dir c isRename m) := by
  refine ⟨fun h => ok_after h hm hok, ?_⟩
  cases m with
  | new | setChildren | entries | exceptionGet | exceptionPut => exact hm.elim
  | _ => exact le_rfl

/-- An access to a map or a read. -/
def IsMapAccess : Memory → Prop
  | .write _ _ | .new _ | .setChildren _ _ => False
  | _ => True

theorem Lasting.after (hK : Lasting dir c K) (hm : IsMapAccess m) (h : K s) :
    K (s.after dir c isRename m) := by
  refine hK.same s _ h ?_ ?_ mark_present
  all_goals
    cases m with
    | write | new | setChildren => exact hm.elim
    | _ => rfl

theorem remover_memory (hK : Lasting dir c K) (hmap : IsMapAccess m)
    (hm : ∀ s, Tidy dir c K s → RemoverMemory c s m) :
    RemoverKeeps dir c isRename (Tidy dir c K) (memory m) := by
  rintro s hs t hst a u ⟨hstep, hok⟩
  obtain ⟨rfl, rfl⟩ := removerStep_memory.mp hstep
  have ht := hs.byLister hK hst
  have hby := byRemover_after (hm t ht) hok
  refine ⟨hby, fun v hv => Tidy.byLister hK ⟨hby.ok ht.1, ht.2.1.after, ?_⟩ hv⟩
  exact hK.after hmap ht.2.2

/-- A call changes nothing but whether the document is there. -/
theorem byRemover_present {present : Bool} (h : present = true → s.present = true) :
    ByRemover dir c s { s with present := present } where
  ok hs :=
    ⟨hs.sound, hs.cached, fun hp => hs.unmarked (h hp), hs.forgotten, hs.fetched, hs.unlisted⟩
  grows := le_rfl

/-- **A call that removes nothing** of the document. -/
theorem remover_smb {call : SmbCall} (hK : Lasting dir c K)
    (hcall : call.leaves = true ∨ call.document ≠ some c) :
    RemoverKeeps dir c isRename (Tidy dir c K) (smb call) := by
  rintro s hs t hst a u ⟨⟨present, hserves, rfl⟩, _⟩
  have ht := hs.byLister hK hst
  have hpresent : present = t.present := by
    unfold Serves at hserves
    split at hserves
    · rename_i hdoc
      have hleaves := hcall.resolve_right fun hne => hne hdoc
      split at hserves
      · rcases hserves with h | ⟨h, _⟩
        · exact h
        · cases hleaves.symm.trans h
      · rw [hserves.2, hserves.1, hleaves]
    · exact hserves
  rw [hpresent]
  exact ⟨isRely_byRemover.refl t, Prog.keeps_ofExcept (tidy_stable hK) t ht⟩

/-- An effect that leaves everything as it is. -/
theorem remover_idle {I : Race → Prop} {e : Effect} (hI : ∀ s t, I s → ByLister dir c s t → I t)
    (he : ∀ s a t, RemoverTurn dir c isRename e s a t → t = s) :
    RemoverKeeps dir c isRename I (perform e) := by
  rintro s hs t hst a u hturn
  obtain rfl : t = u := (he t a u hturn).symm
  exact ⟨isRely_byRemover.refl t, fun v hv => hI t v (hI s t hs hst) hv⟩

theorem remover_notifyChange {I : Race → Prop} {uri : Uri}
    (hI : ∀ s t, I s → ByLister dir c s t → I t) :
    RemoverKeeps dir c isRename I (SambaDocumentsProvider.notifyChange uri) :=
  remover_idle hI fun _ _ _ h => h.1

theorem remover_revoke {I : Race → Prop} {uri : Uri}
    (hI : ∀ s t, I s → ByLister dir c s t → I t) :
    RemoverKeeps dir c isRename I (SambaDocumentsProvider.revokeDocumentPermission uri) :=
  remover_idle hI fun _ _ _ h => h.1

theorem remover_getChildren (hK : Lasting dir c K) :
    RemoverKeeps dir c isRename (Tidy dir c K) (getChildren r) :=
  Prog.keeps_bind isRely_byLister (remover_memory hK trivial fun _ _ => trivial) fun _ =>
    Prog.keeps_pure (tidy_stable hK)

/-- A removal from the cache keeps what is clean. -/
theorem remover_remove (hK : Lasting dir c K) {u : Uri} :
    RemoverKeeps dir c isRename (Tidy dir c K) (DocumentCache.remove u) := by
  refine Prog.keeps_bind isRely_byLister (remover_memory hK trivial fun _ _ => trivial) fun _ => ?_
  refine Prog.keeps_bind isRely_byLister (remover_memory hK trivial fun _ _ => trivial) fun _ => ?_
  refine Prog.keeps_bind isRely_byLister (remover_memory hK trivial fun _ _ => trivial)
    fun found => ?_
  cases found with
  | none => exact Prog.keeps_pure (tidy_stable hK)
  | some parent =>
    refine Prog.keeps_bind isRely_byLister (remover_getChildren hK) fun children => ?_
    split
    · refine Prog.keeps_bind isRely_byLister (remover_getChildren hK) fun children => ?_
      cases children with
      | none => exact Prog.keeps_throw (tidy_stable hK)
      | some g => exact remover_memory hK trivial fun _ _ => trivial
    · exact Prog.keeps_pure (tidy_stable hK)

/-- The server has lost the document, and the cache too. -/
structure Forgotten (dir : Ref) (c : Uri) (K : Race → Prop) (s : Race) : Prop where
  ok : s.Ok dir c
  lasts : K s
  absent : s.present = false
  forgotten : s.forgotten = true

theorem Forgotten.byLister (hK : Lasting dir c K) (h : Forgotten dir c K s)
    (hst : ByLister dir c s t) : Forgotten dir c K t :=
  ⟨hst.ok h.ok, hK.byLister s t h.lasts hst, hst.present.trans h.absent,
    hst.forgotten.trans h.forgotten⟩

theorem Forgotten.after (hK : Lasting dir c K) (h : Forgotten dir c K s) (hmap : IsMapAccess m)
    (hby : ByRemover dir c s (s.after dir c isRename m)) :
    Forgotten dir c K (s.after dir c isRename m) :=
  ⟨hby.ok h.ok, hK.after hmap h.lasts, mark_present.trans h.absent, mark_forgotten h.forgotten⟩

theorem Forgotten.tidy (h : Forgotten dir c K s) (hu : s.unlisted = true) : Tidy dir c K s :=
  ⟨h.ok, .inr ⟨h.forgotten, hu⟩, h.lasts⟩

/-- What reading the directory marks. -/
theorem after_read_dir (dir : Ref) (c : Uri) (isRename : Bool) (h : s.present = false) :
    (s.after dir c isRename (.read dir)).fetched = some (s.store.metadata dir).children ∧
      ((s.store.metadata dir).children = none →
        (s.after dir c isRename (.read dir)).unlisted = true) := by
  have hmark : s.mark dir c isRename (.read dir) =
      { s with
        fetched := some (s.store.metadata dir).children
        unlisted := s.unlisted || (s.store.metadata dir).children.isNone } := by
    rw [mark, if_neg (by simp [h])]
    simp only [if_true]
  unfold after
  rw [hmark]
  refine ⟨rfl, fun hnone => ?_⟩
  simp [hnone]

/-- One more access to a map, once the document is out of the cache. -/
theorem forgotten_memory {P : Result Exn α → Race → Prop} {f : m.Answer → Proc α}
    (hK : Lasting dir c K) (hmap : IsMapAccess m) (hm : ∀ s, RemoverMemory c s m)
    (hs : Forgotten dir c K s)
    (hf : ∀ t, ByLister dir c s t → Forgotten dir c K t →
      Forgotten dir c K (t.after dir c isRename m) →
      RemoverSafe dir c isRename P (f (Store.exec m t.store).1) (t.after dir c isRename m)) :
    RemoverSafe dir c isRename P (.act (.memory m) f) s := by
  rintro t hst _ _ ⟨hstep, hok⟩
  obtain ⟨rfl, rfl⟩ := removerStep_memory.mp hstep
  have hby := byRemover_after (hm t) hok
  have ht := hs.byLister hK hst
  exact ⟨hby, hf t hst ht (ht.after hK hmap hby)⟩

/-- The children of the directory, read while the document is forgotten. -/
theorem forgotten_getChildren {P : Result Exn α → Race → Prop} {f : Option MapId → Proc α}
    (hK : Lasting dir c K) (hs : Forgotten dir c K s)
    (hf : ∀ t, ByLister dir c s t → Forgotten dir c K t →
      Forgotten dir c K (t.after dir c isRename (.read dir)) →
      RemoverSafe dir c isRename P (f (t.store.metadata dir).children)
        (t.after dir c isRename (.read dir))) :
    RemoverSafe dir c isRename P (getChildren dir >>= f) s :=
  forgotten_memory (m := .read dir) hK trivial (fun _ => trivial) hs hf

/-- **The removal of the document from the cache** leaves it clean. -/
theorem remover_remove_document (hK : Lasting dir c K) (hs : s.Ok dir c) (hk : K s) :
    RemoverSafe dir c isRename (fun _ t => Tidy dir c K t) (DocumentCache.remove c) s := by
  cases hp : s.present with
  | true => exact remover_remove hK s ⟨hs, .inl hp, hk⟩
  | false =>
    -- The cache.
    rintro t ht _ _ ⟨hstep, hok⟩
    obtain ⟨rfl, rfl⟩ := removerStep_memory.mp hstep
    have hby := byRemover_after (m := .cacheRemove c) trivial hok
    have hforgotten : Forgotten dir c K (t.after dir c isRename (.cacheRemove c)) := by
      refine ⟨hby.ok (ht.ok hs), hK.after trivial (hK.byLister s t hk ht),
        mark_present.trans (ht.present.trans hp), ?_⟩
      change (t.mark dir c isRename (.cacheRemove c)).forgotten = true
      rw [mark, if_neg (by simp [ht.present, hp])]
      simp
    refine ⟨hby, ?_⟩
    -- The exceptions.
    refine forgotten_memory (m := .exceptionRemove c) hK trivial (fun _ => trivial) hforgotten
      fun t _ _ hforgotten => ?_
    -- The directory is cached,
    refine forgotten_memory (m := .cacheGet c.buildParentUri) hK trivial (fun _ => trivial)
      hforgotten fun t _ ht hforgotten => ?_
    rw [show (Store.exec (.cacheGet c.buildParentUri) t.store).1 = some dir from ht.ok.cached]
    -- its children map is looked at,
    refine forgotten_getChildren hK hforgotten fun t _ ht hforgotten => ?_
    have hnone := (after_read_dir dir c isRename ht.absent).2
    cases hch : (t.store.metadata dir).children with
    | none => exact fun u hu => Tidy.byLister hK (hforgotten.tidy (hnone hch)) hu
    | some g =>
      have hloaded : ((t.after dir c isRename (.read dir)).store.metadata dir).children ≠ none := by
        change (t.store.metadata dir).children ≠ none
        simp [hch]
      -- fetched again,
      refine forgotten_getChildren hK hforgotten fun t hst ht hforgotten => ?_
      have hfetched := (after_read_dir dir c isRename ht.absent).1
      have hloaded := hst.loaded hloaded
      -- and has the document removed.
      obtain ⟨g, hg⟩ := Option.ne_none_iff_exists'.mp hloaded
      rw [hg] at hfetched
      rw [hg]
      refine forgotten_memory (m := .mapRemove dir g c) hK trivial (fun _ => trivial) hforgotten
        fun t hst ht hforgotten => ?_
      refine fun u hu => Tidy.byLister hK (hforgotten.tidy ?_) hu
      change (t.mark dir c isRename (.mapRemove dir g c)).unlisted = true
      rw [mark, if_neg (by simp [ht.absent])]
      simp [hst.fetched, hfetched]

/-! ## The deletion -/

/-- The removal is clean. -/
abbrev AllClean (dir : Ref) (c : Uri) : Race → Prop := Tidy dir c fun _ => True

theorem allClean_stable (s t : Race) (h : AllClean dir c s) (hst : ByLister dir c s t) :
    AllClean dir c t := h.byLister lasting_true hst

theorem remover_isDirectory {e : DirectoryEntry} :
    RemoverKeeps dir c isRename (AllClean dir c) (isDirectory e) :=
  Prog.keeps_bind isRely_byLister (Prog.keeps_ofExcept allClean_stable) fun _ =>
    Prog.keeps_pure allClean_stable

/-- A call that removes a document, and what is done to the cache. -/
theorem remover_removing (call : SmbCall) {u : Uri} (hcall : call.document = some u) :
    RemoverKeeps dir c isRename (AllClean dir c) (smb call >>= fun _ =>
      DocumentCache.remove u >>= fun _ =>
        SambaDocumentsProvider.revokeDocumentPermission u) := by
  by_cases hu : u = c
  · subst hu
    rintro s hs t hst a v ⟨⟨present, hserves, rfl⟩, hok⟩
    have ht := hs.byLister lasting_true hst
    unfold Serves at hserves
    rw [if_pos hcall] at hserves
    rcases a with x | value
    · obtain rfl : present = t.present := (hok hcall x rfl).1
      exact ⟨isRely_byRemover.refl t, fun w hw => ht.byLister lasting_true hw⟩
    · have hby : ByRemover dir u t { t with present := present } :=
        byRemover_present fun _ => hserves.1
      refine ⟨hby, ?_⟩
      change RemoverSafe dir u isRename _ (DocumentCache.remove u >>= fun _ => _) _
      exact Prog.Safe.bind (P := fun _ w => AllClean dir u w) isRely_byLister
        (remover_remove_document lasting_true (hby.ok ht.1) trivial)
        (fun _ w hw => remover_revoke allClean_stable w hw) (fun _ _ hw => hw) fun _ hw => hw
  · refine Prog.keeps_bind isRely_byLister (remover_smb lasting_true (.inr ?_)) fun _ =>
      Prog.keeps_bind isRely_byLister (remover_remove lasting_true) fun _ =>
        remover_revoke allClean_stable
    rw [hcall]
    exact fun h => hu (Option.some.inj h)

theorem remover_loadLocalChildren {u : Uri} :
    RemoverKeeps dir c isRename (AllClean dir c) (loadLocalChildren n u) := by
  refine Prog.keeps_bind isRely_byLister (remover_smb lasting_true (.inl rfl)) fun handle => ?_
  refine Prog.keeps_withResource isRely_byLister allClean_stable
    (remover_smb lasting_true (.inl rfl)) ?_
  generalize (∅ : AList fun _ : Uri => DirectoryEntry) = children
  induction n generalizing children with
  | zero => exact Prog.keeps_outOfFuel allClean_stable
  | succ n ih =>
    refine Prog.keeps_bind isRely_byLister (remover_smb lasting_true (.inl rfl)) fun found => ?_
    cases found with
    | none => exact Prog.keeps_pure allClean_stable
    | some e =>
      refine Prog.keeps_bind isRely_byLister (Prog.keeps_pure allClean_stable) fun uri => ?_
      cases uri.buildChildUri e with
      | none => exact ih children
      | some k => exact ih (children.insert k e)

theorem remover_recursiveDeleteFolder {u : Uri} :
    RemoverKeeps dir c isRename (AllClean dir c)
      (SambaDocumentsProvider.recursiveDeleteFolder n u) := by
  induction n generalizing u with
  | zero => exact Prog.keeps_outOfFuel allClean_stable
  | succ n ih =>
    refine Prog.keeps_bind isRely_byLister remover_loadLocalChildren fun children => ?_
    refine Prog.keeps_bind isRely_byLister ?_ fun _ => remover_removing (.rmdir u) rfl
    refine Prog.keeps_bind isRely_byLister
      (remover_idle allClean_stable fun _ _ _ h => h.1) fun order => ?_
    refine Prog.keeps_forM isRely_byLister allClean_stable fun k => ?_
    unfold visit
    split
    · refine Prog.keeps_bind isRely_byLister remover_isDirectory fun isDir => ?_
      split
      · exact ih
      · exact remover_removing (.unlink k) rfl
    · exact Prog.keeps_pure allClean_stable

theorem remover_deleteTree {metadata : DocumentMetadata} :
    RemoverKeeps dir c isRename (AllClean dir c)
      (SambaDocumentsProvider.deleteTree n metadata) := by
  refine Prog.keeps_bind isRely_byLister remover_isDirectory fun isDir => ?_
  split
  · exact remover_recursiveDeleteFolder
  · exact remover_removing (.unlink metadata.uri) rfl

/-- A document that is not there is not found. -/
def CleanOrMissing (dir : Ref) (c : Uri) {α : Type} (res : Result Exn α) (t : Race) : Prop :=
  t.Ok dir c ∧ (Clean t ∨ ∃ x, res = .threw x ∧ x.isFileNotFound = true)

theorem AllClean.cleanOrMissing {res : Result Exn α} (h : AllClean dir c s) :
    CleanOrMissing dir c res s := ⟨h.1, .inl h.2.1⟩

/-- The first call of a deletion. -/
theorem remover_fromUri (hc : s.present = true ∨ c.getPathSegments ≠ []) (hs : s.Ok dir c) :
    RemoverSafe dir c isRename (CleanOrMissing dir c) (fromUri c) s := by
  unfold fromUri
  split
  · rename_i hsegments
    have hp := hc.resolve_right (by simpa using hsegments)
    exact fun t ht => AllClean.cleanOrMissing (Tidy.byLister lasting_true ⟨hs, .inl hp, trivial⟩ ht)
  rintro t hst a u ⟨⟨present, hserves, rfl⟩, hok⟩
  have ht := hst.ok hs
  unfold Serves at hserves
  rw [if_pos (show (SmbCall.stat c).document = some c from rfl)] at hserves
  rcases a with x | stat
  · obtain ⟨hpresent, hmissing⟩ := hok rfl x rfl
    obtain rfl : present = t.present := hpresent
    refine ⟨isRely_byRemover.refl t, fun v hv => ⟨hv.ok ht, ?_⟩⟩
    cases hp : t.present with
    | true => exact .inl (.inl (hv.present.trans hp))
    | false => exact .inr ⟨x, rfl, hmissing hp⟩
  · obtain ⟨hp, hpresent⟩ := hserves
    have hsame : present = t.present := by rw [hpresent, hp]; rfl
    rw [hsame]
    have hclean : AllClean dir c t := ⟨ht, .inl hp, trivial⟩
    refine ⟨isRely_byRemover.refl t, ?_⟩
    have hrest : RemoverKeeps dir c isRename (AllClean dir c) (do
        let metadata ← make c ⟨if stat.isDir then .dir else .file, "", c.getLastPathSegment⟩
        return { metadata with stat := some stat } : Proc DocumentMetadata) :=
      Prog.keeps_bind isRely_byLister (Prog.keeps_bind isRely_byLister
        (remover_idle allClean_stable fun _ _ _ h => h.1) fun _ => Prog.keeps_pure allClean_stable)
        fun _ => Prog.keeps_pure allClean_stable
    exact (hrest t hclean).mono fun _ _ h => AllClean.cleanOrMissing h

/-- **`deleteDocument`.** -/
theorem remover_deleteDocument (hc : s.present = true ∨ c.getPathSegments ≠ [])
    (hs : s.Ok dir c) :
    RemoverSafe dir c isRename (fun _ t => AllClean dir c t)
      (SambaDocumentsProvider.deleteDocument n c) s := by
  have hbody : RemoverSafe dir c isRename (CleanOrMissing dir c) (do
      let metadata ← fromUri c
      SambaDocumentsProvider.deleteTree n metadata
      SambaDocumentsProvider.notifyChange c.buildParentUri : Proc Unit) s := by
    refine Prog.Safe.bind isRely_byLister (remover_fromUri hc hs) (fun metadata t ht => ?_)
      (fun x t ht => ⟨ht.1, ht.2.imp id fun ⟨y, hy, hmissing⟩ => ⟨x, rfl, ?_⟩⟩)
      fun t ht => ⟨ht.1, ht.2.imp id fun ⟨y, hy, _⟩ => by cases hy⟩
    · have hclean : AllClean dir c t := by
        refine ⟨ht.1, ?_, trivial⟩
        rcases ht.2 with hclean | ⟨x, hx, _⟩
        · exact hclean
        · cases hx
      have hrest : RemoverKeeps dir c isRename (AllClean dir c) (do
          SambaDocumentsProvider.deleteTree n metadata
          SambaDocumentsProvider.notifyChange c.buildParentUri : Proc Unit) :=
        Prog.keeps_bind isRely_byLister remover_deleteTree fun _ =>
          remover_notifyChange allClean_stable
      exact (hrest t hclean).mono fun _ _ h => AllClean.cleanOrMissing h
    · obtain rfl := Result.threw.inj hy
      exact hmissing
  have hcaught {x : Exn} {t : Race} (ht : CleanOrMissing dir c (.threw x : Result Exn Unit) t)
      (hx : x.isFileNotFound = false) : AllClean dir c t := by
    refine ⟨ht.1, ?_, trivial⟩
    rcases ht.2 with hclean | ⟨y, hy, hmissing⟩
    · exact hclean
    · obtain rfl := Result.threw.inj hy
      cases hx.symm.trans hmissing
  refine Prog.Safe.catching isRely_byLister hbody (fun a t u ht hu => ?_) (fun x t ht _ => ?_)
    (fun x t u ht hx hu => ?_) fun t ht => ?_
  · refine Tidy.byLister lasting_true ⟨ht.1, ?_, trivial⟩ hu
    rcases ht.2 with hclean | ⟨x, hx, _⟩
    · exact hclean
    · cases hx
  · -- What is not found on the server is taken out of the cache.
    split
    · exact Prog.Safe.bind (P := fun _ u => AllClean dir c u) isRely_byLister
        (remover_remove_document lasting_true ht.1 trivial)
        (fun _ u hu => remover_notifyChange allClean_stable u hu) (fun _ _ hu => hu) fun _ hu => hu
    · rename_i hx
      exact fun u hu => (hcaught ht (by simpa using hx)).byLister lasting_true hu
  · exact (hcaught ht (isFileNotFound_eq_false hx)).byLister lasting_true hu
  · refine ⟨ht.1, ?_, trivial⟩
    rcases ht.2 with hclean | ⟨x, hx, _⟩
    · exact hclean
    · cases hx

/-! ## The rename -/

/-- The object exists, and is not the document where that is gone. -/
def Named (c : Uri) (r : Ref) (s : Race) : Prop :=
  r < s.store.nextRef ∧ ((s.store.metadata r).uri = c → s.present = true)

/-- What is put into the cache is not the document where that is gone. -/
def NamedAt (c : Uri) (r : Ref) (key : Uri) (s : Race) : Prop :=
  Named c r s ∧ (key = c → s.present = true)

theorem lasting_named : Lasting dir c (Named c r) where
  byLister s t h hst := by
    refine ⟨Nat.lt_of_lt_of_le h.1 hst.grows, fun huri => ?_⟩
    rw [hst.present]
    exact h.2 ((hst.uri r h.1).symm.trans huri)
  same s t h hmetadata hnext hpresent := by
    rw [Named, hmetadata, hnext, hpresent]
    exact h

theorem lasting_namedAt {key : Uri} : Lasting dir c (NamedAt c r key) where
  byLister s t h hst :=
    ⟨lasting_named.byLister s t h.1 hst, fun hkey => hst.present.trans (h.2 hkey)⟩
  same s t h hmetadata hnext hpresent :=
    ⟨(lasting_named : Lasting dir c (Named c r)).same s t h.1 hmetadata hnext hpresent,
      fun hkey => hpresent.trans (h.2 hkey)⟩

theorem Tidy.mono {K' : Race → Prop} (h : Tidy dir c K s) (hK : ∀ s, K s → K' s) :
    Tidy dir c K' s := ⟨h.1, h.2.1, hK s h.2.2⟩

/-- The URI of the object, that it has been renamed to. -/
theorem remover_getUri_bind {f : Uri → Proc α}
    (hf : ∀ key t, Tidy dir c (NamedAt c r key) t →
      RemoverSafe dir c isRename (fun _ t => Tidy dir c (Named c r) t) (f key) t) :
    RemoverKeeps dir c isRename (Tidy dir c (Named c r)) (getUri r >>= f) := by
  rintro s hs t ht _ _ ⟨hstep, hok⟩
  obtain ⟨rfl, rfl⟩ := removerStep_memory.mp hstep
  have hby := byRemover_after (m := .read r) trivial hok
  have ht := hs.byLister lasting_named ht
  refine ⟨hby, hf _ _ ⟨hby.ok ht.1, ht.2.1.after, ?_, ?_⟩⟩
  · exact (lasting_named : Lasting dir c (Named c r)).after trivial ht.2.2
  · exact fun huri => mark_present.trans (ht.2.2.2 huri)

/-- The renamed object is put into the cache. -/
theorem remover_put :
    RemoverKeeps dir c isRename (Tidy dir c (Named c r)) (DocumentCache.put r) := by
  refine remover_getUri_bind fun key t ht => ?_
  have hput : RemoverKeeps dir c isRename (Tidy dir c (NamedAt c r key))
      (memory (.cachePut key r)) :=
    remover_memory lasting_namedAt trivial fun s hs => ⟨hs.2.2.1.1, hs.2.2.2⟩
  refine Prog.Safe.bind isRely_byLister (hput t ht) (fun _ u hu => ?_)
    (fun _ _ h => h.mono fun _ hK => hK.1) fun _ h => h.mono fun _ hK => hK.1
  -- The directory, where it is cached, has it put among its children.
  refine remover_getUri_bind (fun uri t ht => ?_) u (hu.mono fun _ hK => hK.1)
  refine Prog.keeps_bind (I := Tidy dir c (Named c r)) isRely_byLister
    (remover_memory (m := .cacheGet _) lasting_named trivial fun _ _ => trivial)
    (fun found => ?_) t
    (ht.mono fun _ hK => hK.1)
  cases found with
  | none => exact Prog.keeps_pure (tidy_stable lasting_named)
  | some parent =>
    refine Prog.keeps_bind isRely_byLister (remover_getChildren lasting_named)
      fun children => ?_
    cases children with
    | none => exact Prog.keeps_pure (tidy_stable lasting_named)
    | some g =>
      refine remover_getUri_bind fun childUri t ht => ?_
      have hmap : RemoverKeeps dir c isRename (Tidy dir c (NamedAt c r childUri))
          (memory (.mapPut parent g childUri r)) :=
        remover_memory lasting_namedAt trivial fun s hs => ⟨hs.2.2.1.1, hs.2.2.2⟩
      exact (hmap t ht).mono fun _ _ h => h.mono fun _ hK => hK.1

/-- Before the rename has reached the cache. -/
def Renaming (dir : Ref) (c newUri : Uri) (s : Race) : Prop :=
  s.Ok dir c ∧ (newUri = c → s.present = true)

variable {newUri : Uri}

theorem Renaming.byLister (h : Renaming dir c newUri s) (hst : ByLister dir c s t) :
    Renaming dir c newUri t := ⟨hst.ok h.1, fun hkey => hst.present.trans (h.2 hkey)⟩

theorem Renaming.after (h : Renaming dir c newUri s)
    (hby : ByRemover dir c s (s.after dir c isRename m)) :
    Renaming dir c newUri (s.after dir c isRename m) :=
  ⟨hby.ok h.1, fun hkey => mark_present.trans (h.2 hkey)⟩

/-- **A rename looks for the document**: where it is not in the cache, it
has been forgotten. -/
theorem remover_get (hs : Renaming dir c newUri s) :
    RemoverSafe dir c true (fun res t => Renaming dir c newUri t ∧
      ∃ result, res = .returned result ∧ (result.item = none → Clean t) ∧
        ∀ r, result.item = some r → r < t.store.nextRef) (DocumentCache.get c) s := by
  rintro t ht _ _ ⟨hstep, hok⟩
  obtain ⟨rfl, rfl⟩ := removerStep_memory.mp hstep
  have hby := byRemover_after (m := .cacheGet c) trivial hok
  have ht := hs.byLister ht
  have hafter := ht.after hby
  refine ⟨hby, ?_⟩
  cases hcache : t.store.cache c with
  | none =>
    have hclean : Clean (t.after dir c true (.cacheGet c)) := by
      cases hp : t.present with
      | true => exact .inl (mark_present.trans hp)
      | false =>
        refine .inr ?_
        change (t.mark dir c true (.cacheGet c)).forgotten = true ∧
          (t.mark dir c true (.cacheGet c)).unlisted = true
        rw [mark, if_neg (by simp [hp])]
        simp [hcache]
    rw [show (Store.exec (.cacheGet c) t.store).1 = none from hcache]
    exact fun u hu => ⟨hafter.byLister hu, _, rfl, fun _ => hclean.byLister hu,
      by simp [DocumentCache.CacheResult.item]⟩
  | some r =>
    have hr : r < t.store.nextRef := ht.1.sound.cache hcache
    rw [show (Store.exec (.cacheGet c) t.store).1 = some r from hcache]
    rintro v hv _ _ ⟨hstep, hok⟩
    obtain ⟨rfl, rfl⟩ := removerStep_memory.mp hstep
    have hby := byRemover_after (m := .read r) trivial hok
    have hr : r < v.store.nextRef := Nat.lt_of_lt_of_le hr hv.grows
    have hv := (hafter.byLister hv).after hby
    refine ⟨hby, ?_⟩
    rintro v' hv' now u ⟨hstep, _⟩
    obtain rfl : v' = u := Eq.symm hstep
    refine ⟨isRely_byRemover.refl v', fun u hu => ⟨(hv.byLister hv').byLister hu, _, rfl, ?_⟩⟩
    rw [item_ite]
    refine ⟨by simp, fun q hq => ?_⟩
    obtain rfl := Option.some.inj hq
    exact Nat.lt_of_lt_of_le (Nat.lt_of_lt_of_le hr hv'.grows) hu.grows

/-- The object gets its new name and URI. -/
theorem remover_rename (hs : Renaming dir c newUri s) (hr : r < s.store.nextRef) :
    RemoverSafe dir c isRename (fun res t => (t.Ok dir c ∧ Named c r t) ∧ res = .returned ())
      (rename r newUri) s := by
  rintro t ht _ _ ⟨hstep, hok⟩
  obtain ⟨rfl, rfl⟩ := removerStep_memory.mp hstep
  have hby := byRemover_after (m := .write r (.name newUri.getLastPathSegment)) (fun _ => rfl) hok
  have hr := Nat.lt_of_lt_of_le hr ht.grows
  have ht := (hs.byLister ht).after hby
  refine ⟨hby, ?_⟩
  rintro u hu _ _ ⟨hstep, hok⟩
  obtain ⟨rfl, rfl⟩ := removerStep_memory.mp hstep
  have hby := byRemover_after (m := .write r (.uri newUri)) (fun _ => rfl) hok
  have hr : r < u.store.nextRef := Nat.lt_of_lt_of_le hr hu.grows
  have hu := (ht.byLister hu).after hby
  refine ⟨hby, fun v hv => ⟨⟨hv.ok hu.1, lasting_named.byLister
    (u.after dir c isRename (.write r (.uri newUri))) v ⟨hr, fun huri => ?_⟩ hv⟩, rfl⟩⟩
  change (Function.update u.store.metadata r _ r).uri = c at huri
  rw [Function.update_self] at huri
  exact hu.2 huri

/-- **The update of the cache** after a rename. -/
theorem remover_updateCache (hs : Renaming dir c newUri s) :
    RemoverSafe dir c true (fun _ t => AllClean dir c t)
      (SambaDocumentsProvider.updateCache c newUri) s := by
  refine Prog.Safe.bind isRely_byLister (remover_get hs) (fun result t ht => ?_)
    (fun x t ht => ?_) fun t ht => ?_
  · obtain ⟨ht, _, hresult, hnone, hsome⟩ := ht
    obtain rfl := Result.returned.inj hresult
    split
    · rename_i hitem
      exact fun u hu => Tidy.byLister lasting_true ⟨ht.1, hnone hitem, trivial⟩ hu
    · rename_i r hitem
      refine Prog.Safe.bind isRely_byLister (remover_rename ht (hsome r hitem)) (fun _ t ht => ?_)
        (fun x t ht => ?_) fun t ht => ?_
      · refine Prog.Safe.bind (P := fun _ t => Tidy dir c (Named c r) t) isRely_byLister
          (remover_remove_document lasting_named ht.1.1 ht.1.2) (fun _ t ht => ?_)
          (fun _ _ h => h.mono fun _ _ => trivial) fun _ h => h.mono fun _ _ => trivial
        exact (remover_put t ht).mono fun _ _ h => h.mono fun _ _ => trivial
      · cases ht.2
      · cases ht.2
  · obtain ⟨_, _, hresult, _⟩ := ht
    cases hresult
  · obtain ⟨_, _, hresult, _⟩ := ht
    cases hresult

/-- **`renameDocument`** of a document that the server has. -/
theorem remover_renameDocument {displayName : String} (hs : s.Ok dir c)
    (hp : s.present = true) :
    RemoverSafe dir c true (fun _ t => AllClean dir c t)
      (SambaDocumentsProvider.renameDocument c displayName) s := by
  have hclean : AllClean dir c s := ⟨hs, .inl hp, trivial⟩
  have hthrow {x : Exn} {t : Race} (ht : AllClean dir c t) :
      RemoverSafe dir c true (fun (_ : Result Exn Uri) t => AllClean dir c t) (.throw x) t :=
    fun u hu => ht.byLister lasting_true hu
  refine Prog.Safe.catching (P := fun _ t => AllClean dir c t) isRely_byLister ?_
    (fun _ t u ht hu => ht.byLister lasting_true hu) (fun x t ht _ => hthrow ht)
    (fun _ t u ht _ hu => ht.byLister lasting_true hu) fun _ ht => ht
  dsimp only
  split
  · exact hthrow hclean
  cases c.buildParentUri.buildNamedChildUri (some displayName) with
  | none => exact hthrow hclean
  | some newUri =>
    rintro t ht a u ⟨⟨present, hserves, rfl⟩, hok⟩
    have ht : AllClean dir c t := hclean.byLister lasting_true ht
    unfold Serves at hserves
    rw [if_pos (show (SmbCall.rename c newUri).document = some c from rfl)] at hserves
    rcases a with x | _
    · obtain rfl : present = t.present := (hok rfl x rfl).1
      exact ⟨isRely_byRemover.refl t, hthrow ht⟩
    · -- The document has moved, unless its name is the same.
      have hby : ByRemover dir c t { t with present := present } :=
        byRemover_present fun _ => hserves.1
      have hrenaming : Renaming dir c newUri { t with present := present } :=
        ⟨hby.ok ht.1, fun hkey => hserves.2.trans (decide_eq_true hkey)⟩
      refine ⟨hby, ?_⟩
      rintro t₁ ht₁ _ u ⟨hstep, _⟩
      obtain rfl : t₁ = u := Eq.symm hstep
      refine ⟨isRely_byRemover.refl t₁, ?_⟩
      rintro t₂ ht₂ _ u ⟨hstep, _⟩
      obtain rfl : t₂ = u := Eq.symm hstep
      refine ⟨isRely_byRemover.refl t₂, ?_⟩
      change RemoverSafe dir c true _
        (SambaDocumentsProvider.updateCache c newUri >>= fun _ => _) t₂
      exact Prog.Safe.bind (P := fun _ t => AllClean dir c t) isRely_byLister
        (remover_updateCache ((hrenaming.byLister ht₁).byLister ht₂))
        (fun _ v hv u hu => hv.byLister lasting_true hu) (fun _ _ h => h) fun _ h => h

/-! ## Both -/

/-- A deletion, or a rename. -/
inductive Removal
  | delete
  | rename (displayName : String)

/-- The method, its result dropped. -/
def Removal.body (fuel : ℕ) (c : Uri) : Removal → Proc Unit
  | .delete => SambaDocumentsProvider.deleteDocument fuel c
  | .rename displayName => do
    let _ ← SambaDocumentsProvider.renameDocument c displayName

def Removal.renames : Removal → Bool
  | .delete => false
  | .rename _ => true

/-- The document is a key neither of the cache nor of the children map of
the directory. -/
def NotResurrected (dir : Ref) (c : Uri) (s : Race) : Prop :=
  s.store.cache c = none ∧ ¬ s.Listed dir c

theorem ok_start {store : Store} {present : Bool} (hsound : store.Sound)
    (hdir : store.cache c.buildParentUri = some dir) : (start store present).Ok dir c :=
  ⟨hsound, hdir, fun _ => ⟨rfl, rfl, rfl⟩, nofun, nofun, nofun⟩

theorem remover_body {x : Removal} (hs : s.Ok dir c)
    (hx : s.present = true ∨ (x = .delete ∧ c.getPathSegments ≠ [])) :
    RemoverSafe dir c x.renames (fun _ t => AllClean dir c t) (x.body n c) s := by
  cases x with
  | delete => exact remover_deleteDocument (hx.imp id And.right) hs
  | rename displayName =>
    have hp := hx.resolve_right fun h => by cases h.1
    exact Prog.Safe.bind (P := fun _ t => AllClean dir c t) isRely_byLister
      (remover_renameDocument hs hp)
      (fun _ t ht u hu => ht.byLister lasting_true hu) (fun _ _ h => h) fun _ h => h

/-- **A listing that is not late does not bring a removed document back**,
whatever the order of the two threads' effects. -/
theorem notResurrected_of_together {store : Store} {present cancelled : Bool} {x : Removal}
    {fuel : ℕ} {p q : Proc Unit} {res : Result Exn Unit}
    (hsound : store.Sound) (hdir : store.cache c.buildParentUri = some dir)
    (hx : present = true ∨ (x = .delete ∧ c.getPathSegments ≠ []))
    (hrun : Prog.Together (ListerTurn dir c) (RemoverTurn dir c x.renames)
      (loadChildrenTask n cancelled dir) (x.body fuel c) (start store present) p q t)
    (hremover : q.result = some res) (habsent : t.present = false) : NotResurrected dir c t := by
  have hok : (start store present).Ok dir c := ok_start hsound hdir
  obtain ⟨_, hsafe⟩ := hrun.safe isRely_byRemover isRely_byLister (fun _ _ => id) (fun _ _ => id)
    (lister_loadChildrenTask _ ⟨hok, fun q hq => hq.elim⟩) (remover_body hok hx)
  obtain ⟨hok, hclean, _⟩ := hsafe.of_result isRely_byLister hremover
  rcases hclean with hp | ⟨hforgotten, hunlisted⟩
  · cases habsent.symm.trans hp
  · exact ⟨hok.forgotten hforgotten, hok.unlisted hunlisted⟩

/-! ## Two schedules -/

/-- A call that succeeds. -/
def called (c : Uri) (call : SmbCall) (s : Race) : Race :=
  { s with present := if call.document = some c then call.leaves else s.present }

/-- The server does what it is asked for; a directory has the one document
in it, as long as one object has been made. -/
def exec (c : Uri) : (e : Effect) → Race → e.Answer × Race
  | .memory m, s => ((Store.exec m s.store).1, { s with store := (Store.exec m s.store).2 })
  | .smb (.stat u), s => (.ok ⟨0o100644, 0, 0⟩, s.called c (.stat u))
  | .smb (.openDir u), s => (.ok 0, s.called c (.openDir u))
  | .smb (.readDir d), s =>
    (.ok (if s.store.nextRef = 1 then some ⟨.file, "", c.getLastPathSegment⟩ else none),
      s.called c (.readDir d))
  | .smb (.closeDir d), s => (.ok (), s.called c (.closeDir d))
  | .smb (.createFile u), s => (.ok (), s.called c (.createFile u))
  | .smb (.mkdir u), s => (.ok (), s.called c (.mkdir u))
  | .smb (.rename u v), s => (.ok (), s.called c (.rename u v))
  | .smb (.unlink u), s => (.ok (), s.called c (.unlink u))
  | .smb (.rmdir u), s => (.ok (), s.called c (.rmdir u))
  | .shares .iterator, s => ([], s)
  | .shares (.containsShare _), s | .shares (.isShareMounted _), s
  | .shares (.unmountServer _), s => (false, s)
  | .shares (.removeCredential _), s => ((), s)
  | .shares (.beginMount _), s | .shares (.saveServer _), s => (.ok (), s)
  | .currentTimeMillis, s => ((0 : ℤ), s)
  | .hashOrder keys, s => (⟨keys, .refl keys⟩, s)
  | .notifyChange _, s | .revokeDocumentPermission _, s => ((), s)

/-- A call for the document finds it, and the directory stays cached. -/
def Finds (c : Uri) (s : Race) : Effect → Bool
  | .smb call => call.document ≠ some c || s.present
  | .memory (.cachePut key _) | .memory (.cacheRemove key) => key ≠ c.buildParentUri
  | _ => true

theorem step_exec {e : Effect} (h : s.Finds c e = true) :
    Step c e s (exec c e s).1 (exec c e s).2 := by
  cases e with
  | memory m => exact ⟨rfl, rfl⟩
  | smb call =>
    refine ⟨(s.called c call).present, ?_, ?_⟩
    · have hfound : call.document = some c → s.present = true := by
        simpa [Finds, ← imp_iff_not_or] using h
      unfold Serves called
      split
      · rename_i hdoc
        cases call <;> exact ⟨hfound hdoc, rfl⟩
      · rfl
    · cases call <;> rfl
  | shares call => cases call <;> rfl
  | _ => exact rfl

/-- The removal, with its marks; it is a deletion. -/
def execRemover (dir : Ref) (c : Uri) : (e : Effect) → Race → e.Answer × Race
  | .memory m, s => exec c (.memory m) (s.mark dir c false m)
  | e, s => exec c e s

theorem removerTurn_exec {e : Effect} (h : s.Finds c e = true) :
    RemoverTurn dir c false e s (execRemover dir c e s).1 (execRemover dir c e s).2 := by
  cases e with
  | memory m =>
    refine ⟨⟨rfl, rfl⟩, ?_⟩
    cases m with
    | cachePut | cacheRemove => exact of_decide_eq_true (p := _ ≠ c.buildParentUri) h
    | cacheGet => exact nofun
    | _ => exact trivial
  | smb call =>
    refine ⟨step_exec h, fun _ x hx => ?_⟩
    cases call <;> cases hx
  | shares call => exact ⟨step_exec h, trivial⟩
  | _ => exact ⟨rfl, trivial⟩

/-- No mark is set. -/
def Unmarked (s : Race) : Bool := !s.forgotten && s.fetched.isNone && !s.unlisted

theorem listerTurn_exec {e : Effect} (h : s.Finds c e = true) (hs : s.Unmarked = true) :
    ListerTurn dir c e s (exec c e s).1 (exec c e s).2 := by
  refine ⟨step_exec h, ?_⟩
  obtain ⟨⟨hforgotten, hfetched⟩, hunlisted⟩ : (s.forgotten = false ∧ s.fetched = none) ∧
      s.unlisted = false := by simpa [Unmarked] using hs
  cases e with
  | memory m =>
    cases m with
    | cachePut => exact ⟨of_decide_eq_true h, fun _ => hforgotten⟩
    | setChildren => exact fun _ => ⟨hfetched, hunlisted⟩
    | mapPut => exact fun _ _ => ⟨hunlisted, by simp [hfetched]⟩
    | _ => exact trivial
  | _ => exact trivial

/-- A directory that is cached. -/
def cachedDir : Store :=
  (Store.exec (.cachePut (inHomes "a") 0)
    (Store.exec (.new ⟨inHomes "a", ⟨.dir, "", some "a"⟩, none, none, none, none, 0⟩)
      emptyStore).2).2

/-- A document in it. -/
def documentB : Uri := (inHomes "a").appendPath "b"

theorem sound_cachedDir : cachedDir.Sound where
  cache {k r} h := by
    have hcache : cachedDir.cache k = if k = inHomes "a" then some 0 else none :=
      Function.update_apply ..
    rw [hcache] at h
    split at h
    · obtain rfl := Option.some.inj h
      exact Nat.one_pos
    · cases h
  maps {r g k q} h := by
    change AList.lookup k (∅ : ChildMap) = some q at h
    rw [AList.lookup_empty] at h
    cases h

/-- The directory is listed while the document is deleted: the server has
lost it before the task publishes what it has read, and the deletion looks
into the cache after that. -/
def listedMeanwhile : List Bool :=
  [true, true, false] ++ List.replicate 5 true ++ [false] ++ List.replicate 3 true ++ [false] ++
    List.replicate 13 true ++ List.replicate 8 false

/-- The document is deleted while the task has listed the directory and not
published what it has found. -/
def deletedBetween : List Bool :=
  List.replicate 7 true ++ List.replicate 9 false ++ List.replicate 16 true

/-- The schedule, where the listing is not late. -/
def runGuarded (turns : List Bool) : Option (Proc Unit × Proc Unit × Race) :=
  Prog.takeTurns (exec documentB) (execRemover 0 documentB)
    (fun e s => s.Finds documentB e && s.Unmarked) (fun e s => s.Finds documentB e) turns
    (loadChildrenTask 3 false 0) (Removal.delete.body 1 documentB) (start cachedDir true)

/-- Any schedule. -/
def runFreely (turns : List Bool) : Option (Proc Unit × Proc Unit × Race) :=
  Prog.takeTurns (exec documentB) (execRemover 0 documentB) (fun e s => s.Finds documentB e)
    (fun e s => s.Finds documentB e) turns (loadChildrenTask 3 false 0)
    (Removal.delete.body 1 documentB) (start cachedDir true)

/-- The two threads take turns, and the listing is not late. -/
theorem notResurrected_listedMeanwhile : ∃ p q t, runGuarded listedMeanwhile = some (p, q, t) ∧
    p.result = some (.returned ()) ∧ q.result = some (.returned ()) ∧
    NotResurrected 0 documentB t := by
  obtain ⟨⟨p, q, t⟩, hrun⟩ : ∃ r, runGuarded listedMeanwhile = some r :=
    Option.isSome_iff_exists.mp (by decide)
  have hend : (runGuarded listedMeanwhile).map
      (fun r => (r.1.result, r.2.1.result, r.2.2.present)) =
      some (some (.returned ()), some (.returned ()), false) := by decide
  rw [hrun] at hend
  obtain ⟨hp, hq, habsent⟩ : p.result = _ ∧ q.result = _ ∧ t.present = _ := by simpa using hend
  have htogether : Prog.Together (ListerTurn 0 documentB)
      (RemoverTurn 0 documentB Removal.delete.renames) (loadChildrenTask 3 false 0)
      (Removal.delete.body 1 documentB) (start cachedDir true) p q t := by
    refine Prog.together_of_takeTurns (fun e s hok => ?_) (fun e s hok => removerTurn_exec hok) hrun
    obtain ⟨hfinds, hunmarked⟩ := Bool.and_eq_true_iff.mp hok
    exact listerTurn_exec hfinds hunmarked
  exact ⟨p, q, t, hrun, hp, hq, notResurrected_of_together sound_cachedDir (by decide) (.inl rfl)
    htogether hq habsent⟩

/-- **A listing brings a deleted document back**: the task has read the
directory before the deletion, and publishes and caches what it has read
after it. -/
theorem resurrected_deletedBetween : ∃ p q t,
    Prog.Together (Step documentB) (RemoverStep 0 documentB false) (loadChildrenTask 3 false 0)
      (SambaDocumentsProvider.deleteDocument 1 documentB) (start cachedDir true) p q t ∧
    p.result = some (.returned ()) ∧ q.result = some (.returned ()) ∧ t.present = false ∧
    t.store.cache documentB ≠ none ∧ t.Listed 0 documentB := by
  obtain ⟨⟨p, q, t⟩, hrun⟩ : ∃ r, runFreely deletedBetween = some r :=
    Option.isSome_iff_exists.mp (by decide)
  have hend : (runFreely deletedBetween).map (fun r => (r.1.result, r.2.1.result, r.2.2.present)) =
      some (some (.returned ()), some (.returned ()), false) := by decide
  have hcached : (runFreely deletedBetween).map (fun r => (r.2.2.store.cache documentB).isSome) =
      some true := by decide
  have hlisted : (runFreely deletedBetween).map (fun r =>
      (r.2.2.store.metadata 0).children.map fun g => decide (documentB ∈ r.2.2.store.maps 0 g)) =
      some (some true) := by decide
  rw [hrun] at hend hcached hlisted
  obtain ⟨hp, hq, habsent⟩ : p.result = _ ∧ q.result = _ ∧ t.present = _ := by simpa using hend
  obtain ⟨r, hr⟩ : ∃ r, t.store.cache documentB = some r := by
    simpa [Option.isSome_iff_exists] using hcached
  obtain ⟨g, hg, hin⟩ : ∃ g, (t.store.metadata 0).children = some g ∧
      documentB ∈ t.store.maps 0 g := by simpa using hlisted
  refine ⟨p, q, t, ?_, hp, hq, habsent, by simp [hr], g, hg, hin⟩
  exact Prog.together_of_takeTurns (fun e s hok => step_exec hok)
    (fun e s hok => (removerTurn_exec hok).1) hrun

end Race

end SambaProvider

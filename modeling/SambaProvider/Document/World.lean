import SambaProvider.Document.Provider
import SambaProvider.Lib.Ends
import SambaProvider.Lib.TreeIndex

/-!
# The world of an operation

The world an operation runs in when nothing else does: the store of the
provider, and a server with its own state. What the server may answer is
a parameter; the order of a hash map and the clock are open. For
operations that run one after another the server is a `Scenario`.

The store is an index of the documents kept twice. What each method does
to the index is one lemma, and the operations are assembled from these.
-/

namespace SambaProvider

open Lib DocumentMetadata

/-! ## The world -/

/-- The memory of the provider, and a server. -/
structure World (S : Type) where
  store : Store
  server : S

/-- How a server may answer a call, and the state that leaves it in. -/
abbrev Service (S : Type) := (c : SmbCall) → S → Except Exn c.Value → S → Prop

/-- One effect: memory does what it does, the server answers, and all
else is open. -/
def Service.Step {S : Type} (A : Service S) : (e : Effect) → World S → e.Answer → World S → Prop
  | .memory m, w, a, w' => a = (Store.exec m w.store).1 ∧ w' = ⟨(Store.exec m w.store).2, w.server⟩
  | .smb c, w, a, w' => A c w.server a w'.server ∧ w'.store = w.store
  | .shares _, w, _, w' | .currentTimeMillis, w, _, w' | .hashOrder _, w, _, w'
  | .notifyChange _, w, _, w' | .revokeDocumentPermission _, w, _, w' => w' = w

/-- What is fixed of the server while an operation runs: the exceptions
its calls raise, by the number of the call, what it says of a document,
and what a directory handle lists, given the URI it was opened with. -/
structure Scenario where
  fault : ℕ → Option Exn
  stat : Uri → StructStat
  listing : SmbDir → Uri → List DirectoryEntry

/-- How many calls were made and how many directories opened, and what
each of these has still to list. -/
structure Server where
  calls : ℕ
  opened : SmbDir
  pending : SmbDir → List DirectoryEntry

/-- The server after one more call. -/
def Server.next (s : Server) : Server := { s with calls := s.calls + 1 }

namespace Scenario

variable (σ : Scenario)

/-- What a call that does not throw returns. -/
def Returns : (c : SmbCall) → Server → c.Value → Server → Prop
  | .stat u, s, stat, t => stat = σ.stat u ∧ t = s
  | .openDir u, s, dir, t =>
    dir = s.opened ∧
      t = ⟨s.calls, s.opened + 1,
        Function.update s.pending s.opened (σ.listing s.opened u)⟩
  | .readDir dir, s, entry, t =>
    entry = (s.pending dir).head? ∧
      t = ⟨s.calls, s.opened, Function.update s.pending dir (s.pending dir).tail⟩
  | _, s, _, t => t = s

/-- An answer of the server and what it leaves. -/
def Answers : Service Server := fun c s a t =>
  match σ.fault s.calls, a with
  | some x, .error y => y = x ∧ t = s.next
  | none, .ok v => σ.Returns c s.next v t
  | _, _ => False

abbrev Step : (e : Effect) → World Server → e.Answer → World Server → Prop :=
  Service.Step σ.Answers

end Scenario

/-- The store as a tree kept twice. -/
def Store.index (s : Store) : TreeIndex Uri where
  flat := s.cache
  key r := (s.metadata r).uri
  children r := (s.metadata r).children.map fun g k => (s.maps r g).lookup k
  size := s.nextRef

variable {S : Type} {A : Service S} {w w' : World S} {α β : Type} {r : Ref} {u v : Uri}
  {s : Store}

/-! ## The index of a store -/

theorem lookup_insert_eq {m : ChildMap} {c : Ref} :
    (fun k => (m.insert u c).lookup k) = Function.update (fun k => m.lookup k) u (some c) := by
  funext k
  by_cases hk : k = u
  · subst hk
    rw [AList.lookup_insert, Function.update_self]
  · rw [AList.lookup_insert_ne hk, Function.update_of_ne hk]

theorem lookup_erase_eq {m : ChildMap} :
    (fun k => (m.erase u).lookup k) = Function.update (fun k => m.lookup k) u none := by
  funext k
  by_cases hk : k = u
  · subst hk
    rw [AList.lookup_erase, Function.update_self]
  · rw [AList.lookup_erase_ne hk, Function.update_of_ne hk]

namespace Store

theorem index_setMetadata {m : DocumentMetadata} :
    (s.setMetadata r m).index =
      { s.index with
        key := Function.update s.index.key r m.uri
        children := Function.update s.index.children r
          (m.children.map fun g k => (s.maps r g).lookup k) } := by
  refine TreeIndex.ext rfl (funext fun p => ?_) (funext fun p => ?_) rfl
  all_goals
    by_cases hp : p = r
    · subst hp
      simp [index, setMetadata]
    · simp [index, setMetadata, hp]

theorem index_new {m : DocumentMetadata} (h : m.children = none) :
    (exec (.new m) s).2.index = s.index.add m.uri := by
  change { (s.setMetadata s.nextRef m).index with size := s.nextRef + 1 } = _
  rw [index_setMetadata, h]
  rfl

/-- Writing a field other than the URI and the children leaves the index
as it is. -/
theorem index_write {f : FieldValue} (huri : ∀ m, (f.set m).uri = m.uri)
    (hch : ∀ m, (f.set m).children = m.children) : (exec (.write r f) s).2.index = s.index := by
  change (s.setMetadata r (f.set (s.metadata r))).index = _
  rw [index_setMetadata, huri, hch]
  exact TreeIndex.ext rfl (Function.update_eq_self r _) (Function.update_eq_self r _) rfl

theorem index_write_uri : (exec (.write r (.uri u)) s).2.index = s.index.setKey r u := by
  change (s.setMetadata r { s.metadata r with uri := u }).index = _
  rw [index_setMetadata]
  exact TreeIndex.ext rfl rfl (Function.update_eq_self r _) rfl

theorem index_write_noChildren :
    (exec (.write r .noChildren) s).2.index = s.index.setChildren r none := by
  change (s.setMetadata r { s.metadata r with children := none }).index = _
  rw [index_setMetadata]
  exact TreeIndex.ext rfl (Function.update_eq_self r _) rfl rfl

/-- Changing the map a directory has loaded last changes its children. -/
theorem index_setMap {g : MapId} {m : ChildMap} (h : (s.metadata r).children = some g) :
    (s.setMap r g m).index = s.index.setChildren r (some fun k => m.lookup k) := by
  refine TreeIndex.ext rfl rfl (funext fun p => ?_) rfl
  by_cases hp : p = r
  · subst hp
    simp [index, setMap, TreeIndex.setChildren, h]
  · simp [index, setMap, TreeIndex.setChildren, hp]

theorem index_setChildren {m : ChildMap} :
    (exec (.setChildren r m) s).2.index = s.index.setChildren r (some fun k => m.lookup k) := by
  let t := s.setMetadata r { s.metadata r with children := some s.nextMap }
  have ht : (t.metadata r).children = some s.nextMap := by
    simp only [t, setMetadata, Function.update_self]
  change (t.setMap r s.nextMap m).index = _
  rw [index_setMap ht, index_setMetadata]
  refine TreeIndex.ext rfl (Function.update_eq_self r _) ?_ rfl
  exact Function.update_idem _ _ _

end Store

/-! ## Single effects -/

section Effects

variable {res : Result Exn α}

theorem ends_memory {m : Memory} {k : m.Answer → Proc α} :
    (Prog.act (.memory m) k).Ends A.Step w res w' ↔
      (k (Store.exec m w.store).1).Ends A.Step ⟨(Store.exec m w.store).2, w.server⟩ res w' := by
  constructor
  · rintro ⟨a, t, ⟨rfl, rfl⟩, h⟩
    exact h
  · intro h
    exact ⟨_, _, ⟨rfl, rfl⟩, h⟩

/-- An effect that only answers. -/
theorem ends_answer {e : Effect} (he : ∀ w a w', A.Step e w a w' ↔ w' = w)
    {k : e.Answer → Proc α} :
    (Prog.act e k).Ends A.Step w res w' ↔ ∃ a, (k a).Ends A.Step w res w' := by
  constructor
  · rintro ⟨a, t, hstep, h⟩
    obtain rfl := (he _ _ _).mp hstep
    exact ⟨a, h⟩
  · rintro ⟨a, h⟩
    exact ⟨a, w, (he _ _ _).mpr rfl, h⟩

theorem ends_shares {c : ShareCall} {k : c.Answer → Proc α} :
    (Prog.act (.shares c) k).Ends A.Step w res w' ↔ ∃ a, (k a).Ends A.Step w res w' :=
  ends_answer fun _ _ _ => Iff.rfl

theorem ends_currentTimeMillis {k : ℤ → Proc α} :
    (Prog.act .currentTimeMillis k).Ends A.Step w res w' ↔
      ∃ a, (k a).Ends A.Step w res w' :=
  ends_answer fun _ _ _ => Iff.rfl

theorem ends_hashOrder {keys : List Uri} {k : { l : List Uri // l.Perm keys } → Proc α} :
    (Prog.act (.hashOrder keys) k).Ends A.Step w res w' ↔ ∃ a, (k a).Ends A.Step w res w' :=
  ends_answer fun _ _ _ => Iff.rfl

theorem ends_notifyChange {k : Unit → Proc α} :
    (Prog.act (.notifyChange u) k).Ends A.Step w res w' ↔ (k ()).Ends A.Step w res w' := by
  rw [ends_answer fun _ _ _ => Iff.rfl]
  exact ⟨fun ⟨_, h⟩ => h, fun h => ⟨(), h⟩⟩

theorem ends_revokeDocumentPermission {k : Unit → Proc α} :
    (Prog.act (.revokeDocumentPermission u) k).Ends A.Step w res w' ↔
      (k ()).Ends A.Step w res w' := by
  rw [ends_answer fun _ _ _ => Iff.rfl]
  exact ⟨fun ⟨_, h⟩ => h, fun h => ⟨(), h⟩⟩

/-- **A call of the client** throws or returns, as the scenario has it. -/
theorem ends_smb {σ : Scenario} {w w' : World Server} {c : SmbCall} {res : Result Exn c.Value} :
    (smb c).Ends σ.Step w res w' ↔
      (∃ x, σ.fault w.server.calls = some x ∧ res = .threw x ∧
        w' = ⟨w.store, w.server.next⟩) ∨
      (σ.fault w.server.calls = none ∧
        ∃ a t, σ.Returns c w.server.next a t ∧ res = .returned a ∧ w' = ⟨w.store, t⟩) := by
  constructor
  · rintro ⟨a, ⟨s, t⟩, ⟨hans, hs⟩, h⟩
    obtain rfl : s = w.store := hs
    change σ.Answers c w.server a t at hans
    unfold Scenario.Answers at hans
    rcases hf : σ.fault w.server.calls with _ | x
    · rw [hf] at hans
      cases a with
      | error y => exact hans.elim
      | ok a =>
        obtain ⟨rfl, rfl⟩ := h
        exact .inr ⟨rfl, a, t, hans, rfl, rfl⟩
    · rw [hf] at hans
      cases a with
      | error y =>
        obtain ⟨rfl, ht⟩ := hans
        obtain ⟨rfl, rfl⟩ := h
        exact .inl ⟨y, rfl, rfl, by rw [show t = w.server.next from ht]⟩
      | ok a => exact hans.elim
  · rintro (⟨x, hx, rfl, rfl⟩ | ⟨hnone, a, t, hans, rfl, rfl⟩)
    · refine ⟨.error x, ⟨w.store, w.server.next⟩, ⟨?_, rfl⟩, rfl, rfl⟩
      simp [Scenario.Answers, hx]
    · refine ⟨.ok a, ⟨w.store, t⟩, ⟨?_, rfl⟩, rfl, rfl⟩
      simpa [Scenario.Answers, hnone] using hans

end Effects

/-! ## The methods of the cache -/

section Cache

attribute [local simp] getUri getChildren memory perform Store.exec ends_memory
  ends_currentTimeMillis

/-- **`put` indexes the object**, under its URI and in its parent. -/
theorem ends_put {res : Result Exn Unit} (h : (DocumentCache.put r).Ends A.Step w res w') :
    res = .returned () ∧ w'.server = w.server ∧
      w'.store.index = w.store.index.put Uri.buildParentUri r := by
  simp [DocumentCache.put] at h
  split at h
  · rename_i hq
    obtain ⟨rfl, rfl⟩ := h
    refine ⟨rfl, rfl, TreeIndex.ext rfl rfl (funext fun p => ?_) rfl⟩
    simp [TreeIndex.put, Store.index, hq]
  · rename_i q hq
    simp [putChild] at h
    split at h
    · rename_i hg
      obtain ⟨rfl, rfl⟩ := h
      refine ⟨rfl, rfl, TreeIndex.ext rfl rfl (funext fun p => ?_) rfl⟩
      by_cases hp : q = p
      · subst hp
        simp [TreeIndex.put, Store.index, hq, hg]
      · simp [TreeIndex.put, Store.index, hq, hp]
    · rename_i g hg
      simp at h
      obtain ⟨rfl, rfl⟩ := h
      refine ⟨rfl, rfl, ?_⟩
      refine (Store.index_setMap ?_).trans (TreeIndex.ext rfl rfl (funext fun p => ?_) rfl)
      · exact hg
      by_cases hp : q = p
      · subst hp
        simp [TreeIndex.put, TreeIndex.setChildren, Store.index, hq, hg, lookup_insert_eq]
      · simp [TreeIndex.put, TreeIndex.setChildren, Store.index, hq, hp, Ne.symm hp]

/-- **`remove` takes the URI out**, and out of the map of its parent. -/
theorem ends_remove {res : Result Exn Unit}
    (h : (DocumentCache.remove u).Ends A.Step w res w') :
    res = .returned () ∧ w'.server = w.server ∧
      w'.store.index = w.store.index.remove Uri.buildParentUri u := by
  simp [DocumentCache.remove] at h
  split at h
  · rename_i hq
    obtain ⟨rfl, rfl⟩ := h
    refine ⟨rfl, rfl, TreeIndex.ext rfl rfl (funext fun p => ?_) rfl⟩
    simp [TreeIndex.remove, Store.index, hq]
  · rename_i q hq
    cases hg : (w.store.metadata q).children with
    | none =>
      simp [hg] at h
      obtain ⟨rfl, rfl⟩ := h
      refine ⟨rfl, rfl, TreeIndex.ext rfl rfl (funext fun p => ?_) rfl⟩
      by_cases hp : q = p
      · subst hp
        simp [TreeIndex.remove, Store.index, hq, hg]
      · simp [TreeIndex.remove, Store.index, hq, hp]
    | some g =>
      simp [hg] at h
      obtain ⟨rfl, rfl⟩ := h
      refine ⟨rfl, rfl, ?_⟩
      refine (Store.index_setMap ?_).trans (TreeIndex.ext rfl rfl (funext fun p => ?_) rfl)
      · exact hg
      by_cases hp : q = p
      · subst hp
        simp [TreeIndex.remove, TreeIndex.setChildren, Store.index, hq, hg, lookup_erase_eq]
      · simp [TreeIndex.remove, TreeIndex.setChildren, Store.index, hq, hp, Ne.symm hp]

theorem item_ite {p : Prop} [Decidable p] :
    (if p then DocumentCache.CacheResult.expired r else .hit r).item = some r := by
  split <;> rfl

/-- `get` answers with what is indexed. -/
theorem ends_get {res : Result Exn DocumentCache.CacheResult}
    (h : (DocumentCache.get u).Ends A.Step w res w') :
    ∃ result, res = .returned result ∧ result.item = w.store.index.flat u ∧ w' = w := by
  simp [DocumentCache.get] at h
  split at h
  · rename_i hu
    obtain ⟨rfl, rfl⟩ := h
    exact ⟨_, rfl, hu.symm, rfl⟩
  · rename_i r hu
    simp at h
    obtain ⟨⟨now, rfl⟩, rfl⟩ := h
    exact ⟨_, rfl, item_ite.trans hu.symm, rfl⟩

theorem ends_reset {res : Result Exn Unit} (h : (reset r).Ends A.Step w res w') :
    res = .returned () ∧ w'.store.index = w.store.index.setChildren r none := by
  obtain ⟨rfl, rfl⟩ : res = _ ∧ w' = _ := by simpa [reset] using h
  refine ⟨rfl, ?_⟩
  change (Store.exec (.write r .noChildren)
    (Store.exec (.write r (.stat none)) w.store).2).2.index = _
  rw [Store.index_write_noChildren, Store.index_write (fun _ => rfl) fun _ => rfl]

theorem ends_rename {res : Result Exn Unit} (h : (rename r u).Ends A.Step w res w') :
    res = .returned () ∧ w'.server = w.server ∧
      w'.store.index = w.store.index.setKey r u := by
  obtain ⟨rfl, rfl⟩ : res = _ ∧ w' = _ := by simpa [rename] using h
  refine ⟨rfl, rfl, ?_⟩
  change (Store.exec (.write r (.uri u))
    (Store.exec (.write r (.name u.getLastPathSegment)) w.store).2).2.index = _
  rw [Store.index_write_uri, Store.index_write (fun _ => rfl) fun _ => rfl]

end Cache

/-! ## Sequences -/

section Sequences

variable {p : Proc α} {f : α → Proc β} {res : Result Exn β}

/-- A sequence whose first part returns, or ends the whole. -/
theorem ends_seq (h : (p >>= f).Ends A.Step w res w') :
    (∃ a t, p.Ends A.Step w (.returned a) t ∧ (f a).Ends A.Step t res w') ∨
      (∃ x, p.Ends A.Step w (.threw x) w' ∧ res = .threw x) ∨
      (p.Ends A.Step w .outOfFuel w' ∧ res = .outOfFuel) := by
  obtain ⟨r', t, hp, hf⟩ := Prog.ends_bind.mp h
  rcases r' with a | x | _
  · exact .inl ⟨a, t, hp, hf⟩
  · obtain ⟨rfl, rfl⟩ := hf
    exact .inr (.inl ⟨x, hp, rfl⟩)
  · obtain ⟨rfl, rfl⟩ := hf
    exact .inr (.inr ⟨hp, rfl⟩)

/-- A sequence whose first part always returns. -/
theorem ends_seq_of_returns {P : α → World S → Prop}
    (hp : ∀ res t, p.Ends A.Step w res t → ∃ a, res = .returned a ∧ P a t)
    (h : (p >>= f).Ends A.Step w res w') : ∃ a t, P a t ∧ (f a).Ends A.Step t res w' := by
  rcases ends_seq h with ⟨a, t, ha, hf⟩ | ⟨x, hx, _⟩ | ⟨hx, _⟩
  · obtain ⟨b, hb, hP⟩ := hp _ _ ha
    obtain rfl := Result.returned.inj hb
    exact ⟨a, t, hP, hf⟩
  · obtain ⟨b, hb, _⟩ := hp _ _ hx
    cases hb
  · obtain ⟨b, hb, _⟩ := hp _ _ hx
    cases hb

theorem ends_seq_put {f : Unit → Proc β}
    (h : (DocumentCache.put r >>= f).Ends A.Step w res w') :
    ∃ t, t.server = w.server ∧ t.store.index = w.store.index.put Uri.buildParentUri r ∧
      (f ()).Ends A.Step t res w' := by
  obtain ⟨_, t, ⟨hserver, hindex⟩, h⟩ := ends_seq_of_returns
    (P := fun _ t => t.server = w.server ∧
      t.store.index = w.store.index.put Uri.buildParentUri r)
    (fun _ _ h => ⟨(), ends_put h⟩) h
  exact ⟨t, hserver, hindex, h⟩

theorem ends_seq_remove {f : Unit → Proc β}
    (h : (DocumentCache.remove u >>= f).Ends A.Step w res w') :
    ∃ t, t.server = w.server ∧ t.store.index = w.store.index.remove Uri.buildParentUri u ∧
      (f ()).Ends A.Step t res w' := by
  obtain ⟨_, t, ⟨hserver, hindex⟩, h⟩ := ends_seq_of_returns
    (P := fun _ t => t.server = w.server ∧
      t.store.index = w.store.index.remove Uri.buildParentUri u)
    (fun _ _ h => ⟨(), ends_remove h⟩) h
  exact ⟨t, hserver, hindex, h⟩

theorem ends_seq_rename {f : Unit → Proc β} (h : (rename r u >>= f).Ends A.Step w res w') :
    ∃ t, t.server = w.server ∧ t.store.index = w.store.index.setKey r u ∧
      (f ()).Ends A.Step t res w' := by
  obtain ⟨_, t, ⟨hserver, hindex⟩, h⟩ := ends_seq_of_returns
    (P := fun _ t => t.server = w.server ∧ t.store.index = w.store.index.setKey r u)
    (fun _ _ h => ⟨(), ends_rename h⟩) h
  exact ⟨t, hserver, hindex, h⟩

theorem ends_seq_get {f : DocumentCache.CacheResult → Proc β}
    (h : (DocumentCache.get u >>= f).Ends A.Step w res w') :
    ∃ result, result.item = w.store.index.flat u ∧ (f result).Ends A.Step w res w' := by
  obtain ⟨result, t, ⟨hitem, rfl⟩, hf⟩ := ends_seq_of_returns (fun _ _ => ends_get) h
  exact ⟨result, hitem, hf⟩

theorem ends_make {e : DirectoryEntry} {res : Result Exn DocumentMetadata}
    (h : (make u e).Ends A.Step w res w') :
    ∃ m, res = .returned m ∧ m.uri = u ∧ m.entry = e ∧ m.children = none ∧ w' = w := by
  simp only [make, perform, Prog.act_bind, Prog.ctorPure_bind, ends_currentTimeMillis,
    Prog.ends_pure, exists_and_right] at h
  obtain ⟨⟨now, rfl⟩, rfl⟩ := h
  exact ⟨_, rfl, rfl, rfl, rfl, rfl⟩

theorem ends_seq_make {e : DirectoryEntry} {f : DocumentMetadata → Proc β}
    (h : (make u e >>= f).Ends A.Step w res w') :
    ∃ m, m.uri = u ∧ m.entry = e ∧ m.children = none ∧ (f m).Ends A.Step w res w' := by
  obtain ⟨m, t, ⟨huri, hentry, hch, rfl⟩, hf⟩ := ends_seq_of_returns (fun _ _ => ends_make) h
  exact ⟨m, huri, hentry, hch, hf⟩

/-- The exception clauses change neither the world nor what is returned. -/
theorem ends_rethrowing {p : Proc β} (h : (rethrowing p).Ends A.Step w res w') :
    ∃ res', p.Ends A.Step w res' w' ∧ ∀ a, res = .returned a ↔ res' = .returned a := by
  obtain ⟨r', t, hp, hc⟩ := Prog.ends_catching.mp h
  rcases r' with a | x | _
  · obtain ⟨rfl, rfl⟩ := hc
    exact ⟨_, hp, fun _ => Iff.rfl⟩
  · change if _ then _ else _ at hc
    split at hc
    all_goals
      obtain ⟨rfl, rfl⟩ := hc
      exact ⟨_, hp, fun _ => by simp⟩
  · obtain ⟨rfl, rfl⟩ := hc
    exact ⟨_, hp, fun _ => Iff.rfl⟩

end Sequences

/-! ## Kinds of entries -/

section Kinds

theorem not_isIOException_getMimeType {e : DirectoryEntry} {x : Exn}
    (h : getMimeType e = .error x) : x.isIOException = false := by
  unfold getMimeType at h
  split at h
  · cases h
  all_goals first
    | cases h
      done
    | obtain rfl := Except.error.inj h
      rfl

/-- Telling a directory from a file. -/
theorem ends_isDirectory {e : DirectoryEntry} {p q : Proc α} {res : Result Exn α}
    (h : (do if ← isDirectory e then p else q : Proc α).Ends A.Step w res w') :
    (∃ x, x.isIOException = false ∧ res = .threw x ∧ w' = w) ∨
      (getMimeType e = .ok .directory ∧ p.Ends A.Step w res w') ∨
      ((∃ ext, getMimeType e = .ok (.ofExtension ext)) ∧ q.Ends A.Step w res w') := by
  unfold isDirectory at h
  rcases hm : getMimeType e with x | ⟨⟩ | ext
  all_goals
    rw [hm] at h
  · obtain ⟨rfl, rfl⟩ := h
    exact .inl ⟨x, not_isIOException_getMimeType hm, rfl, rfl⟩
  · exact .inr (.inl ⟨rfl, h⟩)
  · exact .inr (.inr ⟨⟨ext, rfl⟩, h⟩)

end Kinds

/-! ## Running an operation

Everything a world leaves open is answered in one way, to follow single
runs. -/

section Running

/-- No share is there, the clock stands still, and a hash map is walked in
the order of its keys. -/
def runEffect (answer : (c : SmbCall) → S → Except Exn c.Value × S) :
    (e : Effect) → World S → e.Answer × World S
  | .memory m, w => ((Store.exec m w.store).1, ⟨(Store.exec m w.store).2, w.server⟩)
  | .smb c, w => ((answer c w.server).1, ⟨w.store, (answer c w.server).2⟩)
  | .shares .iterator, w => ([], w)
  | .shares (.containsShare _), w | .shares (.isShareMounted _), w
  | .shares (.unmountServer _), w => (false, w)
  | .shares (.removeCredential _), w => ((), w)
  | .shares (.beginMount _), w | .shares (.saveServer _), w => (.ok (), w)
  | .currentTimeMillis, w => ((0 : ℤ), w)
  | .hashOrder keys, w => (⟨keys, .refl keys⟩, w)
  | .notifyChange _, w | .revokeDocumentPermission _, w => ((), w)

theorem step_runEffect {answer : (c : SmbCall) → S → Except Exn c.Value × S}
    (h : ∀ c s, A c s (answer c s).1 (answer c s).2) (e : Effect) (w : World S) :
    A.Step e w (runEffect answer e w).1 (runEffect answer e w).2 := by
  cases e with
  | memory m => exact ⟨rfl, rfl⟩
  | smb c => exact ⟨h c w.server, rfl⟩
  | shares c => cases c <;> exact rfl
  | _ => exact rfl

/-- A document in a share. -/
def inHomes (name : String) : Uri :=
  ((Uri.smbBaseUri.withAuthority (some "nas")).appendPath "homes").appendPath name

/-- A store with nothing in it. -/
def emptyStore : Store := .initial ⟨inHomes "", ⟨.dir, "", none⟩, none, none, none, none, 0⟩

end Running

end SambaProvider

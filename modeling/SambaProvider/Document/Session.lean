import SambaProvider.Document.Agreement

/-!
# Sessions

A session is a run of operations on one store, each of which has come to
its end before the next one starts. The server of an operation is its
own, so the documents on it may change arbitrarily between two of them.

This module reads off, for the store before and after an operation, the
change of the index the lemmas on the programs have found.
-/

namespace SambaProvider

open Lib

/-- An operation and the server it meets. -/
structure Activity where
  op : Operation
  scenario : Scenario

/-- A server that has not been called. -/
def Server.fresh : Server where
  calls := 0
  opened := 0
  pending _ := []

/-- A children task is for an object that exists. -/
def Operation.Valid (s : Store) : Operation → Prop
  | .loadChildren _ r => r < s.nextRef
  | _ => True

/-- The operation can end so, and leave `s'`. -/
def CompletesWith (s : Store) (a : Activity) (res : Result Exn Unit) (s' : Store) : Prop :=
  a.op.Valid s ∧ res ≠ .outOfFuel ∧
    ∃ fuel w', (a.op.body fuel).Ends a.scenario.Step ⟨s, .fresh⟩ res w' ∧ w'.store = s'

/-- One step of a session. -/
def Completes (s : Store) (a : Activity) (s' : Store) : Prop := ∃ res, CompletesWith s a res s'

/-- The store a session starts with. -/
def Store.Initial (s : Store) : Prop := ∃ m, s = Store.initial m

/-- The source and the target of a rename or a move. -/
def Operation.renaming : Operation → Option (Uri × Option Uri)
  | .renameDocument uri displayName => some (uri, renameTarget uri displayName)
  | .moveDocument uri targetParentUri => some (uri, moveTarget uri targetParentUri)
  | _ => none

/-- What the directory lists in the first listing of an operation. -/
abbrev Activity.listing (a : Activity) (u : Uri) : List DirectoryEntry := a.scenario.listing 0 u

/-- The directory is opened and listed to its end. -/
def Activity.Lists (a : Activity) (u : Uri) : Prop :=
  ∀ n ≤ (a.listing u).length + 1, a.scenario.fault n = none

/-- The directory cannot be closed. -/
def Activity.CloseFails (a : Activity) (u : Uri) : Prop :=
  a.scenario.fault ((a.listing u).length + 2) ≠ none

variable {s s' : Store} {a : Activity} {res : Result Exn Unit} {u v k : Uri} {r : Ref}
  {i : TreeIndex Uri}

theorem index_initial (h : s.Initial) : s.index.flat u = none := by
  obtain ⟨m, rfl⟩ := h
  rfl

/-- A result that is dropped. -/
theorem ends_drop {σ : Scenario} {w w' : World Server} {α : Type} {p : Proc α}
    (h : (do let _ ← p : Proc Unit).Ends σ.Step w res w') :
    ∃ res', p.Ends σ.Step w res' w' ∧ (res = .returned () ↔ ∃ b, res' = .returned b) := by
  rcases ends_seq h with ⟨b, t, hp, rfl, rfl⟩ | ⟨x, hp, rfl⟩ | ⟨hp, rfl⟩
  · exact ⟨_, hp, by simp⟩
  · exact ⟨_, hp, by simp⟩
  · exact ⟨_, hp, by simp⟩

/-- **A rename or a move** that returns is accepted by provider and
server, and updates the index; another one leaves it as it is. -/
theorem updated_of_completes {target : Option Uri} (hop : a.op.renaming = some (u, target))
    (h : CompletesWith s a res s') :
    (s'.index = s.index ∧ res ≠ .returned ()) ∨
      ∃ v, target = some v ∧ a.scenario.fault 0 = none ∧ Updated s.index u v s'.index := by
  obtain ⟨_, _, fuel, w', hends, rfl⟩ := h
  obtain ⟨op, σ⟩ := a
  cases op with
  | renameDocument uri name =>
    obtain ⟨rfl, rfl⟩ := Prod.mk.inj (Option.some.inj hop)
    obtain ⟨res', hends, hres⟩ := ends_drop hends
    rcases ends_renameDocument hends with ⟨hindex, hne⟩ | ⟨v, hv, hfault, _, hupdated⟩
    · exact .inl ⟨hindex, fun hr => (hres.mp hr).elim hne⟩
    · exact .inr ⟨v, hv, hfault, hupdated⟩
  | moveDocument uri target =>
    obtain ⟨rfl, rfl⟩ := Prod.mk.inj (Option.some.inj hop)
    obtain ⟨res', hends, hres⟩ := ends_drop hends
    rcases ends_moveDocument hends with ⟨hindex, hne⟩ | ⟨v, hv, hfault, _, hupdated⟩
    · exact .inl ⟨hindex, fun hr => (hres.mp hr).elim hne⟩
    · exact .inr ⟨v, hv, hfault, hupdated⟩
  | _ => cases hop

/-- **A children task** leaves the index without its new nodes as it is,
or loads the children and indexes them. -/
theorem loaded_of_completes {cancelled : Bool} (hop : a.op = .loadChildren cancelled r)
    (h : Completes s a s') :
    r < s.index.size ∧
      (s.index.Extends s'.index ∨
        ∃ j, Loaded s.index r (a.listing (s.index.key r)) j ∧ a.Lists (s.index.key r) ∧
          (AllPut j r s'.index ∨ a.CloseFails (s.index.key r) ∧ s'.index = j)) := by
  obtain ⟨res, hvalid, _, fuel, w', hends, rfl⟩ := h
  obtain ⟨op, σ⟩ := a
  obtain rfl : op = _ := hop
  refine ⟨hvalid, ?_⟩
  rcases ends_loadChildrenTask hvalid hends with hext | ⟨j, hj, hfaults, hput⟩
  · exact .inl hext
  · refine .inr ⟨j, hj, fun n hn => ?_, hput.imp id fun ⟨hindex, hclose⟩ => ⟨?_, hindex⟩⟩
    · have hfault := hfaults n hn
      rwa [show Server.fresh.calls + n = n from Nat.zero_add n] at hfault
    · rwa [show Server.fresh.calls + _ = _ from Nat.zero_add _] at hclose

/-- **A mount** that is not cancelled: the share was mounted before; or it
is indexed, and is taken out again or has its children loaded and
indexed. -/
theorem mounted_of_completes {host share : String} (hop : a.op = .mountServer false host share)
    (h : Completes s a s') :
    let u := Uri.ofShare host share
    let i := insertNew s.index u
    s.index.Extends s'.index ∨
      (∃ j, (i.Extends j ∨ Loaded i s.index.size (a.listing u) j) ∧
        s'.index = j.remove Uri.buildParentUri u) ∨
      ∃ j, Loaded i s.index.size (a.listing u) j ∧ AllPut j s.index.size s'.index := by
  obtain ⟨res, _, hfuel, fuel, w', hends, rfl⟩ := h
  obtain ⟨op, σ⟩ := a
  obtain rfl : op = _ := hop
  rcases ends_mountServer hfuel hends with hext | hremoved | ⟨j, hj, _, hput⟩
  · exact .inl hext
  · exact .inr (.inl hremoved)
  · exact .inr (.inr ⟨j, hj, hput⟩)

/-- **A deletion** takes URIs out; where it returns, its own, and all that
is listed below it if it is a directory, nothing is missing and the
listings stay. -/
theorem removed_of_completes (hop : a.op = .deleteDocument u) (h : CompletesWith s a res s') :
    ∃ us, s'.index = removeAll us s.index ∧
      (res = .returned () → u.getPathSegments ≠ [] ∧ u ∈ us ∧
        ((a.scenario.stat u).isDir →
          (∀ n x, a.scenario.fault n = some x → x.isFileNotFound = false) →
          ∀ k ∈ covered a.scenario u, k ∈ us)) := by
  obtain ⟨_, _, fuel, w', hends, rfl⟩ := h
  obtain ⟨op, σ⟩ := a
  obtain rfl : op = _ := hop
  exact ends_deleteDocument hends

/-- Only documents inside a server are renamed. -/
theorem getPathSegments_ne_nil_of_renaming {op : Operation}
    (h : op.renaming = some (u, some v)) : u.getPathSegments ≠ [] := by
  intro hnil
  cases op with
  | renameDocument uri name =>
    obtain ⟨rfl, htarget⟩ := Prod.mk.inj (Option.some.inj h)
    simp [renameTarget, hnil] at htarget
  | moveDocument uri target =>
    obtain ⟨rfl, htarget⟩ := Prod.mk.inj (Option.some.inj h)
    simp [moveTarget, hnil] at htarget
  | _ => cases h

/-- The operations that do nothing but query, create, delete and load one
document. -/
def Operation.IsPlain : Operation → Prop
  | .queryDocument _ _ | .createDocument _ _ _ | .deleteDocument _ | .loadDocument _ _ => True
  | _ => False

/-- **A plain operation is harmless**, however it ends. -/
theorem harmless_of_completes (hop : a.op.IsPlain) (h : Completes s a s') :
    Harmless s.index s'.index := by
  obtain ⟨res, _, _, fuel, w', hends, rfl⟩ := h
  obtain ⟨op, σ⟩ := a
  cases op with
  | queryDocument uri projection =>
    obtain ⟨_, hends, _⟩ := ends_drop hends
    rcases ends_queryDocument hends with hindex | hindex
    · exact hindex ▸ .refl
    · exact hindex ▸ harmless_insertNew
  | createDocument parentUri isDir name =>
    obtain ⟨_, hends, _⟩ := ends_drop hends
    rcases ends_createDocument hends with hindex | ⟨r, hindex⟩ | ⟨v, hindex⟩
    · exact hindex ▸ .refl
    · exact hindex ▸ harmless_forget
    · exact hindex ▸ harmless_insertNew
  | deleteDocument uri =>
    obtain ⟨us, hindex, _⟩ := ends_deleteDocument hends
    exact hindex ▸ harmless_removeAll
  | loadDocument cancelled uri =>
    rcases ends_loadDocumentTask hends with hindex | hindex
    · exact hindex ▸ .refl
    · exact hindex ▸ harmless_insertNew
  | _ => exact hop.elim

/-! ## What a session keeps

The nodes are keyed and owned along a session, and a condition on the
children of what is indexed goes with it: that they are listed, or that
they are shared. What differs between the two is which renames keep them
and what a listing has to have. -/

section Keeping

/-- The index is keyed and owned, and the children satisfy `C`, the keys
in `S` apart. -/
structure Holds (C : Set Uri → TreeIndex Uri → Prop) (S : Set Uri) (i : TreeIndex Uri) :
    Prop where
  keyed : i.Keyed
  owned : OwnedIndex i
  children : C S i

/-- A condition that goes with the changes of a session but for a rename,
if the listings it loads satisfy `cond`. -/
structure Kept (C : Set Uri → TreeIndex Uri → Prop)
    (cond : TreeIndex Uri → Uri → List DirectoryEntry → Prop) : Prop where
  initial : ∀ {i : TreeIndex Uri}, (∀ k, i.flat k = none) → C ∅ i
  parent : ∀ {i u L}, cond i u L → ∀ k ∈ childUris u L, k.buildParentUri = u
  harmless : ∀ {i j}, i.Keyed → OwnedIndex i → Harmless i j → C ∅ i → C ∅ j
  load : ∀ {i j r L}, i.Keyed → OwnedIndex i → r < i.size →
    (i.flat (i.key r) = some r → cond i (i.key r) L) → Loaded i r L j →
    C ∅ i → C (loadedKeys (i.key r) L) j
  allPut : ∀ {i j j' r L}, r < i.size → j.Keyed → OwnedIndex j → Loaded i r L j →
    AllPut j r j' → C (loadedKeys (i.key r) L) j → C ∅ j'
  remove : ∀ {S i u}, i.Keyed → OwnedIndex i → (∀ k ∈ S, Uri.buildParentUri k = u) → C S i →
    C ∅ (i.remove Uri.buildParentUri u)

/-- The listings an operation loads: their directory can be closed, and
they satisfy `cond` where it is cached. -/
def Activity.ListsWell (cond : TreeIndex Uri → Uri → List DirectoryEntry → Prop) (s : Store)
    (a : Activity) : Prop :=
  match a.op with
  | .loadChildren _ r =>
    let u := (s.metadata r).uri
    a.Lists u → ¬ a.CloseFails u ∧ (s.cache u = some r → cond s.index u (a.listing u))
  | .mountServer cancelled host share =>
    let u := Uri.ofShare host share
    cancelled = false ∧ cond (insertNew s.index u) u (a.listing u)
  | _ => True

variable {C : Set Uri → TreeIndex Uri → Prop}
  {cond : TreeIndex Uri → Uri → List DirectoryEntry → Prop} {j : TreeIndex Uri}
  {L : List DirectoryEntry}

theorem Holds.initial (hC : Kept C cond) (hs : s.Initial) : Holds C ∅ s.index := by
  have hnone (k : Uri) (c : Ref) (hc : s.index.flat k = some c) : False := by
    rw [index_initial hs] at hc
    cases hc
  exact ⟨⟨fun hc => (hnone _ _ hc).elim, fun hc => (hnone _ _ hc).elim⟩,
    fun k c hc => (hnone k c hc).elim, hC.initial fun k => index_initial hs⟩

theorem Holds.harmless (hC : Kept C cond) (h : Holds C ∅ i) (hij : Harmless i j) :
    Holds C ∅ j := by
  obtain ⟨hK, hO, _⟩ := hij h.keyed h.owned
  exact ⟨hK, hO, hC.harmless h.keyed h.owned hij h.children⟩

/-- A load leaves what it has loaded to be indexed. -/
theorem Holds.load (hC : Kept C cond) (h : Holds C ∅ i) (hr : r < i.size) (hkey : i.key r = u)
    (hcond : i.flat u = some r → cond i u L) (hload : Loaded i r L j) :
    Holds C (loadedKeys u L) j := by
  subst hkey
  obtain ⟨hK, hO, _⟩ :=
    loaded_agree h.keyed h.owned hr (fun hc => hC.parent (hcond hc)) hload
  exact ⟨hK, hO, hC.load h.keyed h.owned hr hcond hload h.children⟩

theorem Holds.allPut {j' : TreeIndex Uri} (hC : Kept C cond) (h : Holds C ∅ i) (hr : r < i.size)
    (hkey : i.key r = u) (hcond : i.flat u = some r → cond i u L) (hload : Loaded i r L j)
    (hput : AllPut j r j') : Holds C ∅ j' := by
  obtain ⟨hK, hO, hS⟩ := h.load hC hr hkey hcond hload
  subst hkey
  obtain ⟨hK', hO', _⟩ := allPut_agree hr hK hO hload hput
  exact ⟨hK', hO', hC.allPut hr hK hO hload hput hS⟩

/-- A load of an object that is taken out of the cache afterwards. -/
theorem Holds.load_remove (hC : Kept C cond) (h : Holds C ∅ i) (hr : r < i.size)
    (hkey : i.key r = u) (hcond : cond i u L) (hload : Loaded i r L j) :
    Holds C ∅ (j.remove Uri.buildParentUri u) := by
  obtain ⟨hK, hO, hS⟩ := h.load hC hr hkey (fun _ => hcond) hload
  exact ⟨hK.remove, hO.remove, hC.remove hK hO (hC.parent hcond) hS⟩

/-- **One operation** keeps the condition if its renames do and its
listings are as they should be. -/
theorem Holds.completes (hC : Kept C cond) (h : Holds C ∅ s.index)
    (hrename : ∀ u v j, a.op.renaming = some (u, some v) → a.scenario.fault 0 = none →
      Updated s.index u v j → Holds C ∅ j)
    (hlists : a.ListsWell cond s) (hstep : CompletesWith s a res s') :
    Holds C ∅ s'.index := by
  have hrenamed (u : Uri) (target : Option Uri) (hren : a.op.renaming = some (u, target)) :
      Holds C ∅ s'.index := by
    rcases updated_of_completes hren hstep with ⟨hindex, _⟩ | ⟨v, rfl, hfault, hupdated⟩
    · rwa [hindex]
    · exact hrename u v _ hren hfault hupdated
  unfold Activity.ListsWell at hlists
  cases hop : a.op with
  | renameDocument uri name => exact hrenamed uri _ (by rw [hop]; rfl)
  | moveDocument uri target => exact hrenamed uri _ (by rw [hop]; rfl)
  | loadChildren cancelled r =>
    rw [hop] at hlists
    obtain ⟨hr, hext | ⟨j, hj, hall, hput⟩⟩ := loaded_of_completes hop ⟨res, hstep⟩
    · exact h.harmless hC (harmless_extends hext)
    obtain ⟨hclose, hcond⟩ := hlists hall
    rcases hput with hput | ⟨hfails, _⟩
    · exact h.allPut hC hr rfl hcond hj hput
    · exact absurd hfails hclose
  | mountServer cancelled host share =>
    rw [hop] at hlists
    obtain ⟨rfl, hcond⟩ := hlists
    have hnew := h.harmless hC (harmless_insertNew (u := Uri.ofShare host share))
    rcases mounted_of_completes hop ⟨res, hstep⟩ with hext | ⟨j, hj, hindex⟩ | ⟨j, hj, hput⟩
    · exact h.harmless hC (harmless_extends hext)
    · rw [hindex]
      rcases hj with hext | hj
      · exact hnew.harmless hC ((harmless_extends hext).trans harmless_remove)
      · exact hnew.load_remove hC size_lt_insertNew key_insertNew hcond hj
    · exact hnew.allPut hC size_lt_insertNew key_insertNew (fun _ => hcond) hj hput
  | _ => exact h.harmless hC (harmless_of_completes (by rw [hop]; trivial) ⟨res, hstep⟩)

end Keeping

/-! ## Sample sessions -/

/-- A call, as the scenario has it. -/
def Scenario.answer (σ : Scenario) (c : SmbCall) (s : Server) : Except Exn c.Value × Server :=
  match σ.fault s.calls, c with
  | some x, _ => (.error x, s.next)
  | none, .stat u => (.ok (σ.stat u), s.next)
  | none, .openDir u =>
    (.ok s.opened, ⟨s.calls + 1, s.opened + 1,
      Function.update s.pending s.opened (σ.listing s.opened u)⟩)
  | none, .readDir dir =>
    (.ok (s.pending dir).head?,
      ⟨s.calls + 1, s.opened, Function.update s.pending dir (s.pending dir).tail⟩)
  | none, .closeDir _ | none, .createFile _ | none, .mkdir _ | none, .rename _ _
  | none, .unlink _ | none, .rmdir _ => (.ok (), s.next)

theorem answers_answer {σ : Scenario} (c : SmbCall) (t : Server) :
    σ.Answers c t (σ.answer c t).1 (σ.answer c t).2 := by
  unfold Scenario.Answers Scenario.answer
  cases hf : σ.fault t.calls with
  | some x => exact ⟨rfl, rfl⟩
  | none =>
    cases c with
    | stat | openDir | readDir => exact ⟨rfl, rfl⟩
    | _ => exact rfl

/-- A server without faults, on which every document is a directory, and
has these files. -/
def Scenario.quiet (names : List String) : Scenario where
  fault _ := none
  stat _ := ⟨0o040000, 0, 0⟩
  listing _ _ := names.map fun name => ⟨.file, "", some name⟩

/-- An activity run to its end. -/
def Activity.run (a : Activity) (fuel : ℕ) (s : Store) : Result Exn Unit × World Server :=
  (a.op.body fuel).run (runEffect a.scenario.answer) ⟨s, .fresh⟩

theorem completesWith_run (fuel : ℕ) (hvalid : a.op.Valid s)
    (hfuel : (a.run fuel s).1 ≠ .outOfFuel) :
    CompletesWith s a (a.run fuel s).1 (a.run fuel s).2.store :=
  ⟨hvalid, hfuel, fuel, _, Prog.ends_run (step_runEffect answers_answer), rfl⟩

/-- A directory is queried. -/
def queryA : Activity := ⟨.queryDocument (inHomes "a") none, .quiet []⟩

/-- Its children are loaded. -/
def loadA : Activity := ⟨.loadChildren false 0, .quiet ["b"]⟩

/-- It is renamed. -/
def renameA : Activity := ⟨.renameDocument (inHomes "a") "c", .quiet []⟩

/-- It is deleted. -/
def deleteA : Activity := ⟨.deleteDocument (inHomes "a"), .quiet ["b"]⟩

/-- The stores of two sample sessions. -/
def queriedStore : Store := (queryA.run 1 emptyStore).2.store

def loadedStore : Store := (loadA.run 3 queriedStore).2.store

def renamedStore : Store := (renameA.run 1 loadedStore).2.store

def deletedStore : Store := (deleteA.run 4 loadedStore).2.store

theorem completes_queryA : CompletesWith emptyStore queryA (.returned ()) queriedStore :=
  completesWith_run (a := queryA) 1 trivial nofun

theorem completes_loadA : CompletesWith queriedStore loadA (.returned ()) loadedStore :=
  completesWith_run (a := loadA) 3 (by decide : (0 : ℕ) < 1) nofun

theorem completes_renameA : CompletesWith loadedStore renameA (.returned ()) renamedStore :=
  completesWith_run (a := renameA) 1 trivial nofun

theorem completes_deleteA : CompletesWith loadedStore deleteA (.returned ()) deletedStore :=
  completesWith_run (a := deleteA) 4 trivial nofun

/-- Before the children are loaded, only the directory is cached. -/
theorem eq_of_queriedStore {c : Ref} (h : queriedStore.cache k = some c) : k = inHomes "a" := by
  by_contra hne
  have hnone : queriedStore.cache k = none := Function.update_of_ne hne _ _
  exact absurd (hnone.symm.trans h) nofun

/-- Afterwards, its child is as well. -/
theorem eq_of_loadedStore {c : Ref} (h : loadedStore.cache k = some c) :
    k = inHomes "a" ∨ k = (inHomes "a").appendPath "b" := by
  by_contra hne
  obtain ⟨ha, hb⟩ := not_or.mp hne
  have hnone : loadedStore.cache k = none :=
    (Function.update_of_ne hb _ _).trans (Function.update_of_ne ha _ _)
  exact absurd (hnone.symm.trans h) nofun

end SambaProvider

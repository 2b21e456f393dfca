import SambaProvider.Document.Query
import SambaProvider.Document.World

/-!
# The application

The provider and the saved shares together: what an effect may answer,
where the server may say anything but lists only what it has; and what
happens in the application, starts, calls and tasks, one after another.
-/

namespace SambaProvider

open Lib DocumentMetadata SambaDocumentsProvider

/-! ## The application -/

/-- The saved shares by their URIs, and which are mounted. -/
structure ShareTable where
  saved : List Uri
  mounted : List Uri
  mounted_saved : ∀ u ∈ mounted, u ∈ saved

namespace ShareTable

/-- A share is saved, and mounted. -/
def save (s : ShareTable) (u : Uri) : ShareTable where
  saved := u :: s.saved
  mounted := u :: s.mounted
  mounted_saved v hv := by
    rcases List.mem_cons.mp hv with rfl | hv
    · exact List.mem_cons_self
    · exact List.mem_cons_of_mem u (s.mounted_saved v hv)

def remove (s : ShareTable) (u : Uri) : ShareTable where
  saved := s.saved.filter (· ≠ u)
  mounted := s.mounted.filter (· ≠ u)
  mounted_saved v hv := by
    rw [List.mem_filter] at hv ⊢
    exact ⟨s.mounted_saved v hv.1, hv.2⟩

/-- What `ShareManager` answers, and what it does to the shares. Saving a
share or removing it may fail. -/
def Answers : (c : ShareCall) → ShareTable → c.Answer → ShareTable → Prop
  | .iterator, s, a, t => (∀ u, u ∈ a ↔ u ∈ s.saved) ∧ t = s
  | .containsShare u, s, a, t => a = decide (u ∈ s.saved) ∧ t = s
  | .isShareMounted u, s, a, t => a = decide (u ∈ s.mounted) ∧ t = s
  | .beginMount _, s, _, t => t = s
  | .removeCredential _, s, _, t => t = s
  | .saveServer u, s, a, t => ((∃ x, a = .error x) ∧ t = s) ∨ (a = .ok () ∧ t = s.save u)
  | .unmountServer u, s, a, t => (a = false ∧ t = s) ∨ (a = true ∧ t = s.remove u)

end ShareTable

/-- The memory of the provider, and the shares. -/
structure AppState where
  store : Store
  shares : ShareTable

/-- What a call of the client may answer, where the directories list what
is in `served`. -/
def SmbCall.Served (served : List DirectoryEntry) : (c : SmbCall) → Except Exn c.Value → Prop
  | .readDir _, .ok (some e) => e ∈ served
  | _, _ => True

/-- What an effect does. The server may answer anything, but for the
listings. -/
def AppState.Step (served : List DirectoryEntry) :
    (e : Effect) → AppState → e.Answer → AppState → Prop
  | .memory m, s, a, t =>
    a = (Store.exec m s.store).1 ∧ t = { s with store := (Store.exec m s.store).2 }
  | .smb c, s, a, t => c.Served served a ∧ t = s
  | .shares c, s, a, t => ShareTable.Answers c s.shares a t.shares ∧ t.store = s.store
  | .currentTimeMillis, s, _, t | .hashOrder _, s, _, t | .notifyChange _, s, _, t
  | .revokeDocumentPermission _, s, _, t => t = s

/-- What the provider is called for, and the tasks. -/
inductive ProviderCall
  | operation (o : Operation)
  | queryRoots (debug : Bool) (objects : Ref → String)
  | queryChildDocuments (uri : Uri) (projection : Option (List Column))
  | loadStat (cancelled : Uri → Bool) (docs : ChildMap) (notifyUri : Uri)
  | unmount (uri : Uri)

/-- The method, its result dropped. -/
def ProviderCall.body (fuel : ℕ) : ProviderCall → Proc Unit
  | .operation o => o.body fuel
  | .queryRoots debug objects => do
    let _ ← SambaDocumentsProvider.queryRoots debug objects
  | .queryChildDocuments uri projection => do
    let _ ← SambaDocumentsProvider.queryChildDocuments uri projection
  | .loadStat cancelled docs notifyUri => loadStatTask cancelled docs notifyUri
  | .unmount uri => do
    let _ ← perform (.shares (.unmountServer uri))

/-- The application starts with the shares that are saved; or a call or a
task runs to its end, while the directories list what is in `served`. -/
inductive AppAction
  | start (shares : ShareTable)
  | call (fuel : ℕ) (served : List DirectoryEntry) (c : ProviderCall)

/-- A task is given an object that exists. -/
def ProviderCall.Valid (s : AppState) : ProviderCall → Prop
  | .operation (.loadChildren _ r) => r < s.store.nextRef
  | _ => True

def AppState.start (shares : ShareTable) : AppState := ⟨emptyStore, shares⟩

def AppState.Next (s : AppState) : AppAction → AppState → Prop
  | .start shares, t => t = .start shares
  | .call fuel served c, t => c.Valid s ∧ ∃ res, (c.body fuel).Ends (AppState.Step served) s res t

def AppState.Init (s : AppState) : Prop := ∃ shares, s = .start shares

end SambaProvider

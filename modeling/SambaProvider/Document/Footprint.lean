import SambaProvider.Document.Application
import SambaProvider.Document.Exact
import SambaProvider.Lib.Crowd

/-!
# What is changed on the servers

Any number of calls and tasks at once, whatever they are answered: by the
servers, by the shares, and by the memory they share. What a call asks a
server to change is settled by its arguments; a deletion follows what is
listed besides. So a document that has changed on a server is at or below
one that a call was asked to create, to rename, to move or to delete.
-/

namespace SambaProvider

open Lib DocumentMetadata SambaDocumentsProvider

/-! ## The account of a call -/

/-- The documents a call of the client asks to change. -/
def SmbCall.changed : SmbCall → List Uri
  | .createFile u | .mkdir u | .unlink u | .rmdir u => [u]
  | .rename u newUri => [u, newUri]
  | .stat _ | .openDir _ | .readDir _ | .closeDir _ => []

/-- The documents an effect asks to change. -/
def Effect.changed : Effect → List Uri
  | .smb c => c.changed
  | _ => []

/-- What a call of the provider has asked the servers to change, and
whether that was accepted; and the entries it was handed. -/
structure Account where
  changes : List (SmbCall × Bool) := []
  listed : List DirectoryEntry := []

namespace Account

/-- The account after an effect that was answered. -/
def note : (e : Effect) → Account → e.Answer → Account
  | .smb (.readDir _), l, .ok (some entry) => { l with listed := l.listed ++ [entry] }
  | .smb c, l, a =>
    if c.changed = [] then l else { l with changes := l.changes ++ [(c, a.isOk)] }
  | _, l, _ => l

/-- `q` is at or below `d`, or on a server whose name was handed to the
call: such an entry stands for what is on that server, and not for a
document of the directory. -/
def Finds (l : Account) (d q : Place) : Prop :=
  AtOrUnder d q ∨ ∃ entry ∈ l.listed,
    (entry.type = .workgroup ∨ entry.type = .server) ∧ q.1 = entry.name

end Account

/-! ## What a call may ask for -/

/-- The one change a call makes, if its arguments allow any. -/
def ProviderCall.change : ProviderCall → Option SmbCall
  | .operation (.createDocument parentUri isDir displayName) =>
    (parentUri.buildChildUri (createdEntry isDir displayName)).map fun uri =>
      if isDir then .mkdir uri else .createFile uri
  | .operation (.renameDocument uri displayName) => (renameTarget uri displayName).map (.rename uri)
  | .operation (.moveDocument uri targetParentUri) =>
    (moveTarget uri targetParentUri).map (.rename uri)
  | _ => none

/-- A removal the deletion of a document may ask for. -/
def Account.Removes (l : Account) (uri : Uri) (call : SmbCall) : Prop :=
  ∃ v : Uri, (call = .unlink v ∨ call = .rmdir v) ∧ l.Finds uri.place v.place

/-- **The call keeps to its arguments**: it makes its one change at most
once, and a deletion removes only what it finds. The URI of a server or a
workgroup is not deleted at all. -/
def ProviderCall.Allows : ProviderCall → Account → Prop
  | .operation (.deleteDocument uri), l =>
    ∀ x ∈ l.changes, uri.getPathSegments ≠ [] ∧ l.Removes uri x.1
  | c, l => l.changes = [] ∨ ∃ call accepted, c.change = some call ∧ l.changes = [(call, accepted)]

/-- The calls that cannot return without a change. -/
def ProviderCall.mustChange : ProviderCall → Bool
  | .operation (.createDocument _ _ _) | .operation (.renameDocument _ _)
  | .operation (.moveDocument _ _) => true
  | _ => false

/-- **What a call has done when it returns**: the one change was accepted. -/
def ProviderCall.Done (c : ProviderCall) (l : Account) : Prop :=
  c.mustChange = true → ∃ call, c.change = some call ∧ l.changes = [(call, true)]

/-- The documents a call is asked to change. -/
def ProviderCall.Covers : ProviderCall → Account → Place → Prop
  | .operation (.deleteDocument uri), l, q => l.Finds uri.place q
  | c, _, q => ∃ call, c.change = some call ∧ ∃ u ∈ call.changed, AtOrUnder u.place q

variable {u v : Uri} {r : Ref} {l l' : Account} {n : ℕ} {d p q : Place} {α β : Type}
  {entry : DirectoryEntry} {call : SmbCall} {e : Effect} {I : Account → Prop}

/-! ## Programs that only read -/

/-- The effects that ask for no change. -/
def Effect.Reads (e : Effect) : Prop := e.changed = []

/-- The program asks for no change. -/
abbrev OnlyReads (p : Proc α) : Prop := p.Every Effect.Reads fun _ => True

theorem onlyReads_perform (he : e.Reads) : OnlyReads (perform e) := ⟨he, fun _ => trivial⟩

theorem onlyReads_memory {m : Memory} : OnlyReads (memory m) := onlyReads_perform rfl

theorem onlyReads_smb (h : call.changed = []) : OnlyReads (smb call) :=
  ⟨h, fun _ => Prog.every_ofExcept fun _ _ => trivial⟩

theorem onlyReads_ofExcept {a : Except Exn α} : OnlyReads (Prog.ofExcept a) :=
  Prog.every_ofExcept fun _ _ => trivial

theorem onlyReads_rethrowing {p : Proc α} (h : OnlyReads p) : OnlyReads (rethrowing p) :=
  Prog.every_catching h fun _ => trivial

theorem onlyReads_forValues {map : AList fun _ : Uri => β} {body : Uri → β → Proc Unit}
    (hbody : ∀ key v, OnlyReads (body key v)) : OnlyReads (forValues map body) := by
  refine ⟨rfl, fun order => Prog.every_forM fun key _ => ?_⟩
  unfold visit
  split
  · exact hbody _ _
  · exact trivial

/-! ### The objects and the cache -/

theorem onlyReads_getUri : OnlyReads (getUri r) := ⟨rfl, fun _ => trivial⟩

theorem onlyReads_getChildren : OnlyReads (getChildren r) := ⟨rfl, fun _ => trivial⟩

theorem onlyReads_isDirectory : OnlyReads (isDirectory entry) :=
  Prog.every_bind onlyReads_ofExcept fun _ => trivial

theorem onlyReads_make : OnlyReads (make u entry) := ⟨rfl, fun _ => trivial⟩

theorem onlyReads_fromUri : OnlyReads (fromUri u) := by
  unfold fromUri
  split
  · exact trivial
  · exact Prog.every_bind (onlyReads_smb rfl) fun _ =>
      Prog.every_bind onlyReads_make fun _ => trivial

theorem onlyReads_putChild {child : Ref} : OnlyReads (putChild r child) := by
  refine Prog.every_bind onlyReads_getChildren fun children => ?_
  cases children with
  | none => exact trivial
  | some g => exact Prog.every_bind onlyReads_getUri fun _ => onlyReads_memory

theorem onlyReads_put : OnlyReads (DocumentCache.put r) := by
  refine Prog.every_bind onlyReads_getUri fun uri => Prog.every_bind onlyReads_memory fun _ => ?_
  refine Prog.every_bind onlyReads_getUri fun uri => ?_
  refine Prog.every_bind onlyReads_memory fun found => ?_
  cases found with
  | none => exact trivial
  | some parent => exact onlyReads_putChild

theorem onlyReads_remove : OnlyReads (DocumentCache.remove u) := by
  refine Prog.every_bind onlyReads_memory fun _ => Prog.every_bind onlyReads_memory fun _ => ?_
  refine Prog.every_bind onlyReads_memory fun found => ?_
  cases found with
  | none => exact trivial
  | some parent =>
    refine Prog.every_bind onlyReads_getChildren fun children => ?_
    split
    · refine Prog.every_bind onlyReads_getChildren fun children => ?_
      cases children with
      | none => exact trivial
      | some g => exact onlyReads_memory
    · exact trivial

theorem onlyReads_get : OnlyReads (DocumentCache.get u) := by
  refine Prog.every_bind onlyReads_memory fun found => ?_
  cases found with
  | none => exact trivial
  | some r =>
    exact Prog.every_bind onlyReads_memory fun _ =>
      Prog.every_bind (onlyReads_perform rfl) fun _ => trivial

theorem onlyReads_readChildren {uri : Proc Uri} {child : Uri → DirectoryEntry → Proc β}
    {dir : SmbDir} {children : AList fun _ : Uri => β} (huri : OnlyReads uri)
    (hchild : ∀ k entry, OnlyReads (child k entry)) :
    OnlyReads (readChildren uri child dir n children) := by
  induction n generalizing children with
  | zero => exact trivial
  | succ n ih =>
    refine Prog.every_bind (onlyReads_smb rfl) fun answer => ?_
    cases answer with
    | none => exact trivial
    | some entry =>
      refine Prog.every_bind huri fun uri => ?_
      cases uri.buildChildUri entry with
      | none => exact ih
      | some k => exact Prog.every_bind (hchild k entry) fun _ => ih

theorem onlyReads_loadChildren : OnlyReads (loadChildren n r) := by
  refine Prog.every_catching ?_ fun x => Prog.every_bind onlyReads_memory fun _ => trivial
  refine Prog.every_bind onlyReads_getUri fun uri => ?_
  refine Prog.every_bind (onlyReads_smb rfl) fun dir => ?_
  refine Prog.every_withResource ?_ (onlyReads_smb rfl)
  have hchild (k : Uri) (entry : DirectoryEntry) : OnlyReads (newChild k entry) :=
    Prog.every_bind onlyReads_make fun _ => onlyReads_memory
  refine Prog.every_bind (onlyReads_readChildren onlyReads_getUri hchild) fun children => ?_
  exact Prog.every_bind onlyReads_memory fun _ =>
    Prog.every_bind (onlyReads_perform rfl) fun _ => onlyReads_memory

/-! ### The queries -/

theorem onlyReads_documentRow {projection : Option (List Column)} :
    OnlyReads (documentRow projection r) :=
  Prog.every_bind onlyReads_memory fun _ => onlyReads_ofExcept

theorem onlyReads_queryDocument {projection : Option (List Column)} :
    OnlyReads (queryDocument u projection) := by
  refine onlyReads_rethrowing (Prog.every_bind onlyReads_get fun found => ?_)
  cases found.item with
  | none =>
    have hdescribe : OnlyReads (describeDocument u) := by
      refine Prog.every_bind (onlyReads_perform rfl) fun isShare => ?_
      split
      · exact onlyReads_make
      · exact onlyReads_fromUri
    exact Prog.every_bind hdescribe fun _ => Prog.every_bind onlyReads_memory fun _ =>
      Prog.every_bind onlyReads_put fun _ => onlyReads_documentRow
  | some r => exact onlyReads_documentRow

theorem onlyReads_rootRows {debug : Bool} {objects : Ref → String} {uris : List Uri}
    {rows : List RootRow} : OnlyReads (rootRows debug objects uris rows) := by
  induction uris generalizing rows with
  | nil => exact trivial
  | cons uri uris ih =>
    refine Prog.every_bind (onlyReads_perform rfl) fun mounted => ?_
    split
    · refine Prog.every_bind onlyReads_get fun found => ?_
      have hrow (r : Ref) : OnlyReads (do
          let metadata ← memory (.read r)
          let rootId ← Prog.ofExcept (toRootId debug (objects r) metadata)
          rootRows debug objects uris (rows ++ [⟨rootId, uri.toString, metadata.entry.name⟩])) :=
        Prog.every_bind onlyReads_memory fun _ => Prog.every_bind onlyReads_ofExcept fun _ => ih
      cases found.item with
      | none =>
        refine Prog.every_bind onlyReads_make fun _ => Prog.every_bind onlyReads_memory fun r => ?_
        exact Prog.every_bind onlyReads_put fun _ => hrow r
      | some r => exact hrow r
    · exact ih

theorem onlyReads_selectChild {child : Ref} {docs : ChildMap} :
    OnlyReads (selectChild child docs) := by
  refine Prog.every_bind onlyReads_memory fun metadata => ?_
  refine Prog.every_bind onlyReads_ofExcept fun needs => ?_
  split
  · refine Prog.every_bind ?_ fun failed => ?_
    · exact Prog.every_bind onlyReads_memory fun _ =>
        Prog.every_bind onlyReads_memory fun _ => trivial
    · split
      · exact trivial
      · exact Prog.every_bind onlyReads_getUri fun _ => trivial
  · exact trivial

theorem onlyReads_childRows {projection : Option (List Column)} {children docs : ChildMap}
    {keys : List Uri} {rows : List (List Cell)} :
    OnlyReads (childRows projection children keys docs rows) := by
  induction keys generalizing docs rows with
  | nil => exact trivial
  | cons key keys ih =>
    unfold childRows
    split
    · exact ih
    · exact Prog.every_bind onlyReads_selectChild fun _ =>
        Prog.every_bind onlyReads_documentRow fun _ => ih

theorem onlyReads_queryFolder {projection : Option (List Column)} {expired : Bool} :
    OnlyReads (queryFolder u projection expired r) := by
  refine Prog.every_bind onlyReads_memory fun metadata => ?_
  refine Prog.every_bind onlyReads_isDirectory fun isDir => ?_
  split
  · refine Prog.every_bind ?_ fun _ => Prog.every_bind onlyReads_getChildren fun children => ?_
    · refine Prog.every_bind onlyReads_memory fun metadata => ?_
      split
      · exact trivial
      · exact Prog.every_bind onlyReads_memory fun _ => trivial
    cases children with
    | none => exact trivial
    | some g =>
      refine Prog.every_bind onlyReads_memory fun children => ?_
      refine Prog.every_bind (onlyReads_perform rfl) fun order => ?_
      refine Prog.every_bind onlyReads_childRows fun ⟨docs, rows⟩ => ?_
      change OnlyReads (if expired then _ else if docs.keys = [] then _ else _)
      split
      · exact trivial
      split
      · exact trivial
      · exact trivial
  · exact trivial

theorem onlyReads_cacheServer : OnlyReads (cacheServer u) := by
  refine Prog.every_bind onlyReads_ofExcept fun isServer => ?_
  split
  · refine Prog.every_bind onlyReads_get fun found => ?_
    cases found.item with
    | none =>
      exact Prog.every_bind onlyReads_make fun _ =>
        Prog.every_bind onlyReads_memory fun _ => onlyReads_put
    | some r => exact trivial
  · exact trivial

theorem onlyReads_queryChildDocuments {projection : Option (List Column)} :
    OnlyReads (queryChildDocuments u projection) := by
  refine onlyReads_rethrowing (Prog.every_catching ?_ fun _ => trivial)
  refine Prog.every_bind onlyReads_cacheServer fun _ => ?_
  refine Prog.every_bind onlyReads_get fun found => ?_
  cases found with
  | miss =>
    refine Prog.every_bind (Prog.every_bind onlyReads_memory fun x => ?_) fun _ => trivial
    cases x with
    | none => exact trivial
    | some x => exact Prog.every_bind onlyReads_memory fun _ => trivial
  | hit r => exact onlyReads_queryFolder
  | expired r => exact onlyReads_queryFolder

/-! ### The tasks -/

theorem onlyReads_runTask {run : Proc α} {cancelled : Bool} {onSucceeded : α → Proc Unit}
    {onFailed : Exn → Proc Unit} {onCancelled : Option α → Proc Unit} (hrun : OnlyReads run)
    (hsucceeded : ∀ a, OnlyReads (onSucceeded a)) (hfailed : ∀ x, OnlyReads (onFailed x))
    (hcancelled : ∀ a, OnlyReads (onCancelled a)) :
    OnlyReads (runTask cancelled run onSucceeded onFailed onCancelled) := by
  refine Prog.every_bind (Prog.every_attempt hrun) fun result => ?_
  cases result with
  | ok a =>
    change OnlyReads (if cancelled then _ else _)
    split
    · exact hcancelled (some a)
    · exact hsucceeded a
  | error x =>
    change OnlyReads (if cancelled then _ else _)
    split
    · exact hcancelled none
    · exact hfailed x

theorem onlyReads_loadDocumentTask {cancelled : Bool} :
    OnlyReads (loadDocumentTask cancelled u) := by
  have hloaded (metadata : DocumentMetadata) : OnlyReads (do
      let r ← memory (.new metadata)
      DocumentCache.put r
      notifyChange u) :=
    Prog.every_bind onlyReads_memory fun _ => Prog.every_bind onlyReads_put fun _ =>
      onlyReads_perform rfl
  unfold loadDocumentTask
  refine onlyReads_runTask onlyReads_fromUri hloaded (fun x => ?_) fun metadata => ?_
  · exact Prog.every_bind onlyReads_memory fun _ => onlyReads_perform rfl
  · cases metadata with
    | none => exact trivial
    | some metadata => exact hloaded metadata

theorem onlyReads_putChildren {children : Option MapId} : OnlyReads (putChildren r children) := by
  cases children with
  | none => exact trivial
  | some g =>
    exact Prog.every_bind onlyReads_memory fun _ => onlyReads_forValues fun _ _ => onlyReads_put

theorem onlyReads_loadChildrenTask {cancelled : Bool} :
    OnlyReads (loadChildrenTask n cancelled r) := by
  have hnotify : OnlyReads (notifyLoaded r) :=
    Prog.every_bind onlyReads_getUri fun _ => onlyReads_perform rfl
  have hfinish (children : Option MapId) : OnlyReads (finishLoading r children) :=
    Prog.every_bind onlyReads_putChildren fun _ => hnotify
  refine onlyReads_runTask ?_ hfinish (fun _ => hnotify) fun result => ?_
  · exact Prog.every_bind onlyReads_loadChildren fun _ => onlyReads_getChildren
  · rcases result with _ | _ | g
    · exact trivial
    · exact trivial
    · exact hfinish (some g)

theorem onlyReads_mountServer {cancelled : Bool} {host share : String} :
    OnlyReads (mountServer n cancelled host share) := by
  refine Prog.every_bind onlyReads_make fun _ => Prog.every_bind onlyReads_memory fun r => ?_
  refine Prog.every_bind (onlyReads_perform rfl) fun mounted => ?_
  split
  · exact trivial
  refine Prog.every_bind onlyReads_put fun _ => onlyReads_runTask ?_ ?_ ?_ ?_
  · refine Prog.every_bind (onlyReads_perform rfl) fun began => ?_
    refine Prog.every_bind onlyReads_ofExcept fun _ => Prog.every_bind ?_ fun _ => ?_
    · exact Prog.every_catching onlyReads_loadChildren fun _ =>
        Prog.every_bind (onlyReads_perform rfl) fun _ => trivial
    · exact Prog.every_bind (onlyReads_perform rfl) fun _ => onlyReads_ofExcept
  · exact fun _ => Prog.every_bind onlyReads_getChildren fun _ => onlyReads_putChildren
  · exact fun _ => Prog.every_bind onlyReads_getUri fun _ => onlyReads_remove
  · exact fun _ => Prog.every_bind (onlyReads_perform rfl) fun _ => trivial

theorem onlyReads_loadStatTask {cancelled : Uri → Bool} {docs : ChildMap} :
    OnlyReads (loadStatTask cancelled docs u) := by
  have hstat (r : Ref) : OnlyReads (DocumentMetadata.loadStat r) := by
    refine Prog.every_catching ?_ fun _ => Prog.every_bind onlyReads_memory fun _ => trivial
    refine Prog.every_bind onlyReads_getUri fun _ => Prog.every_bind (onlyReads_smb rfl) fun _ => ?_
    exact Prog.every_bind onlyReads_memory fun _ =>
      Prog.every_bind (onlyReads_perform rfl) fun _ => onlyReads_memory
  have hloop (keys : List Uri) : OnlyReads (loadStats cancelled docs keys) := by
    induction keys with
    | nil => exact trivial
    | cons key keys ih =>
      unfold loadStats
      split
      · exact ih
      refine Prog.every_bind ?_ fun returns => ?_
      · exact Prog.every_catching (Prog.every_bind (hstat _) fun _ => trivial) fun _ => trivial
      · split
        · exact trivial
        · exact ih
  exact Prog.every_bind (onlyReads_perform rfl) fun order =>
    Prog.every_bind (hloop order.1) fun _ => onlyReads_perform rfl

/-! ## The accounts -/

/-- An effect that asks for no change notes none. -/
theorem Account.changes_note (h : e.Reads) (a : e.Answer) : (l.note e a).changes = l.changes := by
  cases e with
  | smb c =>
    cases c with
    | readDir dir => rcases a with _ | _ | _ <;> rfl
    | stat u | openDir u | closeDir dir => rfl
    | createFile u | mkdir u | rename u newUri | unlink u | rmdir u => cases h
  | _ => rfl

/-- A call that asks for a change notes it. -/
theorem Account.changes_note_smb (h : call.changed ≠ []) (a : Except Exn call.Value) :
    (l.note (.smb call) a).changes = l.changes ++ [(call, a.isOk)] := by
  cases call with
  | stat u | openDir u | readDir dir | closeDir dir => exact absurd rfl h
  | createFile u | mkdir u | rename u newUri | unlink u | rmdir u => rfl

/-- What was handed out is not forgotten. -/
theorem Account.listed_note (a : e.Answer) : l.listed ⊆ (l.note e a).listed := by
  cases e with
  | smb c =>
    cases c with
    | readDir dir =>
      rcases a with _ | _ | entry
      · exact List.Subset.refl _
      · exact List.Subset.refl _
      · exact List.subset_append_left _ _
    | _ => exact List.Subset.refl _
  | _ => exact List.Subset.refl _

theorem Account.Finds.mono (hsub : l.listed ⊆ l'.listed) (h : l.Finds d q) : l'.Finds d q := by
  rcases h with h | ⟨entry, hentry, h⟩
  · exact .inl h
  · exact .inr ⟨entry, hsub hentry, h⟩

/-- The program, from an account on, stays with its account in `I`. -/
abbrev KeepsTo (I : Account → Prop) (P : α → Account → Prop) (p : Proc α) (l : Account) : Prop :=
  p.Stays (Crowd.Noted Account.note) I (fun _ => True) P l

/-- `I` is about the changes, and about what was handed out at least. -/
def Lasts (I : Account → Prop) : Prop :=
  ∀ l l' : Account, l'.changes = l.changes → l.listed ⊆ l'.listed → I l → I l'

theorem keepsTo_of_onlyReads {p : Proc α} (hI : Lasts I) (h : OnlyReads p) (hl : I l) :
    KeepsTo I (fun _ l' => l'.changes = l.changes ∧ l.listed ⊆ l'.listed) p l := by
  refine h.stays (fun e l a l' he hl hnote => ?_) (fun e m a m' he hm hJ hnote => ?_) hl
    ⟨rfl, List.Subset.refl _⟩
  · obtain rfl := hnote
    exact hI l _ (Account.changes_note he a) (Account.listed_note a) hl
  · obtain rfl := hnote
    exact ⟨(Account.changes_note he a).trans hJ.1, List.Subset.trans hJ.2 (Account.listed_note a)⟩

/-- What is handed out by a program is added to what was. -/
theorem KeepsTo.and_listed {p : Proc α} {P : α → Account → Prop} (h : KeepsTo I P p l) :
    KeepsTo I (fun a l' => P a l' ∧ l.listed ⊆ l'.listed) p l := by
  refine Prog.Stays.and_kept (fun e m a m' hnote hm => ?_) (List.Subset.refl _) h
  obtain rfl := hnote
  exact List.Subset.trans hm (Account.listed_note a)

theorem keepsTo_smb (h : ∀ a, I (l.note (.smb call) a)) :
    KeepsTo I (fun v l' => l' = l.note (.smb call) (.ok v)) (smb call) l := by
  rintro a l' rfl
  refine ⟨h a, ?_⟩
  cases a with
  | error x => exact trivial
  | ok v => exact rfl

/-! ## One change -/

/-- Nothing is asked for but the one change, once. -/
def Account.AtMost (call : SmbCall) (l : Account) : Prop :=
  l.changes = [] ∨ ∃ accepted, l.changes = [(call, accepted)]

theorem lasts_atMost : Lasts (Account.AtMost call) := by
  intro l l' hchanges _ h
  rwa [Account.AtMost, hchanges]

variable {c : ProviderCall}

theorem ProviderCall.allows_of_changes (h : l.changes = []) : c.Allows l := by
  unfold ProviderCall.Allows
  split
  · rw [h]
    exact nofun
  · exact .inl h

theorem ProviderCall.allows_of_atMost (hchange : c.change = some call) (h : l.AtMost call) :
    c.Allows l := by
  unfold ProviderCall.Allows
  split
  · cases hchange
  · rcases h with h | ⟨accepted, h⟩
    · exact .inl h
    · exact .inr ⟨call, accepted, hchange, h⟩

/-- **A change, and then no other**: it was accepted where the program
returns. -/
theorem keepsTo_change {rest : call.Value → Proc α} (hchanged : call.changed ≠ [])
    (hchange : c.change = some call) (hrest : ∀ v, OnlyReads (rest v)) (hl : l.changes = []) :
    KeepsTo c.Allows (fun _ => c.Done) (smb call >>= rest) l := by
  have hnote (a : Except Exn call.Value) : (l.note (.smb call) a).changes = [(call, a.isOk)] := by
    rw [Account.changes_note_smb hchanged, hl]
    rfl
  refine Prog.Stays.mono_inv (I := Account.AtMost call)
    (fun _ => ProviderCall.allows_of_atMost hchange) ?_
  refine Prog.Stays.bind (.inl hl) (keepsTo_smb fun a => .inr ⟨_, hnote a⟩) fun v m hm heq => ?_
  subst heq
  refine (keepsTo_of_onlyReads lasts_atMost (hrest v) hm).mono fun _ l' hl' _ => ?_
  exact ⟨call, hchange, hl'.1.trans (hnote (.ok v))⟩

theorem KeepsTo.rethrowing {p : Proc α} {P : α → Account → Prop} (hl : I l)
    (h : KeepsTo I P p l) : KeepsTo I P (rethrowing p) l :=
  Prog.Stays.catching hl h fun _ _ _ => trivial

theorem onlyReads_updateCache : OnlyReads (updateCache u v) := by
  refine Prog.every_bind onlyReads_get fun found => ?_
  cases found.item with
  | none => exact trivial
  | some r =>
    refine Prog.every_bind ?_ fun _ => Prog.every_bind onlyReads_remove fun _ => onlyReads_put
    exact Prog.every_bind onlyReads_memory fun _ => onlyReads_memory

theorem keepsTo_createOnServer {isDir : Bool} {rest : Unit → Proc α}
    (hchange : c.change = some (if isDir then .mkdir u else .createFile u))
    (hrest : ∀ v, OnlyReads (rest v)) (hl : l.changes = []) :
    KeepsTo c.Allows (fun _ => c.Done) (createOnServer isDir u >>= rest) l := by
  cases isDir with
  | true =>
    have hchanged : (SmbCall.mkdir u).changed ≠ [] := List.cons_ne_nil _ _
    exact keepsTo_change hchanged hchange hrest hl
  | false =>
    have hchanged : (SmbCall.createFile u).changed ≠ [] := List.cons_ne_nil _ _
    exact keepsTo_change hchanged hchange hrest hl

theorem keepsTo_createDocument {isDir : Bool} {displayName : String}
    (hc : c = .operation (.createDocument u isDir displayName)) (hl : l.changes = []) :
    KeepsTo c.Allows (fun _ => c.Done) (createDocument u isDir displayName) l := by
  refine KeepsTo.rethrowing (ProviderCall.allows_of_changes hl) ?_
  dsimp only
  rcases hchild : u.buildChildUri (createdEntry isDir displayName) with _ | uri
  · exact trivial
  have hchange : c.change = some (if isDir then .mkdir uri else .createFile uri) := by
    rw [hc, ProviderCall.change, hchild]
    rfl
  refine keepsTo_createOnServer hchange (fun _ => ?_) hl
  refine Prog.every_bind (onlyReads_perform rfl) fun _ => ?_
  refine Prog.every_bind onlyReads_get fun found => ?_
  cases found.item with
  | some r =>
    exact Prog.every_bind (Prog.every_bind onlyReads_memory fun _ => onlyReads_memory)
      fun _ => trivial
  | none =>
    exact Prog.every_bind onlyReads_make fun _ => Prog.every_bind onlyReads_memory fun _ =>
      Prog.every_bind onlyReads_put fun _ => trivial

theorem keepsTo_renameDocument {displayName : String}
    (hc : c = .operation (.renameDocument u displayName)) (hl : l.changes = []) :
    KeepsTo c.Allows (fun _ => c.Done) (renameDocument u displayName) l := by
  refine KeepsTo.rethrowing (ProviderCall.allows_of_changes hl) ?_
  change KeepsTo _ _ (if u.buildParentUri.getPathSegments.isEmpty then _ else _) l
  split
  · exact trivial
  rename_i hparent
  rcases hchild : u.buildParentUri.buildNamedChildUri (some displayName) with _ | newUri
  · exact trivial
  have hchange : c.change = some (.rename u newUri) := by
    rw [hc, ProviderCall.change, renameTarget, if_neg hparent, hchild]
    rfl
  refine keepsTo_change (List.cons_ne_nil _ _) hchange (fun _ => ?_) hl
  exact Prog.every_bind (onlyReads_perform rfl) fun _ => Prog.every_bind (onlyReads_perform rfl)
    fun _ => Prog.every_bind onlyReads_updateCache fun _ => trivial

theorem keepsTo_moveDocument {targetParentUri : Uri}
    (hc : c = .operation (.moveDocument u targetParentUri)) (hl : l.changes = []) :
    KeepsTo c.Allows (fun _ => c.Done) (moveDocument u targetParentUri) l := by
  refine KeepsTo.rethrowing (ProviderCall.allows_of_changes hl) ?_
  split
  · exact trivial
  rename_i hservice
  split
  · exact trivial
  rename_i hshares
  rcases hchild : targetParentUri.buildNamedChildUri u.getLastPathSegment with _ | targetUri
  · exact trivial
  have hchange : c.change = some (.rename u targetUri) := by
    rw [hc, ProviderCall.change, moveTarget, if_neg hservice, if_neg hshares, hchild]
    rfl
  refine keepsTo_change (List.cons_ne_nil _ _) hchange (fun _ => ?_) hl
  refine Prog.every_bind (onlyReads_perform rfl) fun _ =>
    Prog.every_bind (onlyReads_perform rfl) fun _ => ?_
  exact Prog.every_bind (onlyReads_perform rfl) fun _ =>
    Prog.every_bind onlyReads_updateCache fun _ => trivial

/-! ## Deletions -/

theorem filter_openPath {ps : List String} :
    (Uri.openPath ps).filter (· ≠ "") = ps.filter (· ≠ "") := by
  unfold Uri.openPath
  split
  · rename_i hlast
    obtain ⟨front, rfl⟩ := List.getLast?_eq_some_iff.mp hlast
    rw [List.dropLast_concat, List.filter_append]
    simp
  · rfl

/-- A name appended leads down, or nowhere when it is empty. -/
theorem atOrUnder_appendPath {name : String} : AtOrUnder u.place (u.appendPath name).place := by
  refine ⟨rfl, ?_⟩
  change u.getPathSegments <+: (u.appendPath name).getPathSegments
  unfold Uri.getPathSegments Uri.appendPath
  rw [Uri.appendPiece_eq, List.filter_append, filter_openPath, List.map_append]
  exact List.prefix_append _ _

/-- Where an entry leads: to a server, or down by a name. -/
theorem cases_buildChildUri (h : u.buildChildUri entry = some v) :
    ((entry.type = .workgroup ∨ entry.type = .server) ∧ v.getAuthority = entry.name) ∨
      ∃ name, v = u.appendPath name := by
  have hnamed (h : u.buildNamedChildUri entry.name = some v) : ∃ name, v = u.appendPath name := by
    unfold Uri.buildNamedChildUri at h
    split at h
    · cases h
    · exact ⟨_, (Option.some.inj h).symm⟩
  unfold Uri.buildChildUri at h
  cases htype : entry.type with
  | workgroup | server =>
    rw [htype] at h
    obtain rfl := Option.some.inj h
    exact .inl ⟨by simp, Uri.getAuthority_withAuthority⟩
  | fileShare | dir | file =>
    rw [htype] at h
    exact .inr (hnamed h)
  | link | commsShare | ipcShare | printerShare | other code =>
    rw [htype] at h
    cases h

/-- What is at or below something found is found. -/
theorem Account.Finds.trans (h : l.Finds d p) (hbelow : AtOrUnder p q) : l.Finds d q := by
  rcases h with h | ⟨host, hhost, htype, hname⟩
  · exact .inl (h.trans hbelow)
  · exact .inr ⟨host, hhost, htype, hbelow.1.trans hname⟩

/-- **What is listed in a document that was found is found.** -/
theorem Account.Finds.buildChildUri (h : l.Finds d u.place) (hentry : entry ∈ l.listed)
    (hchild : u.buildChildUri entry = some v) : l.Finds d v.place := by
  rcases cases_buildChildUri hchild with ⟨htype, hname⟩ | ⟨name, rfl⟩
  · exact .inr ⟨entry, hentry, htype, hname⟩
  · exact h.trans atOrUnder_appendPath

/-- What the deletion of a document allows. -/
abbrev DeletionAllows (uri : Uri) : Account → Prop :=
  (ProviderCall.operation (.deleteDocument uri)).Allows

theorem lasts_deletionAllows {uri : Uri} : Lasts (DeletionAllows uri) := by
  intro l l' hchanges hlisted h x hx
  rw [hchanges] at hx
  obtain ⟨hne, v, hcall, hfinds⟩ := h x hx
  exact ⟨hne, v, hcall, hfinds.mono hlisted⟩

theorem keepsTo_reading {uri : Uri} {p : Proc α} (h : OnlyReads p) (hl : DeletionAllows uri l) :
    KeepsTo (DeletionAllows uri) (fun _ _ => True) p l :=
  (keepsTo_of_onlyReads lasts_deletionAllows h hl).mono fun _ _ _ => trivial

/-- What a deletion does with a document that is gone. -/
theorem onlyReads_forget : OnlyReads (do
    DocumentCache.remove u
    revokeDocumentPermission u) :=
  Prog.every_bind onlyReads_remove fun _ => onlyReads_perform rfl

/-- A removal of what is found. -/
theorem keepsTo_removal {uri : Uri} (hne : uri.getPathSegments ≠ [])
    (hcall : call = .unlink v ∨ call = .rmdir v) (hfinds : l.Finds uri.place v.place)
    (hl : DeletionAllows uri l) :
    KeepsTo (DeletionAllows uri) (fun _ _ => True) (smb call) l := by
  have hchanged : call.changed ≠ [] := by
    rcases hcall with rfl | rfl <;> exact List.cons_ne_nil _ _
  refine (keepsTo_smb fun a x hx => ?_).mono fun _ _ _ => trivial
  rw [Account.changes_note_smb hchanged] at hx
  rcases List.mem_append.mp hx with hx | hx
  · obtain ⟨_, w, hw, hfound⟩ := hl x hx
    exact ⟨hne, w, hw, hfound.mono (Account.listed_note (e := .smb call) a)⟩
  · obtain rfl := List.mem_singleton.mp hx
    exact ⟨hne, v, hcall, hfinds.mono (Account.listed_note (e := .smb call) a)⟩

theorem keepsTo_deleteFile {uri : Uri} (hne : uri.getPathSegments ≠ [])
    (hfinds : l.Finds uri.place v.place) (hl : DeletionAllows uri l) :
    KeepsTo (DeletionAllows uri) (fun _ _ => True) (deleteFile v) l := by
  refine Prog.Stays.bind hl (keepsTo_removal hne (.inl rfl) hfinds hl) fun _ m hm _ => ?_
  exact keepsTo_reading onlyReads_forget hm

/-- Every document that a listing leads to is found. -/
theorem keepsTo_readChildren {uri : Uri} {dir : SmbDir}
    {children : AList fun _ : Uri => DirectoryEntry} (hfinds : l.Finds uri.place v.place)
    (hchildren : ∀ k ∈ children.keys, l.Finds uri.place k.place) (hl : DeletionAllows uri l) :
    KeepsTo (DeletionAllows uri)
      (fun children m => ∀ k ∈ children.keys, m.Finds uri.place k.place)
      (readChildren (return v) (fun _ entry => return entry) dir n children) l := by
  induction n generalizing children l with
  | zero => exact trivial
  | succ n ih =>
    have hread (a : Except Exn (Option DirectoryEntry)) :
        DeletionAllows uri (l.note (.smb (.readDir dir)) a) :=
      lasts_deletionAllows l _ (Account.changes_note (e := .smb (.readDir dir)) rfl a)
        (Account.listed_note (e := .smb (.readDir dir)) a) hl
    refine Prog.Stays.bind hl (keepsTo_smb hread) fun answer m hm heq => ?_
    have hlisted : l.listed ⊆ m.listed := heq ▸ Account.listed_note (e := .smb (.readDir dir)) _
    cases answer with
    | none => exact fun k hk => (hchildren k hk).mono hlisted
    | some entry =>
      have hentry : entry ∈ m.listed := by
        rw [heq]
        exact List.mem_append_right _ (List.mem_singleton_self entry)
      have hm_children (k : Uri) (hk : k ∈ children.keys) : m.Finds uri.place k.place :=
        (hchildren k hk).mono hlisted
      refine Prog.Stays.bind (p := Pure.pure v) (P := fun k t => k = v ∧ t = m) hm ⟨rfl, rfl⟩ ?_
      rintro parentUri m - ⟨rfl, rfl⟩
      cases hchild : parentUri.buildChildUri entry with
      | none => exact ih (hfinds.mono hlisted) hm_children hm
      | some k =>
        refine ih (hfinds.mono hlisted) (fun k' hk' => ?_) hm
        rcases List.mem_cons.mp (AList.keys_insert children ▸ hk') with rfl | hk'
        · exact (hfinds.mono hlisted).buildChildUri hentry hchild
        · exact hm_children k' (List.mem_of_mem_erase hk')

theorem keepsTo_loadLocalChildren {uri : Uri} (hfinds : l.Finds uri.place v.place)
    (hl : DeletionAllows uri l) :
    KeepsTo (DeletionAllows uri)
      (fun children m => ∀ k ∈ children.keys, m.Finds uri.place k.place)
      (loadLocalChildren n v) l := by
  refine Prog.Stays.bind hl (keepsTo_of_onlyReads lasts_deletionAllows (onlyReads_smb rfl) hl)
    fun dir m hm hmore => ?_
  refine Prog.Stays.withResource hm ?_ fun t ht => ?_
  · exact keepsTo_readChildren (hfinds.mono hmore.2) (by simp) hm
  · refine (keepsTo_of_onlyReads lasts_deletionAllows (onlyReads_smb rfl) ht).mono ?_
    exact fun _ t' hmore children hchildren k hk => (hchildren k hk).mono hmore.2

/-- **A folder that was found**, with what its listings lead to. -/
theorem keepsTo_recursiveDeleteFolder {uri : Uri} (hne : uri.getPathSegments ≠ [])
    (hfinds : l.Finds uri.place v.place) (hl : DeletionAllows uri l) :
    KeepsTo (DeletionAllows uri) (fun _ _ => True) (recursiveDeleteFolder n v) l := by
  induction n generalizing v l with
  | zero => exact trivial
  | succ n ih =>
    refine Prog.Stays.bind hl (keepsTo_loadLocalChildren hfinds hl).and_listed
      fun children m hm ⟨hchildren, hlisted⟩ => ?_
    have hloop : KeepsTo (DeletionAllows uri) (fun _ _ => True)
        (forValues children fun childUri entry => do
          if ← isDirectory entry then recursiveDeleteFolder n childUri
          else deleteFile childUri) m := by
      refine Prog.Stays.bind hm (keepsTo_of_onlyReads lasts_deletionAllows
        (onlyReads_perform rfl) hm) fun order m' hm' hmore => ?_
      -- the listings of one turn do not take away what the folder has listed
      refine (Prog.Stays.forM (J := fun t => m.listed ⊆ t.listed) hm' hmore.2
        fun k hk t ht hsub => ?_).mono fun _ _ _ => trivial
      have hfound : t.Finds uri.place k.place :=
        (hchildren k (order.2.mem_iff.mp hk)).mono hsub
      have hturn (entry : DirectoryEntry) : KeepsTo (DeletionAllows uri) (fun _ _ => True) (do
          if ← isDirectory entry then recursiveDeleteFolder n k else deleteFile k) t := by
        refine Prog.Stays.bind ht (keepsTo_of_onlyReads lasts_deletionAllows
          onlyReads_isDirectory ht) fun isDir t' ht' hmore => ?_
        split
        · exact ih (hfound.mono hmore.2) ht'
        · exact keepsTo_deleteFile hne (hfound.mono hmore.2) ht'
      unfold visit
      split
      · exact ((hturn _).and_listed).mono fun _ _ h => List.Subset.trans hsub h.2
      · exact hsub
    refine Prog.Stays.bind hm hloop.and_listed fun _ m' hm' hmore => ?_
    have hfound : m'.Finds uri.place v.place :=
      hfinds.mono (List.Subset.trans hlisted hmore.2)
    refine Prog.Stays.bind hm' (keepsTo_removal hne (.inr rfl) hfound hm') fun _ t ht _ => ?_
    exact keepsTo_reading onlyReads_forget ht

/-- What is described is the document, which is no server. -/
theorem keepsTo_fromUri (hI : Lasts I) (hl : I l) :
    KeepsTo I (fun metadata _ => metadata.uri = u ∧ u.getPathSegments ≠ []) (fromUri u) l := by
  unfold fromUri
  split
  · exact trivial
  rename_i hsegments
  have hne : u.getPathSegments ≠ [] := by simpa using hsegments
  refine Prog.Stays.bind hl (keepsTo_of_onlyReads hI (onlyReads_smb rfl) hl)
    fun stat m hm _ => ?_
  rintro now t hnote
  obtain rfl : t = m := hnote
  exact ⟨hm, rfl, hne⟩

theorem keepsTo_deleteDocument (hl : l.changes = []) :
    KeepsTo (DeletionAllows u) (fun _ _ => True) (deleteDocument n u) l := by
  have hstart : DeletionAllows u l := ProviderCall.allows_of_changes hl
  refine Prog.Stays.catching hstart ?_ fun x t ht => ?_
  · refine Prog.Stays.bind hstart (keepsTo_fromUri lasts_deletionAllows hstart)
      fun metadata m hm ⟨huri, hne⟩ => ?_
    have htree : KeepsTo (DeletionAllows u) (fun _ _ => True) (deleteTree n metadata) m := by
      refine Prog.Stays.bind hm (keepsTo_of_onlyReads lasts_deletionAllows
        onlyReads_isDirectory hm) fun isDir t ht _ => ?_
      rw [huri]
      split
      · exact keepsTo_recursiveDeleteFolder hne (.inl .refl) ht
      · exact keepsTo_deleteFile hne (.inl .refl) ht
    have hnotify : OnlyReads (notifyChange u.buildParentUri) := onlyReads_perform rfl
    refine Prog.Stays.bind hm htree fun _ t ht _ => ?_
    exact keepsTo_reading hnotify ht
  · split
    · have hforget : OnlyReads (do
          DocumentCache.remove u
          notifyChange u.buildParentUri) :=
        Prog.every_bind onlyReads_remove fun _ => onlyReads_perform rfl
      exact keepsTo_reading hforget ht
    · exact trivial

/-! ## All calls at once -/

theorem keepsTo_of_mustChange {p : Proc α} (h : OnlyReads p) (hc : c.mustChange = false)
    (hl : l.changes = []) : KeepsTo c.Allows (fun _ => c.Done) p l := by
  have hlasts : Lasts fun l => l.changes = [] := fun _ _ hchanges _ hl => hchanges.trans hl
  refine ((keepsTo_of_onlyReads hlasts h hl).mono_inv
    fun _ => ProviderCall.allows_of_changes).mono fun _ _ _ hmust => ?_
  rw [hc] at hmust
  cases hmust

/-- The result of a call is dropped. -/
theorem KeepsTo.discard {p : Proc α} {P : Account → Prop} (hl : I l)
    (h : KeepsTo I (fun _ => P) p l) :
    KeepsTo I (fun _ => P) (p >>= fun _ => (Pure.pure () : Proc Unit)) l :=
  Prog.Stays.bind hl h fun _ _ _ hP => hP

/-- **Every call keeps to its arguments**, whatever it is answered. -/
theorem ProviderCall.keepsTo (c : ProviderCall) :
    KeepsTo c.Allows (fun _ => c.Done) (c.body n) {} := by
  have hfresh : c.Allows {} := allows_of_changes rfl
  cases c with
  | operation o =>
    cases o with
    | createDocument parentUri isDir displayName =>
      exact (keepsTo_createDocument rfl rfl).discard hfresh
    | renameDocument uri displayName => exact (keepsTo_renameDocument rfl rfl).discard hfresh
    | moveDocument uri targetParentUri => exact (keepsTo_moveDocument rfl rfl).discard hfresh
    | deleteDocument uri => exact (keepsTo_deleteDocument rfl).mono fun _ _ _ => nofun
    | queryDocument uri projection =>
      exact (keepsTo_of_mustChange onlyReads_queryDocument rfl rfl).discard hfresh
    | loadDocument cancelled uri => exact keepsTo_of_mustChange onlyReads_loadDocumentTask rfl rfl
    | loadChildren cancelled r => exact keepsTo_of_mustChange onlyReads_loadChildrenTask rfl rfl
    | mountServer cancelled host share => exact keepsTo_of_mustChange onlyReads_mountServer rfl rfl
  | queryRoots debug objects =>
    have hroots : OnlyReads (SambaDocumentsProvider.queryRoots debug objects) := by
      have hiterator : OnlyReads (perform (.shares .iterator)) := onlyReads_perform rfl
      exact Prog.every_bind hiterator fun _ => onlyReads_rootRows
    exact (keepsTo_of_mustChange hroots rfl rfl).discard hfresh
  | queryChildDocuments uri projection =>
    exact (keepsTo_of_mustChange onlyReads_queryChildDocuments rfl rfl).discard hfresh
  | loadStat cancelled docs notifyUri => exact keepsTo_of_mustChange onlyReads_loadStatTask rfl rfl
  | unmount uri =>
    have hunmount : OnlyReads (perform (.shares (.unmountServer uri))) := onlyReads_perform rfl
    exact (keepsTo_of_mustChange hunmount rfl rfl).discard hfresh

/-- The calls of the provider and its tasks, with the fuel of each, and all
that they have in common. -/
abbrev Calls (σ : Type) := Crowd Effect Effect.Answer Exn Unit (ℕ × ProviderCall) Account σ

/-- One effect of one of the calls, or the start of another call. -/
abbrev Calls.Step {σ : Type} (serve : (e : Effect) → σ → e.Answer → σ → Prop) :
    Calls σ → Crowd.Act (ℕ × ProviderCall) → Calls σ → Prop :=
  Crowd.Step (fun job => job.2.body job.1) {} Account.note serve

variable {σ V : Type} {serve : (e : Effect) → σ → e.Answer → σ → Prop} {cs : Calls σ} {s : σ}

/-- **No call asks for more than its arguments say**, whatever runs beside
it and whatever is answered: it makes no change, or its one change once; a
deletion removes what is at or below its document, or what its listings
have led to. And a call that returns has made its change. -/
theorem allows_of_reached
    (h : Reached (Calls.Step serve) (fun _ _ => True) (Crowd.Init s) cs) :
    ∀ w ∈ cs.workers, w.job.2.Allows w.record ∧ (w.rest = .pure () → w.job.2.Done w.record) := by
  intro w hw
  have hfollows := Crowd.follows_of_reached (I := fun job => job.2.Allows)
    (P := fun job _ => job.2.Done) (fun _ => ProviderCall.allows_of_changes rfl)
    (fun job => job.2.keepsTo) h w hw
  refine ⟨hfollows.1, fun hrest => ?_⟩
  have hstays := hfollows.2
  rw [hrest] at hstays
  exact hstays

/-- The deletion of a folder, with a query of the file in it beside. -/
def deletionBesideQuery : List (Crowd.Act (ℕ × ProviderCall)) :=
  [.start (14, .operation (.deleteDocument (inHomes "a"))),
    .start (0, .operation (.queryDocument ((inHomes "a").appendPath "b") none))] ++
    (List.replicate 10 [Crowd.Act.goOn 1, .goOn 0]).flatten

/-- The schedule on a server that has the folder, where nothing fails. -/
def deletingBesideQuery : Option (Calls (World FileServer)) :=
  deletionBesideQuery.foldlM
    (Crowd.next (fun job => job.2.body job.1) {} Account.note
      (runEffect (FileServer.answer sampleKind fun _ => false)))
    ⟨[], emptyStore, .start sampleTree⟩

theorem exists_deletingBesideQuery : ∃ cs,
    Reached (Calls.Step (FileServer.Answers sampleKind).Step) (fun _ _ => True)
        (Crowd.Init ⟨emptyStore, .start sampleTree⟩) cs ∧
      cs.workers.map (fun w => w.record.changes.length) = [1, 0] ∧
      cs.state.server.docs = [(inHomes "a").buildParentUri.place, (inHomes "a").place] := by
  have hseen : deletingBesideQuery.map (fun cs =>
      (cs.workers.map fun w => w.record.changes.length, cs.state.server.docs)) =
      some ([1, 0], [(inHomes "a").buildParentUri.place, (inHomes "a").place]) := by decide
  obtain ⟨cs, hrun, heq⟩ := Option.map_eq_some_iff.mp hseen
  obtain ⟨hchanges, hdocs⟩ := Prod.mk.inj heq
  exact ⟨cs, Crowd.reached_of_foldlM (step_runEffect answers_answer_files) hrun, hchanges, hdocs⟩

/-- The file in the folder has just been removed. -/
theorem allows_deletingBesideQuery : ∃ cs : Calls (World FileServer),
    cs.workers.map (fun w => w.record.changes.length) = [1, 0] ∧
      ∀ w ∈ cs.workers, w.job.2.Allows w.record ∧ (w.rest = .pure () → w.job.2.Done w.record) := by
  obtain ⟨cs, hreached, hchanges, -⟩ := exists_deletingBesideQuery
  exact ⟨cs, hchanges, allows_of_reached hreached⟩

/-- An effect changes the documents it asks to change and what is below
them, and no other; `content` is what can be seen of a document. -/
def Local (serve : (e : Effect) → σ → e.Answer → σ → Prop) (content : σ → Place → V) : Prop :=
  ∀ e s a t, serve e s a t → ∀ q, (∀ u ∈ e.changed, ¬ AtOrUnder u.place q) →
    content t q = content s q

theorem ProviderCall.Covers.note (a : e.Answer) (h : c.Covers l q) : c.Covers (l.note e a) q := by
  unfold ProviderCall.Covers at h ⊢
  split at h
  · exact h.mono (Account.listed_note a)
  · exact h

/-- What is at or below a document of a change is what the call was asked
to change. -/
theorem ProviderCall.Allows.covers {x : SmbCall × Bool} (h : c.Allows l) (hx : x ∈ l.changes)
    (hu : u ∈ x.1.changed) (hbelow : AtOrUnder u.place q) : c.Covers l q := by
  unfold ProviderCall.Allows at h
  unfold ProviderCall.Covers
  split at h
  · obtain ⟨_, v, hcall, hfinds⟩ := h x hx
    obtain rfl : u = v := by
      rcases hcall with hcall | hcall
      all_goals
        rw [hcall] at hu
        exact List.mem_singleton.mp hu
    exact hfinds.trans hbelow
  · rcases h with hnil | ⟨call, accepted, hchange, heq⟩
    · rw [hnil] at hx
      cases hx
    · rw [heq] at hx
      obtain rfl := List.mem_singleton.mp hx
      split
      · cases hchange
      · exact ⟨call, hchange, u, hu, hbelow⟩

/-- **What has changed, a call was asked to change.** -/
theorem exists_covers_of_changed {content : σ → Place → V} (hlocal : Local serve content)
    (h : Reached (Calls.Step serve) (fun _ _ => True) (Crowd.Init s) cs)
    (hq : content cs.state q ≠ content s q) :
    ∃ w ∈ cs.workers, w.job.2.Covers w.record q := by
  refine (Crowd.exists_of_reached (I := fun job => job.2.Allows) (P := fun job _ => job.2.Done)
    (K := fun t => content t q = content s q) (C := fun job l => job.2.Covers l q)
    (fun _ => ProviderCall.allows_of_changes rfl) (fun job => job.2.keepsTo)
    (fun _ _ _ a hcovers => hcovers.note a)
    (fun job e l a t t' hallows hnot hserve hsame => ?_) rfl h).resolve_left hq
  refine (hlocal e t a t' hserve q fun u hu hbelow => hnot ?_).trans hsame
  cases e with
  | smb call =>
    have hnote := Account.changes_note_smb (l := l) (List.ne_nil_of_mem hu) a
    have hmem : (call, a.isOk) ∈ (l.note (.smb call) a).changes := by
      rw [hnote]
      exact List.mem_append_right _ (List.mem_singleton_self _)
    exact hallows.covers hmem hu hbelow
  | _ => cases hu

/-- A server whose documents nobody else changes. -/
theorem local_answers {kind : Place → EntryType} :
    Local (FileServer.Answers kind).Step fun w q => decide (q ∈ w.server.docs) := by
  intro e w a w' hstep q hq
  suffices h : q ∈ w'.server.docs ↔ q ∈ w.server.docs by simp only [h]
  cases e with
  | smb call =>
    obtain ⟨hanswer, -⟩ := hstep
    cases a with
    | error x =>
      rw [show w'.server = _ from hanswer]
      rfl
    | ok v =>
      obtain ⟨-, hreturns⟩ := hanswer
      have herase {u : Uri} (hu : u ∈ call.changed) (hserver : w'.server = w.server.erase u) :
          q ∈ w'.server.docs ↔ q ∈ w.server.docs := by
        have hne : q ≠ u.place := fun heq => hq u hu (heq ▸ .refl)
        rw [hserver]
        simp [FileServer.erase, hne]
      cases call with
      | unlink u => exact herase List.mem_cons_self hreturns
      | rmdir u => exact herase List.mem_cons_self hreturns
      | openDir u =>
        obtain ⟨L, -, -, hserver⟩ := hreturns
        rw [hserver]
      | stat u | readDir dir =>
        obtain ⟨-, hserver⟩ := hreturns
        rw [hserver]
      | closeDir dir => rw [show w'.server = w.server from hreturns]
      | createFile u | mkdir u | rename u newUri => exact hreturns.elim
  | memory m =>
    obtain ⟨-, rfl⟩ := hstep
    rfl
  | _ =>
    obtain rfl : w' = w := hstep
    rfl

theorem covers_deletingBesideQuery : ∃ cs : Calls (World FileServer),
    ((inHomes "a").appendPath "b").place ∉ cs.state.server.docs ∧
      ∃ w ∈ cs.workers, w.job.2.Covers w.record ((inHomes "a").appendPath "b").place := by
  obtain ⟨cs, hreached, -, hdocs⟩ := exists_deletingBesideQuery
  have hgone : ((inHomes "a").appendPath "b").place ∉ cs.state.server.docs := by
    rw [hdocs]
    decide
  refine ⟨cs, hgone, exists_covers_of_changed local_answers hreached ?_⟩
  rw [decide_eq_false hgone]
  decide

end SambaProvider

import Mathlib.Data.List.AList
import Mathlib.Logic.Function.Basic
import SambaProvider.Base.Exn
import SambaProvider.Document.Uri
import SambaProvider.Lib.Prog

/-!
# Document metadata

`DocumentMetadata.java` and what its methods touch. The metadata objects
live in a heap, since the cache and the children maps of the directories
share them and a rename changes an object in place; a children map is
named by the metadata it was loaded for and a number, so that a reload
that replaces it can be told from a change to it.

The methods are programs over the effects of this module: the calls to
the server and the rest of the system, whose answers are left open, and
the single reads and writes of memory, whose answers the `Store` fixes.
-/

namespace SambaProvider

open Lib

/-! ## Objects -/

/-- The fields of `StructStat` the application reads. -/
structure StructStat where
  st_mode : ℕ
  st_size : ℤ
  st_mtime : ℤ
deriving DecidableEq, Repr

/-- `OsConstants.S_ISDIR(stat.st_mode)`. -/
def StructStat.isDir (s : StructStat) : Bool := s.st_mode &&& 0o170000 == 0o040000

/-- A metadata object. -/
abbrev Ref := ℕ

/-- A children map of a metadata object. -/
abbrev MapId := ℕ

/-- The content of a children map. -/
abbrev ChildMap := AList fun _ : Uri => Ref

/-- The fields of a metadata object; `children` is the map it has loaded
last. -/
structure DocumentMetadata where
  uri : Uri
  entry : DirectoryEntry
  stat : Option StructStat
  children : Option MapId
  lastChildUpdateException : Option Exn
  lastStatException : Option Exn
  timeStamp : ℤ
deriving DecidableEq, Repr

/-- A field and the value it is set to. -/
inductive FieldValue
  | uri (u : Uri)
  | name (n : Option String)
  | stat (s : Option StructStat)
  | noChildren
  | lastChildUpdateException (x : Option Exn)
  | lastStatException (x : Option Exn)
  | timeStamp (t : ℤ)

/-- A metadata object with one field set. -/
def FieldValue.set (v : FieldValue) (m : DocumentMetadata) : DocumentMetadata :=
  match v with
  | .uri u => { m with uri := u }
  | .name n => { m with entry := { m.entry with name := n } }
  | .stat s => { m with stat := s }
  | .noChildren => { m with children := none }
  | .lastChildUpdateException x => { m with lastChildUpdateException := x }
  | .lastStatException x => { m with lastStatException := x }
  | .timeStamp t => { m with timeStamp := t }

/-! ## Memory -/

/-- The memory of the provider: the heap of metadata objects and their
children maps, with what was allocated last, and the two maps of
`DocumentCache`. -/
structure Store where
  metadata : Ref → DocumentMetadata
  maps : Ref → MapId → ChildMap
  nextRef : Ref
  nextMap : MapId
  cache : Uri → Option Ref
  exceptions : Uri → Option Exn

/-- One read or write of memory. -/
inductive Memory
  /-- A constructor call of `DocumentMetadata`. -/
  | new (m : DocumentMetadata)
  | read (r : Ref)
  | write (r : Ref) (v : FieldValue)
  /-- `mChildren.set` of a map that was filled before. -/
  | setChildren (r : Ref) (children : ChildMap)
  /-- The entries of a children map. -/
  | entries (r : Ref) (g : MapId)
  | mapPut (r : Ref) (g : MapId) (key : Uri) (child : Ref)
  | mapRemove (r : Ref) (g : MapId) (key : Uri)
  /-- `mCache.get`, and the two ways of changing `mCache`. -/
  | cacheGet (key : Uri)
  | cachePut (key : Uri) (r : Ref)
  | cacheRemove (key : Uri)
  | exceptionGet (key : Uri)
  | exceptionPut (key : Uri) (x : Exn)
  | exceptionRemove (key : Uri)

/-- What a read or write answers. -/
@[reducible] def Memory.Answer : Memory → Type
  | .new _ => Ref
  | .read _ => DocumentMetadata
  | .entries _ _ => ChildMap
  | .cacheGet _ => Option Ref
  | .exceptionGet _ => Option Exn
  | .write _ _ | .setChildren _ _ | .mapPut _ _ _ _ | .mapRemove _ _ _ | .cachePut _ _
  | .cacheRemove _ | .exceptionPut _ _ | .exceptionRemove _ => Unit

namespace Store

/-- The store with one metadata object changed. -/
def setMetadata (s : Store) (r : Ref) (m : DocumentMetadata) : Store :=
  { s with metadata := Function.update s.metadata r m }

/-- The store with one children map changed. -/
def setMap (s : Store) (r : Ref) (g : MapId) (children : ChildMap) : Store :=
  { s with maps := Function.update s.maps r (Function.update (s.maps r) g children) }

/-- One read or write of memory. -/
def exec : (m : Memory) → Store → m.Answer × Store
  | .new m, s => (s.nextRef, { s.setMetadata s.nextRef m with nextRef := s.nextRef + 1 })
  | .read r, s => (s.metadata r, s)
  | .write r v, s => ((), s.setMetadata r (v.set (s.metadata r)))
  | .setChildren r children, s =>
    ((), { (s.setMap r s.nextMap children).setMetadata r
      { s.metadata r with children := some s.nextMap } with nextMap := s.nextMap + 1 })
  | .entries r g, s => (s.maps r g, s)
  | .mapPut r g key child, s => ((), s.setMap r g ((s.maps r g).insert key child))
  | .mapRemove r g key, s => ((), s.setMap r g ((s.maps r g).erase key))
  | .cacheGet key, s => (s.cache key, s)
  | .cachePut key r, s => ((), { s with cache := Function.update s.cache key (some r) })
  | .cacheRemove key, s => ((), { s with cache := Function.update s.cache key none })
  | .exceptionGet key, s => (s.exceptions key, s)
  | .exceptionPut key x, s =>
    ((), { s with exceptions := Function.update s.exceptions key (some x) })
  | .exceptionRemove key, s =>
    ((), { s with exceptions := Function.update s.exceptions key none })

/-- An application that has just started. -/
def initial (default : DocumentMetadata) : Store where
  metadata _ := default
  maps _ _ := ∅
  nextRef := 0
  nextMap := 0
  cache _ := none
  exceptions _ := none

end Store

/-! ## Effects -/

/-- An open directory. -/
abbrev SmbDir := ℕ

/-- The calls of `SmbClient` and `SmbDir`. -/
inductive SmbCall
  | stat (u : Uri)
  | openDir (u : Uri)
  | readDir (dir : SmbDir)
  | closeDir (dir : SmbDir)
  | createFile (u : Uri)
  | mkdir (u : Uri)
  | rename (u newUri : Uri)
  | unlink (u : Uri)
  | rmdir (u : Uri)
deriving DecidableEq, Repr

/-- What a call returns when it does not throw. -/
@[reducible] def SmbCall.Value : SmbCall → Type
  | .stat _ => StructStat
  | .openDir _ => SmbDir
  | .readDir _ => Option DirectoryEntry
  | .closeDir _ | .createFile _ | .mkdir _ | .rename _ _ | .unlink _ | .rmdir _ => Unit

/-- What the provider asks of `ShareManager`. A mount is in two parts,
before and after its checker. -/
inductive ShareCall
  /-- The URIs of the saved shares. -/
  | iterator
  | containsShare (u : Uri)
  | isShareMounted (u : Uri)
  | beginMount (u : Uri)
  | removeCredential (u : Uri)
  | saveServer (u : Uri)
  | unmountServer (u : Uri)
deriving DecidableEq, Repr

@[reducible] def ShareCall.Answer : ShareCall → Type
  | .iterator => List Uri
  | .containsShare _ | .isShareMounted _ | .unmountServer _ => Bool
  | .removeCredential _ => Unit
  | .beginMount _ | .saveServer _ => Except Exn Unit

/-- The effects of the provider's methods. -/
inductive Effect
  | smb (c : SmbCall)
  | shares (c : ShareCall)
  | currentTimeMillis
  /-- The order in which a hash map with these keys is walked. -/
  | hashOrder (keys : List Uri)
  | notifyChange (u : Uri)
  | revokeDocumentPermission (u : Uri)
  | memory (m : Memory)

@[reducible] def Effect.Answer : Effect → Type
  | .smb c => Except Exn c.Value
  | .shares c => c.Answer
  | .currentTimeMillis => ℤ
  | .hashOrder keys => { order : List Uri // order.Perm keys }
  | .notifyChange _ | .revokeDocumentPermission _ => Unit
  | .memory m => m.Answer

/-- A method of the provider. -/
abbrev Proc (α : Type) := Prog Effect Effect.Answer Exn α

def perform (e : Effect) : Proc e.Answer := .act e .pure

def memory (m : Memory) : Proc m.Answer := perform (.memory m)

/-- A call of the client, which may throw. -/
def smb (c : SmbCall) : Proc c.Value := do Prog.ofExcept (← perform (.smb c))

/-- The loop body for the value of a key. -/
def visit {β : Type} (map : AList fun _ : Uri => β) (body : Uri → β → Proc Unit) (key : Uri) :
    Proc Unit :=
  match map.lookup key with
  | some v => body key v
  | none => pure ()

/-- `for (T v : map.values()) body(v)`, in the order of the hash map. -/
def forValues {β : Type} (map : AList fun _ : Uri => β) (body : Uri → β → Proc Unit) :
    Proc Unit := do
  let order ← perform (.hashOrder map.keys)
  order.1.forM (visit map body)

/-! ## The methods of `DocumentMetadata` -/

/-- A MIME type; the type of a file is what the platform's table has for
its extension. -/
inductive MimeType
  | directory
  | ofExtension (ext : Option String)
deriving DecidableEq, Repr

/-- `getExtension`. -/
def getExtension (name : Option String) : Option String :=
  let reversed := (name.getD "").toList.reverse
  match reversed.dropWhile (· ≠ '.') with
  | _ :: _ :: _ => some (String.ofList (reversed.takeWhile (· ≠ '.')).reverse).toLower
  | _ => none

def unsupportedType (type : EntryType) : Exn :=
  ⟨.unsupportedOperation, "Unsupported type of Samba directory entry " ++ toString (repr type)⟩

def getMimeType (entry : DirectoryEntry) : Except Exn MimeType :=
  match entry.type with
  | .fileShare | .workgroup | .server | .dir => .ok .directory
  | .link | .commsShare | .ipcShare | .printerShare => .error (unsupportedType entry.type)
  | .file => .ok (.ofExtension (getExtension entry.name))
  | .other _ => .error ⟨.illegalState, "Should never reach here."⟩

/-- `Document.MIME_TYPE_DIR.equals(getMimeType())`. -/
def isDirectory (entry : DirectoryEntry) : Proc Bool := do
  let mime ← Prog.ofExcept (getMimeType entry)
  return mime = .directory

def canCreateDocument (entry : DirectoryEntry) : Except Exn Bool :=
  match entry.type with
  | .dir | .fileShare => .ok true
  | .workgroup | .server | .file => .ok false
  | _ => .error (unsupportedType entry.type)

namespace DocumentMetadata

/-- The constructor: the time stamp is the current time. -/
def make (uri : Uri) (entry : DirectoryEntry) : Proc DocumentMetadata := do
  let now ← perform .currentTimeMillis
  return ⟨uri, entry, none, none, none, none, now⟩

/-- `create(Uri, int)`, and so `createShare(Uri)`. -/
def create (uri : Uri) (type : EntryType) : Proc DocumentMetadata :=
  make uri ⟨type, "", uri.getLastPathSegment⟩

def fromUri (uri : Uri) : Proc DocumentMetadata := do
  if uri.getPathSegments.isEmpty then
    .throw ⟨.unsupportedOperation, "Can't load metadata for workgroup or server."⟩
  else
    let stat ← smb (.stat uri)
    let metadata ← make uri
      ⟨if stat.isDir then .dir else .file, "", uri.getLastPathSegment⟩
    return { metadata with stat := some stat }

def getUri (r : Ref) : Proc Uri := do return (← memory (.read r)).uri

def getChildren (r : Ref) : Proc (Option MapId) := do return (← memory (.read r)).children

def reset (r : Ref) : Proc Unit := do
  memory (.write r (.stat none))
  memory (.write r .noChildren)

def rename (r : Ref) (newUri : Uri) : Proc Unit := do
  memory (.write r (.name newUri.getLastPathSegment))
  memory (.write r (.uri newUri))

def putChild (r child : Ref) : Proc Unit := do
  match ← getChildren r with
  | none => return ()
  | some g =>
    let childUri ← getUri child
    memory (.mapPut r g childUri child)

/-- The `readDir` loop of `loadChildren`, for a directory whose URI is
read by `uri` and whose children are made by `child`. -/
def readChildren {β : Type} (uri : Proc Uri) (child : Uri → DirectoryEntry → Proc β)
    (dir : SmbDir) : ℕ → (AList fun _ : Uri => β) → Proc (AList fun _ : Uri => β)
  | 0, _ => .outOfFuel
  | n + 1, children => do
    match ← smb (.readDir dir) with
    | none => return children
    | some entry =>
      match (← uri).buildChildUri entry with
      | none => readChildren uri child dir n children
      | some childUri =>
        let v ← child childUri entry
        readChildren uri child dir n (children.insert childUri v)

/-- A new child of a metadata object. -/
def newChild (childUri : Uri) (entry : DirectoryEntry) : Proc Ref := do
  let metadata ← make childUri entry
  memory (.new metadata)

/-- `loadChildren`. -/
def loadChildren (fuel : ℕ) (r : Ref) : Proc Unit :=
  Prog.catching
    (do
      let dir ← smb (.openDir (← getUri r))
      Prog.withResource (smb (.closeDir dir)) do
        let children ← readChildren (getUri r) newChild dir fuel ∅
        memory (.setChildren r children)
        let now ← perform .currentTimeMillis
        memory (.write r (.timeStamp now)))
    (fun _ => true)
    fun x => do
      memory (.write r (.lastChildUpdateException (some x)))
      .throw x

/-- `loadChildren` of a metadata object that nothing else refers to, and
that is given by its URI; a child is the entry at its URI. The exception
the object keeps is read by nobody. -/
def loadLocalChildren (fuel : ℕ) (uri : Uri) : Proc (AList fun _ : Uri => DirectoryEntry) := do
  let dir ← smb (.openDir uri)
  Prog.withResource (smb (.closeDir dir)) do
    readChildren (return uri) (fun _ entry => return entry) dir fuel ∅

end DocumentMetadata

/-! ## The methods of `DocumentCache` -/

namespace DocumentCache

open DocumentMetadata

/-- `put(DocumentMetadata)`. -/
def put (r : Ref) : Proc Unit := do
  let uri ← getUri r
  memory (.cachePut uri r)
  let parentUri := Uri.buildParentUri (← getUri r)
  match ← memory (.cacheGet parentUri) with
  | none => return ()
  | some parent => putChild parent r

def remove (uri : Uri) : Proc Unit := do
  memory (.cacheRemove uri)
  memory (.exceptionRemove uri)
  match ← memory (.cacheGet uri.buildParentUri) with
  | none => return ()
  | some parent =>
    if (← getChildren parent).isSome then
      -- The map is fetched a second time for the removal.
      match ← getChildren parent with
      | none => .throw ⟨.nullPointer, ""⟩
      | some g => memory (.mapRemove parent g uri)
    else return ()

/-- A `CacheResult`: its state, with the item of a result that is no
miss. -/
inductive CacheResult
  | miss
  | hit (item : Ref)
  | expired (item : Ref)
deriving DecidableEq, Repr

/-- `getItem`, `none` exactly where the state is `CACHE_MISS`. -/
def CacheResult.item : CacheResult → Option Ref
  | .miss => none
  | .hit r | .expired r => some r

/-- `CACHE_EXPIRATION`, a minute in milliseconds. -/
def cacheExpiration : ℤ := 60000

/-- `get`. -/
def get (uri : Uri) : Proc CacheResult := do
  match ← memory (.cacheGet uri) with
  | none => return .miss
  | some r =>
    let timeStamp := (← memory (.read r)).timeStamp
    let now ← perform .currentTimeMillis
    return if timeStamp + cacheExpiration < now then .expired r else .hit r

end DocumentCache

end SambaProvider

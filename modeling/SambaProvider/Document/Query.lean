import SambaProvider.Document.Identity
import SambaProvider.Document.Provider

/-!
# Roots and children

The two queries that list: `queryRoots`, which lists the mounted shares,
and `queryChildDocuments`, which lists what the children map holds and
starts the task that loads what is missing. `LoadStatTask`, which loads
the stats of the children, is here too. A query returns the task it has
started with its rows.
-/

namespace SambaProvider

open Lib DocumentMetadata

/-! ## Stats -/

namespace DocumentMetadata

def hasStat (entry : DirectoryEntry) : Except Exn Bool :=
  match entry.type with
  | .file => .ok true
  -- Everything is writable so no need to fetch stats for them.
  | .workgroup | .server | .fileShare | .dir => .ok false
  | _ => .error ⟨.unsupportedOperation,
      "Unsupported type of Samba directory entry: " ++ ToString.toString (repr entry.type)⟩

def needsStat (m : DocumentMetadata) : Except Exn Bool := do
  if ← hasStat m.entry then return m.stat.isNone else return false

/-- `hasLoadingStatFailed`: reading the exception clears it. -/
def hasLoadingStatFailed (r : Ref) : Proc Bool := do
  let x := (← memory (.read r)).lastStatException
  memory (.write r (.lastStatException none))
  return x.isSome

def throwLastChildUpdateExceptionIfAny (r : Ref) : Proc Unit := do
  match (← memory (.read r)).lastChildUpdateException with
  | none => return ()
  | some x =>
    memory (.write r (.lastChildUpdateException none))
    .throw x

def loadStat (r : Ref) : Proc Unit :=
  Prog.catching
    (do
      let stat ← smb (.stat (← getUri r))
      memory (.write r (.stat (some stat)))
      let now ← perform .currentTimeMillis
      memory (.write r (.timeStamp now)))
    (fun _ => true)
    fun x => do
      memory (.write r (.lastStatException (some x)))
      .throw x

end DocumentMetadata

/-- The loop of `doInBackground`. A failure is eaten; a task that is
`cancelled` behind a child whose stat it has loaded returns. -/
def loadStats (cancelled : Uri → Bool) (docs : ChildMap) : List Uri → Proc Unit
  | [] => return ()
  | key :: keys =>
    match docs.lookup key with
    | none => loadStats cancelled docs keys
    | some r => do
      let returns ← Prog.catching (do loadStat r; return cancelled key) (fun _ => true)
        fun _ => return false
      if returns then return () else loadStats cancelled docs keys

/-- `LoadStatTask`, with the callback of `queryChildDocuments`, which is
told however the task ends. -/
def loadStatTask (cancelled : Uri → Bool) (docs : ChildMap) (notifyUri : Uri) : Proc Unit := do
  let order ← perform (.hashOrder docs.keys)
  loadStats cancelled docs order.1
  perform (.notifyChange notifyUri)

/-- `throwLastExceptionIfAny`. -/
def DocumentCache.throwLastExceptionIfAny (uri : Uri) : Proc Unit := do
  match ← memory (.exceptionGet uri) with
  | none => return ()
  | some x =>
    memory (.exceptionRemove uri)
    .throw x

/-! ## Roots -/

def isFileShare (entry : DirectoryEntry) : Bool := entry.type = .fileShare

/-- `toRootId`; `debug` is `BuildConfig.DEBUG`, and `object` what
`Object.toString` gives for the metadata. -/
def toRootId (debug : Bool) (object : String) (metadata : DocumentMetadata) :
    Except Exn String :=
  if debug && !isFileShare metadata.entry then
    .error ⟨.runtimeException, object ++ " is not a file share."⟩
  else .ok metadata.uri.toString

/-- A row of the roots; all have the same flags and icon. -/
structure RootRow where
  rootId : String
  documentId : String
  title : Option String
deriving DecidableEq, Repr

namespace SambaDocumentsProvider

/-- The loop of `queryRoots`, over the saved shares. -/
def rootRows (debug : Bool) (objects : Ref → String) :
    List Uri → List RootRow → Proc (List RootRow)
  | [], rows => return rows
  | uri :: uris, rows => do
    if ← perform (.shares (.isShareMounted uri)) then
      let r ← match (← DocumentCache.get uri).item with
        | none => do
          let metadata ← create uri .fileShare
          let r ← memory (.new metadata)
          DocumentCache.put r
          pure r
        | some r => pure r
      let metadata ← memory (.read r)
      let rootId ← Prog.ofExcept (toRootId debug (objects r) metadata)
      rootRows debug objects uris (rows ++ [⟨rootId, uri.toString, metadata.entry.name⟩])
    else rootRows debug objects uris rows

/-- `queryRoots`, for the default projection. -/
def queryRoots (debug : Bool) (objects : Ref → String) : Proc (List RootRow) := do
  rootRows debug objects (← perform (.shares .iterator)) []

/-! ## Children -/

/-- The tasks `queryChildDocuments` starts. -/
inductive LoadingTask
  | loadDocument (uri : Uri)
  | loadChildren (r : Ref)
  | loadStat (docs : ChildMap)

/-- The cursor of a folder: its rows, `EXTRA_LOADING` and `EXTRA_ERROR` of
its extras, and the task that is loading. -/
structure DocumentCursor where
  rows : List (List Cell)
  loading : Bool
  error : Option String
  task : Option LoadingTask

/-- `isServerUri`. -/
def isServerUri (uri : Uri) : Except Exn Bool :=
  if uri.getPathSegments.isEmpty then
    match uri.getAuthority with
    | none => .error ⟨.nullPointer, ""⟩
    | some authority => .ok (authority ≠ "")
  else .ok false

/-- A child whose stat is to be loaded: one that needs it, unless loading
it has failed. -/
def selectChild (child : Ref) (docs : ChildMap) : Proc ChildMap := do
  let metadata ← memory (.read child)
  if ← Prog.ofExcept (needsStat metadata) then
    if ← hasLoadingStatFailed child then return docs
    else
      let childUri ← getUri child
      return docs.insert childUri child
  else return docs

/-- The loop over the children. -/
def childRows (projection : Option (List Column)) (children : ChildMap) :
    List Uri → ChildMap → List (List Cell) → Proc (ChildMap × List (List Cell))
  | [], docs, rows => return (docs, rows)
  | key :: keys, docs, rows =>
    match children.lookup key with
    | none => childRows projection children keys docs rows
    | some child => do
      let docs ← selectChild child docs
      let row ← documentRow projection child
      childRows projection children keys docs (rows ++ [row])

/-- The children of a folder that is cached. -/
def queryFolder (uri : Uri) (projection : Option (List Column)) (expired : Bool) (r : Ref) :
    Proc DocumentCursor := do
  let metadata ← memory (.read r)
  if ← isDirectory metadata.entry then
    throwLastChildUpdateExceptionIfAny r
    match ← getChildren r with
    | none => return ⟨[], true, none, some (.loadChildren r)⟩
    | some g =>
      -- Still return something even if the cache expired.
      let children ← memory (.entries r g)
      let order ← perform (.hashOrder children.keys)
      let (docs, rows) ← childRows projection children order.1 ∅ []
      if expired then return ⟨rows, true, none, some (.loadChildren r)⟩
      else if docs.keys = [] then return ⟨rows, false, none, none⟩
      else return ⟨rows, true, none, some (.loadStat docs)⟩
  else .throw ⟨.illegalArgument, uri.toString ++ " is not a folder."⟩

/-- A server is cached before it is asked for. -/
def cacheServer (uri : Uri) : Proc Unit := do
  if ← Prog.ofExcept (isServerUri uri) then
    match (← DocumentCache.get uri).item with
    | none =>
      let metadata ← create uri .server
      let r ← memory (.new metadata)
      DocumentCache.put r
    | some _ => return ()
  else return ()

/-- `queryChildDocuments`. An access that is denied is reported in the
extras. -/
def queryChildDocuments (uri : Uri) (projection : Option (List Column)) : Proc DocumentCursor :=
  rethrowing <| Prog.catching
    (do
      cacheServer uri
      match ← DocumentCache.get uri with
      | .miss =>
        -- Last loading failed... Just feed the bitter fruit.
        DocumentCache.throwLastExceptionIfAny uri
        return ⟨[], true, none, some (.loadDocument uri)⟩
      | .hit r => queryFolder uri projection false r
      | .expired r => queryFolder uri projection true r)
    (fun x => x.cls = .authFailed)
    fun _ => return ⟨[], false, some "view_folder_denied", none⟩

end SambaDocumentsProvider

end SambaProvider

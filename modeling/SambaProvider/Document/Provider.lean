import SambaProvider.Document.Metadata

/-!
# The documents provider

The operations of `SambaDocumentsProvider.java` that read or change the
document cache, and the loader tasks that fill it. An operation is called
with the URI of the document id it gets. A task is its background part
and what runs on the UI thread afterwards, with the callback of whoever
has started it; loops and recursion carry a bound.
-/

namespace SambaProvider

open Lib DocumentMetadata

/-! ## Queries -/

/-- The columns of a document, and any other name a projection holds. -/
inductive Column
  | documentId
  | displayName
  | flags
  | mimeType
  | size
  | lastModified
  | icon
  | other (name : String)
deriving DecidableEq, Repr

/-- `DEFAULT_DOCUMENT_PROJECTION`. -/
def defaultDocumentProjection : List Column :=
  [.documentId, .displayName, .flags, .mimeType, .size, .lastModified, .icon]

/-- The drawables of `getIconResourceId`. -/
inductive Icon
  | server
  | folderShared
deriving DecidableEq, Repr

/-- A value of a row. -/
inductive Cell
  | null
  | documentId (u : Uri)
  | text (s : String)
  | number (n : ℤ)
  | mimeType (m : MimeType)
  | icon (i : Icon)
deriving DecidableEq, Repr

/-- `getDocumentValues`, for one column. -/
def getDocumentValue (metadata : DocumentMetadata) : Column → Except Exn Cell
  | .documentId => .ok (.documentId metadata.uri)
  | .displayName => .ok (metadata.entry.name.elim .null .text)
  | .flags => do
    let create ← canCreateDocument metadata.entry
    -- FLAG_DIR_SUPPORTS_CREATE, then write, delete, rename, remove and move.
    return .number ((if create then 8 else 0) + 2 + 4 + 64 + 1024 + 256)
  | .mimeType => do return .mimeType (← getMimeType metadata.entry)
  | .size => .ok (metadata.stat.elim .null fun s => .number s.st_size)
  | .lastModified => .ok (metadata.stat.elim .null fun s => .number (s.st_mtime * 1000))
  | .icon =>
    .ok <| match metadata.entry.type with
      | .server => .icon .server
      | .fileShare => .icon .folderShared
      | _ => .null
  | .other _ => .ok .null

def getDocumentValues (projection : List Column) (metadata : DocumentMetadata) :
    Except Exn (List Cell) :=
  projection.mapM (getDocumentValue metadata)

/-- `new IllegalStateException(e)` of an `IOException`. -/
def illegalState (e : Exn) : Exn := ⟨.illegalState, "java.io.IOException: " ++ e.message⟩

/-- The exception clauses of most operations: a `FileNotFoundException`
goes on, another `IOException` is wrapped. -/
def rethrowing {α : Type} (body : Proc α) : Proc α :=
  body.catching Exn.isIOException fun e =>
    .throw (if e.isFileNotFound then e else illegalState e)

namespace SambaDocumentsProvider

def notifyChange (uri : Uri) : Proc Unit := perform (.notifyChange uri)

def revokeDocumentPermission (uri : Uri) : Proc Unit := perform (.revokeDocumentPermission uri)

/-- The metadata of a document that is not in the cache. -/
def describeDocument (uri : Uri) : Proc DocumentMetadata := do
  if ← perform (.shares (.containsShare uri)) then create uri .fileShare
  else fromUri uri

/-- The row of a cursor. -/
def documentRow (projection : Option (List Column)) (r : Ref) : Proc (List Cell) := do
  let metadata ← memory (.read r)
  .ofExcept (getDocumentValues (projection.getD defaultDocumentProjection) metadata)

/-- `queryDocument`; the result is the row of the cursor. -/
def queryDocument (uri : Uri) (projection : Option (List Column)) : Proc (List Cell) :=
  rethrowing do
    match (← DocumentCache.get uri).item with
    | none =>
      let metadata ← describeDocument uri
      let r ← memory (.new metadata)
      DocumentCache.put r
      documentRow projection r
    | some r => documentRow projection r

/-! ## Creating, renaming, moving -/

/-- The entry of a document that is created. -/
def createdEntry (isDir : Bool) (displayName : String) : DirectoryEntry :=
  ⟨if isDir then .dir else .file, "", some displayName⟩

/-- `mkdir` or `createFile`. -/
def createOnServer (isDir : Bool) (uri : Uri) : Proc Unit :=
  if isDir then smb (.mkdir uri) else smb (.createFile uri)

/-- `createDocument`; `isDir` says that the MIME type is a directory's. -/
def createDocument (parentUri : Uri) (isDir : Bool) (displayName : String) : Proc Uri :=
  rethrowing do
    let entry := createdEntry isDir displayName
    match parentUri.buildChildUri entry with
    | none => .throw ⟨.nullPointer, ""⟩
    | some uri =>
      createOnServer isDir uri
      notifyChange parentUri
      match (← DocumentCache.get uri).item with
      | some r =>
        -- It must be a file, and the file is truncated.
        reset r
        return uri
      | none =>
        let metadata ← make uri entry
        let r ← memory (.new metadata)
        DocumentCache.put r
        return uri

/-- The update of the cache after a rename or a move on the server. -/
def updateCache (uri newUri : Uri) : Proc Unit := do
  match (← DocumentCache.get uri).item with
  | none => return ()
  | some r =>
    rename r newUri
    DocumentCache.remove uri
    DocumentCache.put r

def renameDocument (uri : Uri) (displayName : String) : Proc Uri :=
  rethrowing do
    let parentUri := uri.buildParentUri
    if parentUri.getPathSegments.isEmpty then
      .throw ⟨.unsupportedOperation, "Not support renaming a share/workgroup/server."⟩
    else
      match parentUri.buildNamedChildUri (some displayName) with
      | none => .throw ⟨.unsupportedOperation, displayName ++ " is not a valid name."⟩
      | some newUri =>
        smb (.rename uri newUri)
        revokeDocumentPermission uri
        notifyChange parentUri
        updateCache uri newUri
        return newUri

/-- `moveDocument`, which does not look at the parent of the source. -/
def moveDocument (uri targetParentUri : Uri) : Proc Uri :=
  rethrowing do
    if uri.getAuthority ≠ targetParentUri.getAuthority then
      .throw ⟨.unsupportedOperation, "Instant move across services are not supported."⟩
    else if uri.getPathSegments.isEmpty ∨ targetParentUri.getPathSegments.isEmpty ∨
        uri.getPathSegments.head? ≠ targetParentUri.getPathSegments.head? then
      .throw ⟨.unsupportedOperation, "Instance move across shares are not supported."⟩
    else
      match targetParentUri.buildNamedChildUri uri.getLastPathSegment with
      | none => .throw ⟨.nullPointer, ""⟩
      | some targetUri =>
        smb (.rename uri targetUri)
        revokeDocumentPermission uri
        notifyChange uri.buildParentUri
        notifyChange targetParentUri
        updateCache uri targetUri
        return targetUri

/-! ## Deleting -/

def deleteFile (uri : Uri) : Proc Unit := do
  smb (.unlink uri)
  DocumentCache.remove uri
  revokeDocumentPermission uri

/-- `recursiveDeleteFolder`. The metadata objects of a deletion are its
own, so the folder is given by its URI. -/
def recursiveDeleteFolder : ℕ → Uri → Proc Unit
  | 0, _ => .outOfFuel
  | n + 1, uri => do
    let children ← loadLocalChildren n uri
    forValues children fun childUri entry => do
      if ← isDirectory entry then recursiveDeleteFolder n childUri
      else deleteFile childUri
    smb (.rmdir uri)
    DocumentCache.remove uri
    revokeDocumentPermission uri

/-- A document is deleted as what the server says it is. -/
def deleteTree (fuel : ℕ) (metadata : DocumentMetadata) : Proc Unit := do
  if ← isDirectory metadata.entry then recursiveDeleteFolder fuel metadata.uri
  else deleteFile metadata.uri

def deleteDocument (fuel : ℕ) (uri : Uri) : Proc Unit :=
  Prog.catching
    (do
      -- The cache might be out of date.
      let metadata ← fromUri uri
      deleteTree fuel metadata
      notifyChange uri.buildParentUri)
    Exn.isIOException
    fun e =>
      if e.isFileNotFound then do
        DocumentCache.remove uri
        notifyChange uri.buildParentUri
      else .throw (illegalState e)

end SambaDocumentsProvider

/-! ## Tasks -/

/-- A `BiResultTask`: its background part, then `onPostExecute`, or
`onCancelled` with the result or `null`. -/
def runTask {α : Type} (cancelled : Bool) (run : Proc α) (onSucceeded : α → Proc Unit)
    (onFailed : Exn → Proc Unit) (onCancelled : Option α → Proc Unit) : Proc Unit := do
  match ← run.attempt with
  | .ok a => if cancelled then onCancelled (some a) else onSucceeded a
  | .error x => if cancelled then onCancelled none else onFailed x

open SambaDocumentsProvider

/-- `LoadDocumentTask`, with the callback of `queryChildDocuments`. -/
def loadDocumentTask (cancelled : Bool) (uri : Uri) : Proc Unit :=
  let onLoaded (metadata : DocumentMetadata) : Proc Unit := do
    let r ← memory (.new metadata)
    DocumentCache.put r
    notifyChange uri
  runTask cancelled (fromUri uri) onLoaded
    (fun x => do
      memory (.exceptionPut uri x)
      notifyChange uri)
    fun metadata => metadata.elim (return ()) onLoaded

/-- Every child of a loaded map is put into the cache. -/
def putChildren (r : Ref) (children : Option MapId) : Proc Unit := do
  match children with
  | none => .throw ⟨.nullPointer, ""⟩
  | some g => forValues (← memory (.entries r g)) fun _ child => DocumentCache.put child

/-- `mLoadChildrenCallback`. -/
def notifyLoaded (r : Ref) : Proc Unit := do notifyChange (← getUri r)

/-- `onFinish`, and the callback. -/
def finishLoading (r : Ref) (children : Option MapId) : Proc Unit := do
  putChildren r children
  notifyLoaded r

/-- `LoadChildrenTask`, with the callback of `queryChildDocuments`. -/
def loadChildrenTask (fuel : ℕ) (cancelled : Bool) (r : Ref) : Proc Unit :=
  runTask cancelled
    (do
      loadChildren fuel r
      getChildren r)
    (finishLoading r) (fun _ => notifyLoaded r)
    fun result =>
      match result with
      | some (some g) => finishLoading r (some g)
      | _ => return ()

/-- `MountServerTask.run`: `addServer`, with the listing of the share as
its mount checker. -/
def runMount (fuel : ℕ) (uri : Uri) (r : Ref) : Proc Unit := do
  Prog.ofExcept (← perform (.shares (.beginMount uri)))
  (loadChildren fuel r).catching (fun _ => true) fun x => do
    perform (.shares (.removeCredential uri))
    .throw x
  Prog.ofExcept (← perform (.shares (.saveServer uri)))

/-- `tryMount` of a share path, and the `MountServerTask` it starts: the
metadata is cached at once and taken out again where the mount fails. -/
def mountServer (fuel : ℕ) (cancelled : Bool) (host share : String) : Proc Unit := do
  let uri := Uri.ofShare host share
  let metadata ← create uri .fileShare
  let r ← memory (.new metadata)
  if ← perform (.shares (.isShareMounted uri)) then return ()
  else
    DocumentCache.put r
    runTask cancelled (runMount fuel uri r)
      (fun _ => do putChildren r (← getChildren r))
      (fun _ => do DocumentCache.remove (← getUri r))
      fun _ => do
        let _ ← perform (.shares (.unmountServer uri))

/-! ## Operations -/

/-- The operations on the document cache, with their arguments. -/
inductive Operation
  | queryDocument (uri : Uri) (projection : Option (List Column))
  | createDocument (parentUri : Uri) (isDir : Bool) (displayName : String)
  | renameDocument (uri : Uri) (displayName : String)
  | moveDocument (uri targetParentUri : Uri)
  | deleteDocument (uri : Uri)
  | loadDocument (cancelled : Bool) (uri : Uri)
  | loadChildren (cancelled : Bool) (r : Ref)
  | mountServer (cancelled : Bool) (host share : String)
deriving DecidableEq, Repr

/-- The method an operation calls, its result dropped. -/
def Operation.body (fuel : ℕ) : Operation → Proc Unit
  | .queryDocument uri projection => do
    let _ ← SambaDocumentsProvider.queryDocument uri projection
  | .createDocument parentUri isDir displayName => do
    let _ ← SambaDocumentsProvider.createDocument parentUri isDir displayName
  | .renameDocument uri displayName => do
    let _ ← SambaDocumentsProvider.renameDocument uri displayName
  | .moveDocument uri targetParentUri => do
    let _ ← SambaDocumentsProvider.moveDocument uri targetParentUri
  | .deleteDocument uri => SambaDocumentsProvider.deleteDocument fuel uri
  | .loadDocument cancelled uri => loadDocumentTask cancelled uri
  | .loadChildren cancelled r => loadChildrenTask fuel cancelled r
  | .mountServer cancelled host share => SambaProvider.mountServer fuel cancelled host share

end SambaProvider

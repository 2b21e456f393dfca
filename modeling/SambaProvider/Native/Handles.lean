import SambaProvider.Document.Metadata
import SambaProvider.Lib.Ledger
import SambaProvider.Transfer.Task

/-!
# Handles

The six methods that open a directory or a file of the server. Three have
their handle closed by a `try` with resources. The three that browse, in
`NetworkBrowser.java` and `MasterBrowsingProvider.java`, read directories
to their end and close none.
-/

namespace SambaProvider

open Lib

/-- A handle of the server: a directory, or the one file of a transfer. -/
inductive Handle
  | dir (d : SmbDir)
  | file
deriving DecidableEq, Repr

/-! ## The browsers -/

/-- The calls the browsers can make. -/
inductive BrowseCall
  | openDir (uri : String)
  | readDir (dir : SmbDir)
  | closeDir (dir : SmbDir)
  | addServiceData (ip : String) (name : Option String)

/-- What each call answers. -/
@[reducible] def BrowseCall.Answer : BrowseCall → Type
  | .openDir _ => Except Exn SmbDir
  | .readDir _ => Except Exn (Option DirectoryEntry)
  | .closeDir _ => Except Exn Unit
  | .addServiceData _ _ => Unit

/-- The code of a browser. -/
abbrev BrowseProg (α : Type) := Prog BrowseCall BrowseCall.Answer Exn α

namespace Browse

def openDir (uri : String) : BrowseProg SmbDir := .act (.openDir uri) .ofExcept

def readDir (dir : SmbDir) : BrowseProg (Option DirectoryEntry) := .act (.readDir dir) .ofExcept

def addServiceData (ip : String) (name : Option String) : BrowseProg Unit :=
  .act (.addServiceData ip name) .pure

/-- `getDirectoryChildren`, of both browsers, for at most `fuel` rounds. -/
def getDirectoryChildren (dir : SmbDir) : ℕ → List DirectoryEntry → BrowseProg (List DirectoryEntry)
  | 0, _ => .outOfFuel
  | fuel + 1, children => do
    match ← readDir dir with
    | some currentEntry => getDirectoryChildren dir fuel (children ++ [currentEntry])
    | none => return children

/-- `NetworkBrowser.getRootDir`. -/
def getRootDir (serviceName : String) (fuel : ℕ) : BrowseProg (List DirectoryEntry) :=
  (do getDirectoryChildren (← openDir ("smb://" ++ serviceName)) fuel []).catching Exn.isIOException
    fun _ => return []

/-- `NetworkBrowser.getChildDirByUri`; without a client there is nothing
to ask. -/
def getChildDirByUri (hasClient : Bool) (serverUri : String) (fuel : ℕ) :
    BrowseProg (Option (List DirectoryEntry)) :=
  if hasClient then
    (do
      let serverDir ← openDir serverUri
      let de ← getDirectoryChildren serverDir fuel []
      return some de).catching Exn.isIOException fun _ => return none
  else return none

/-- `ServiceHelper.IP_LAN_DEFAULT`. -/
def ipLanDefault : String := "255.255.255.255"

/-- `MasterBrowsingProvider.MASTER_BROWSING_DIR`. -/
def masterBrowsingDir : String := "smb://"

/-- The loop over the servers of a workgroup. -/
def addServers (servers : List DirectoryEntry) : BrowseProg Unit :=
  servers.forM fun server : DirectoryEntry =>
    if server.type = .server then addServiceData ipLanDefault server.name else return ()

/-- The loop over the workgroups. -/
def visitWorkgroups (fuel : ℕ) (workgroups : List DirectoryEntry) : BrowseProg Unit :=
  workgroups.forM fun workgroup : DirectoryEntry =>
    if workgroup.type = .workgroup then do
      let dir ← openDir (masterBrowsingDir ++ workgroup.name.getD "null")
      addServers (← getDirectoryChildren dir fuel [])
    else return ()

/-- The task of `MasterBrowsingProvider.getServersAsy`. -/
def getServersAsy (fuel : ℕ) : BrowseProg Unit :=
  (do
    let rootDir ← openDir masterBrowsingDir
    visitWorkgroups fuel (← getDirectoryChildren rootDir fuel [])).catching Exn.isIOException
      fun _ => return ()

end Browse

/-! ## What is opened and closed -/

/-- The handles of the provider's methods. -/
def effectHandles : Accounting Effect Effect.Answer Handle where
  opens
    | .smb (.openDir _), .ok d => [.dir d]
    | _, _ => []
  closes
    | .smb (.closeDir d) => [.dir d]
    | _ => []

/-- The handles of the transfers. -/
def callHandles : Accounting Call Call.Answer Handle where
  opens
    | .openFile _, .ok _ => [.file]
    | _, _ => []
  closes
    | .closeFile => [.file]
    | _ => []

/-- The handles of the browsers. -/
def browseHandles : Accounting BrowseCall BrowseCall.Answer Handle where
  opens
    | .openDir _, .ok d => [.dir d]
    | _, _ => []
  closes
    | .closeDir d => [.dir d]
    | _ => []

/-- What the server answers to the calls of a method, in the order they are
made, with whatever else the method finds. -/
structure ServerPattern where
  effect : ℕ → (e : Effect) → e.Answer
  call : ℕ → (c : Call) → c.Answer
  browse : ℕ → (c : BrowseCall) → c.Answer

/-- The methods that open handles. -/
inductive HandleMethod
  | loadChildren (r : Ref)
  | readFileTask
  | writeFileTask
  | getRootDir (serviceName : String)
  | getChildDirByUri (hasClient : Bool) (serverUri : String)
  | getServersAsy

namespace HandleMethod

/-- The method, started with the ledger `s`, ends with `t`. -/
def Ends (m : HandleMethod) (server : ServerPattern) (s t : Ledger Handle) : Prop :=
  match m with
  | .loadChildren r =>
    effectHandles.EndsIn server.effect (fun fuel => DocumentMetadata.loadChildren fuel r) s t
  | .readFileTask => callHandles.EndsIn server.call ReadFileTask.doInBackground s t
  | .writeFileTask => callHandles.EndsIn server.call WriteFileTask.doInBackground s t
  | .getRootDir name => browseHandles.EndsIn server.browse (Browse.getRootDir name) s t
  | .getChildDirByUri hasClient uri =>
    browseHandles.EndsIn server.browse (Browse.getChildDirByUri hasClient uri) s t
  | .getServersAsy => browseHandles.EndsIn server.browse Browse.getServersAsy s t

/-- The first directory is refused. -/
def Refused (server : ServerPattern) (s : Ledger Handle) (uri : String) : Prop :=
  ∃ x, server.browse s.effects (.openDir uri) = .error x

/-- The method closes its handle, or gets none. -/
def Clean (m : HandleMethod) (server : ServerPattern) (s : Ledger Handle) : Prop :=
  match m with
  | .loadChildren _ | .readFileTask | .writeFileTask => True
  | .getRootDir name => Refused server s ("smb://" ++ name)
  | .getChildDirByUri hasClient uri => hasClient = false ∨ Refused server s uri
  | .getServersAsy => Refused server s Browse.masterBrowsingDir

end HandleMethod

/-! ## The methods that close -/

open Prog

theorem every_memory {m : Memory} {X : Exn → Prop} :
    (memory m : Proc m.Answer).Every effectHandles.Quiet X :=
  ⟨⟨fun _ => rfl, rfl⟩, fun _ => trivial⟩

theorem every_readDir {dir : SmbDir} :
    (smb (.readDir dir)).Every effectHandles.Quiet fun _ => True :=
  ⟨⟨fun _ => rfl, rfl⟩, fun _ => every_ofExcept fun _ _ => trivial⟩

/-- The loop of `loadChildren` opens nothing and closes nothing. -/
theorem every_readChildren {r : Ref} {dir : SmbDir} {fuel : ℕ}
    {children : AList fun _ : Uri => Ref} :
    (DocumentMetadata.readChildren (DocumentMetadata.getUri r) DocumentMetadata.newChild dir fuel
      children).Every effectHandles.Quiet fun _ => True := by
  induction fuel generalizing children with
  | zero => exact trivial
  | succ fuel ih =>
    refine every_bind every_readDir fun entry => ?_
    cases entry with
    | none => exact trivial
    | some entry =>
      refine every_bind (every_bind every_memory fun _ => trivial) fun uri => ?_
      split
      · exact ih
      · refine every_bind ?_ fun _ => ih
        exact every_bind (every_bind ⟨⟨fun _ => rfl, rfl⟩, fun _ => trivial⟩ fun _ => trivial)
          fun _ => every_memory

theorem closes_closeDir {d : SmbDir} : effectHandles.Closes (.dir d) (smb (.closeDir d)) :=
  Accounting.closes_act (fun _ => rfl) rfl fun _ =>
    every_ofExcept (X := fun _ => True) fun _ _ => trivial

theorem conserves_loadChildren (fuel : ℕ) (r : Ref) :
    effectHandles.Conserves (DocumentMetadata.loadChildren fuel r) := by
  refine Accounting.Conserves.catching ?_ fun x =>
    Accounting.conserves_of_quiet (X := fun _ => True) (every_bind every_memory fun _ => trivial)
  refine Accounting.Conserves.bind (Accounting.conserves_of_quiet (X := fun _ => True)
    (every_bind every_memory fun _ => trivial)) fun uri => ?_
  refine Accounting.conserves_acquire rfl fun a => ?_
  cases a with
  | error x => exact .inl ⟨rfl, Accounting.conserves_of_quiet (X := fun _ => True) trivial⟩
  | ok d =>
    refine .inr ⟨.dir d, _, _, rfl, closes_closeDir, ?_, rfl⟩
    refine Accounting.conserves_of_quiet (X := fun _ => True)
      (every_bind every_readChildren fun children => every_bind every_memory fun _ => ?_)
    exact every_bind ⟨⟨fun _ => rfl, rfl⟩, fun _ => trivial⟩ fun _ => every_memory

theorem closes_closeFile : callHandles.Closes .file TaskProg.closeFile :=
  Accounting.closes_act (fun _ => rfl) rfl fun _ =>
    every_ofExcept (X := fun _ => True) fun _ _ => trivial

theorem every_closePfd : TaskProg.closePfd.Every callHandles.Quiet fun _ => True :=
  ⟨⟨fun _ => rfl, rfl⟩, fun _ => every_ofExcept fun _ _ => trivial⟩

theorem every_closePfdWithError {message : String} :
    (TaskProg.closePfdWithError message).Every callHandles.Quiet fun _ => True :=
  every_catching ⟨⟨fun _ => rfl, rfl⟩, fun _ => every_ofExcept fun _ _ => trivial⟩
    fun _ => trivial

/-- **A transfer** opens its file, copies, and closes the file and the end of
the pipe. -/
theorem conserves_transfer {mode : String} {copy : TaskProg Unit}
    (hcopy : copy.Every callHandles.Quiet fun _ => True) :
    callHandles.Conserves
      ((Prog.withResource TaskProg.closePfd do
        TaskProg.openFile mode
        Prog.withResource TaskProg.closeFile copy).catching Exn.isIOException
      fun e => TaskProg.closePfdWithError e.message) := by
  refine Accounting.Conserves.catching ?_ fun x =>
    Accounting.conserves_of_quiet every_closePfdWithError
  refine Accounting.Conserves.withResource ?_ (Accounting.conserves_of_quiet every_closePfd)
  refine Accounting.conserves_acquire rfl fun a => ?_
  cases a with
  | error x => exact .inl ⟨rfl, Accounting.conserves_of_quiet (X := fun _ => True) trivial⟩
  | ok u =>
    exact .inr ⟨.file, _, _, rfl, closes_closeFile, Accounting.conserves_of_quiet hcopy, rfl⟩

theorem every_copy_read {fuel : ℕ} :
    (ReadFileTask.copy fuel).Every callHandles.Quiet fun _ => True := by
  induction fuel with
  | zero => exact trivial
  | succ fuel ih =>
    refine every_bind ⟨⟨fun _ => rfl, rfl⟩, fun _ => every_ofExcept fun _ _ => trivial⟩
      fun buf => ?_
    split
    · exact every_bind ⟨⟨fun _ => rfl, rfl⟩, fun _ => every_ofExcept fun _ _ => trivial⟩ fun _ => ih
    · exact trivial

theorem conserves_readFileTask (fuel : ℕ) :
    callHandles.Conserves (ReadFileTask.doInBackground fuel) := conserves_transfer every_copy_read

theorem every_copy_write {fuel : ℕ} :
    (WriteFileTask.copy fuel).Every callHandles.Quiet fun _ => True := by
  induction fuel with
  | zero => exact trivial
  | succ fuel ih =>
    refine every_bind ⟨⟨fun _ => rfl, rfl⟩, fun _ => every_ofExcept fun _ _ => trivial⟩
      fun buf => ?_
    split
    · exact every_bind ⟨⟨fun _ => rfl, rfl⟩, fun _ => every_ofExcept fun _ _ => trivial⟩ fun _ => ih
    · exact trivial

theorem conserves_writeFileTask (fuel : ℕ) :
    callHandles.Conserves (WriteFileTask.doInBackground fuel) := conserves_transfer every_copy_write

/-! ## The methods that do not -/

namespace Browse

theorem every_openDir {uri : String} : (openDir uri).Every browseHandles.Keeps fun _ => True :=
  ⟨rfl, fun _ => every_ofExcept fun _ _ => trivial⟩

theorem every_getDirectoryChildren {dir : SmbDir} {fuel : ℕ} {children : List DirectoryEntry} :
    (getDirectoryChildren dir fuel children).Every browseHandles.Keeps fun _ => True := by
  induction fuel generalizing children with
  | zero => exact trivial
  | succ fuel ih =>
    refine every_bind ⟨rfl, fun _ => every_ofExcept fun _ _ => trivial⟩ fun entry => ?_
    cases entry with
    | none => exact trivial
    | some entry => exact ih

theorem every_visitWorkgroups {fuel : ℕ} {workgroups : List DirectoryEntry} :
    (visitWorkgroups fuel workgroups).Every browseHandles.Keeps fun _ => True := by
  refine every_forM fun workgroup _ => ?_
  split
  · refine every_bind every_openDir fun dir => ?_
    refine every_bind every_getDirectoryChildren fun servers => ?_
    refine every_forM fun server _ => ?_
    split
    · exact ⟨rfl, fun _ => trivial⟩
    · exact trivial
  · exact trivial

end Browse

/-- **A browser leaks** the directory it opens first: it conserves only where
that is refused. -/
theorem conserved_iff_refused {α : Type} {uri : String} {f : SmbDir → BrowseProg α}
    {handler : Exn → BrowseProg α} {server : ServerPattern} {s : Ledger Handle}
    (hf : ∀ d, (f d).Every browseHandles.Keeps fun _ => True) (hh : ∀ x, ∃ a, handler x = .pure a) :
    s.Conserved (((Browse.openDir uri >>= f).catching Exn.isIOException handler).run
      (browseHandles.exec server.browse) s).2 ↔ HandleMethod.Refused server s uri := by
  have hhandler (x : Exn) : (handler x).Every browseHandles.Keeps fun _ => True := by
    obtain ⟨a, ha⟩ := hh x
    rw [ha]
    exact trivial
  have hkeeps {p : BrowseProg α} (hp : p.Every browseHandles.Keeps fun _ => True) :
      (p.catching Exn.isIOException handler).Every browseHandles.Keeps fun _ => True :=
    every_catching hp hhandler
  have hclosed := (Accounting.run_keeps server.browse
    (hkeeps (every_bind (@Browse.every_openDir uri) hf)) (s := s)).2
  rw [Ledger.conserved_iff_of_closed_eq hclosed]
  change (((ofExcept (server.browse s.effects (.openDir uri)) >>= f).catching Exn.isIOException
    handler).run (browseHandles.exec server.browse)
      (browseHandles.exec server.browse (.openDir uri) s).2).2.opened = s.opened ↔ _
  have hopened : (browseHandles.exec server.browse (.openDir uri) s).2.opened =
      s.opened ++ browseHandles.opens (.openDir uri) (server.browse s.effects (.openDir uri)) := rfl
  unfold HandleMethod.Refused
  cases hanswer : server.browse s.effects (.openDir uri) with
  | error x =>
    rw [hanswer] at hopened
    refine iff_of_true ?_ ⟨x, rfl⟩
    rw [← hopened.trans (List.append_nil _), run_catching]
    obtain ⟨a, ha⟩ := hh x
    change (if _ then _ else _ : Result Exn α × Ledger Handle).2.opened = _
    split
    · rw [ha]
      rfl
    · rfl
  | ok d =>
    rw [hanswer] at hopened
    refine iff_of_false (fun hsame => ?_) (by simp)
    have hprefix := (Accounting.run_keeps server.browse (hkeeps (hf d))
      (s := (browseHandles.exec server.browse (.openDir uri) s).2)).1
    have hlen := hprefix.length_le
    change ((((f d).catching Exn.isIOException handler).run (browseHandles.exec server.browse)
      (browseHandles.exec server.browse (.openDir uri) s).2).2.opened) = s.opened at hsame
    rw [hsame, hopened, List.length_append] at hlen
    exact absurd hlen (Nat.not_succ_le_self _)

namespace HandleMethod

variable {m : HandleMethod} {server : ServerPattern} {s t : Ledger Handle}

/-- **Handles are conserved** by the methods that close theirs, and by the
others where the server refuses the first directory. -/
theorem conserved_iff_clean (h : m.Ends server s t) : s.Conserved t ↔ m.Clean server s := by
  cases m with
  | loadChildren r =>
    obtain ⟨fuel, hend, rfl⟩ := h
    exact iff_of_true (conserves_loadChildren fuel r server.effect s hend) trivial
  | readFileTask =>
    obtain ⟨fuel, hend, rfl⟩ := h
    exact iff_of_true (conserves_readFileTask fuel server.call s hend) trivial
  | writeFileTask =>
    obtain ⟨fuel, hend, rfl⟩ := h
    exact iff_of_true (conserves_writeFileTask fuel server.call s hend) trivial
  | getRootDir name =>
    obtain ⟨fuel, -, rfl⟩ := h
    exact conserved_iff_refused (fun d => Browse.every_getDirectoryChildren) fun _ => ⟨_, rfl⟩
  | getChildDirByUri hasClient uri =>
    obtain ⟨fuel, -, rfl⟩ := h
    cases hasClient with
    | false => exact iff_of_true (.of_eq rfl rfl) (.inl rfl)
    | true =>
      have hfalse : (true = false ∨ Refused server s uri) ↔ Refused server s uri := by simp
      refine Iff.trans ?_ hfalse.symm
      exact conserved_iff_refused (fun d => every_bind Browse.every_getDirectoryChildren
        fun _ => trivial) fun _ => ⟨_, rfl⟩
  | getServersAsy =>
    obtain ⟨fuel, -, rfl⟩ := h
    exact conserved_iff_refused (fun d => every_bind Browse.every_getDirectoryChildren
      fun _ => Browse.every_visitWorkgroups) fun _ => ⟨_, rfl⟩

/-- A server whose directories are empty, and whose file breaks off after a
byte. -/
def brokenServer : ServerPattern where
  effect
    | _, .smb (.openDir _) => .ok 7
    | _, .smb (.readDir _) => .ok none
    | _, .smb (.closeDir _) => .ok ()
    | _, .smb _ => .error ⟨.ioException, "timeout"⟩
    | _, .shares .iterator => []
    | _, .shares (.containsShare _) | _, .shares (.isShareMounted _) => false
    | _, .shares (.unmountServer _) => false
    | _, .shares (.removeCredential _) => ()
    | _, .shares (.beginMount _) | _, .shares (.saveServer _) => .ok ()
    | _, .currentTimeMillis => 0
    | _, .hashOrder keys => ⟨keys, .refl _⟩
    | _, .notifyChange _ | _, .revokeDocumentPermission _ => ()
    | _, .memory m => (Store.exec m (Store.initial
        ⟨.ofShare "nas" "media", ⟨.fileShare, "", some "media"⟩, none, none, none, none, 0⟩)).1
  call
    | _, .openFile _ => .ok ()
    | 1, .readFile _ => .ok [0x2a]
    | _, .readFile _ => .error ⟨.ioException, "timeout"⟩
    | _, .writeFile _ => .error ⟨.ioException, "timeout"⟩
    | _, .closeFile => .error ⟨.ioException, "timeout"⟩
    | _, .readPfd _ => .ok []
    | _, .writePfd _ | _, .closePfd | _, .closePfdWithError _ => .ok ()
    | _, .onTaskFinished _ => ()
  browse
    | _, .openDir _ => .ok 7
    | _, .readDir _ => .ok none
    | _, .closeDir _ => .ok ()
    | _, .addServiceData _ _ => ()

/-- A download that breaks off has closed its file. -/
theorem conserved_brokenDownload : ∃ t : Ledger Handle,
    Ends .readFileTask brokenServer {} t ∧ t.opened = [.file] ∧ Ledger.Conserved {} t := by
  have h : Ends .readFileTask brokenServer {} _ := ⟨3, (fun h => by cases h), rfl⟩
  exact ⟨_, h, rfl, (conserved_iff_clean h).mpr trivial⟩

/-- The root of a server, read to its end, stays open. -/
theorem not_conserved_rootDir : ∃ t : Ledger Handle,
    Ends (.getRootDir "nas") brokenServer {} t ∧ t.opened = [.dir 7] ∧
      ¬ Ledger.Conserved {} t := by
  refine ⟨_, ⟨1, (fun h => by cases h), rfl⟩, rfl, ?_⟩
  rintro ⟨o, c, ho, hc, hperm⟩
  obtain rfl : c = [] := hc.symm
  rw [List.nil_perm] at hperm
  subst hperm
  cases ho

end HandleMethod

end SambaProvider

import SambaProvider.Native.Facade
import SambaProvider.Native.Looper
import SambaProvider.Document.Uri
import SambaProvider.Lib.Octets

/-!
# An open directory

The calls that list a directory, from the library up to `SambaDirClient`.
Each layer tells a failure in its own way: the library by what it returns
and `errno`, `SambaClient` by a negative number, the JNI by a pending
exception, `SambaDir` by an `IOException`, and the client by the message
it gets back. The library returns a null pointer for an entry both at the
end of the directory and on an error.
-/

namespace SambaProvider

open Lib.Percent

/-! ## The library -/

/-- `errno` after a call that has failed. -/
abbrev Errno := { n : ℕ // 0 < n }

/-- `smbc_dirent`. -/
structure Dirent where
  smbc_type : BitVec 32
  comment : String
  name : String
deriving DecidableEq, Repr

/-- What the library answers while one directory is listed: the handle of
the directory, its entries, and the calls that fail. Of the calls of
`smbc_readdir`, one for each entry and one at the end, any may fail. -/
structure Listing where
  opendir : Except Errno ℕ
  entries : List Dirent
  readdir : Option (Fin (entries.length + 1))
  closedir : Except Errno Unit

namespace Listing

variable (L : Listing)

/-- No call has failed. -/
def NothingFails : Prop :=
  (∃ dh, L.opendir = .ok dh) ∧ L.readdir = none ∧ L.closedir = .ok ()

/-- `smbc_opendir`: the handle, or -1. -/
def smbc_opendir : ℤ :=
  match L.opendir with
  | .ok dh => dh
  | .error _ => -1

/-- `smbc_readdir`, the call with number `i`. -/
def smbc_readdir (i : ℕ) : Option Dirent :=
  if L.readdir.map Fin.val = some i then none else L.entries[i]?

/-- `smbc_closedir`. -/
def smbc_closedir : ℤ :=
  match L.closedir with
  | .ok () => 0
  | .error _ => -1

/-- `errno`, after a call that answers like this. -/
def errno {α : Type} : Except Errno α → ℤ
  | .ok _ => 0
  | .error e => e.val

/-- The entries `smbc_readdir` hands out before its first null pointer. -/
def handed : List Dirent :=
  match L.readdir with
  | some i => L.entries.take i
  | none => L.entries

end Listing

/-! ## `SambaClient` -/

namespace SambaClient

variable (L : Listing)

def openDir : ℤ :=
  let fd := L.smbc_opendir
  if fd < 0 then -Listing.errno L.opendir else fd

/-- The result, and what `*dirent` is set to. A null pointer is taken for
the end of the directory. -/
def readDir (i : ℕ) : ℤ × Option Dirent := (0, L.smbc_readdir i)

def closeDir : ℤ :=
  let ret := L.smbc_closedir
  if ret ≠ 0 then -Listing.errno L.closedir else 0

end SambaClient

/-! ## The JNI -/

/-- The numbers of the errors that are told apart. -/
def EPERM : ℤ := 1
def ENOENT : ℤ := 2
def EACCES : ℤ := 13
def ENODEV : ℤ := 19

/-- The types of an entry by their numbers. -/
def EntryType.ofCode : ℤ → EntryType
  | 1 => .workgroup
  | 2 => .server
  | 3 => .fileShare
  | 4 => .printerShare
  | 5 => .commsShare
  | 6 => .ipcShare
  | 7 => .dir
  | 8 => .file
  | 9 => .link
  | code => .other code

/-- `create_directory_entry`. The type is an unsigned number there, and a
signed one in Java. -/
def createDirectoryEntry (ent : Dirent) : DirectoryEntry :=
  ⟨.ofCode ent.smbc_type.toInt, ent.comment, some ent.name⟩

/-- `throw_new_file_not_found_exception`: the text has room for 255 octets. -/
def fileNotFoundException (message : String) : Exn :=
  ⟨.fileNotFound, String.ofList (decodeUtf8 ((encodeUtf8 message.toList).take 255))⟩

/-- `NativeSambaFacade.openDir`, the native method. -/
def nativeOpenDir (L : Listing) (uri : String) : Except NativeFailure ℤ :=
  let fd := SambaClient.openDir L
  if fd < 0 then
    let err := -fd
    if err = ENODEV ∨ err = ENOENT then
      .error (.exn (fileNotFoundException ("Directory at " ++ uri ++ " can't be found.")))
    else if err = EACCES ∨ err = EPERM then .error (.exn ⟨.authFailed, ""⟩)
    else .error (.errno err.toNat)
  else .ok fd

/-- `SambaDir.readDir`, the native method. -/
def nativeReadDir (L : Listing) (i : ℕ) : Except NativeFailure (Option DirectoryEntry) :=
  let (result, dirent) := SambaClient.readDir L i
  if result < 0 then .error (.errno (-result).toNat)
  else
    match dirent with
    -- This is a normal case, indicating that we finished reading this directory.
    | none => .ok none
    | some ent => .ok (some (createDirectoryEntry ent))

/-- `SambaDir.close`, the native method. -/
def nativeCloseDir (L : Listing) : Except NativeFailure Unit :=
  let result := SambaClient.closeDir L
  if result < 0 then .error (.errno (-result).toNat) else .ok ()

/-! ## The clients -/

/-- What a caller gets from the looper: `processMessage` stores what was
thrown, and `getObj` or `checkException` throws it again. -/
def throughLooper {α : Type} (out : Except Exn α) : Except Exn α :=
  match out with
  | .ok a => ({} : MessageValues).checkException.map fun _ => a
  | .error e =>
    match (({} : MessageValues).setThrown e).checkException with
    | .error e' => .error e'
    | .ok () => .error e

/-- `SambaFacadeClient.openDir`, of a facade that is initialised. The
directories are counted. -/
def openDirClient (s : NativeSambaFacade) (L : Listing) (uri : String) : Except Exn ℕ :=
  throughLooper (s.openDir uri (nativeOpenDir L uri)).1

/-- `SambaDirClient.readDir`. -/
def readDirClient (d : SambaDir) (L : Listing) (i : ℕ) : Except Exn (Option DirectoryEntry) :=
  throughLooper (d.readDir (nativeReadDir L i)).outcome

/-- `SambaDirClient.close`. -/
def closeDirClient (d : SambaDir) (L : Listing) : Except Exn Unit :=
  throughLooper (d.close (nativeCloseDir L)).outcome

/-! ## What reaches the caller -/

variable {L : Listing} {s : NativeSambaFacade} {d : SambaDir} {uri : String} {i : ℕ}

/-- **What is thrown on the looper thread** is thrown by the caller. -/
@[simp] theorem throughLooper_eq {α : Type} (out : Except Exn α) : throughLooper out = out := by
  rcases out with e | a
  · unfold throughLooper MessageValues.setThrown MessageValues.checkException
    by_cases h : e.isIOException
    · simp [h]
    · simp [h]
  · rfl

/-- **A directory is opened** if the library opens it. -/
theorem openDirClient_isOk_iff (hs : s.isInitialized = true) :
    (∃ dir, openDirClient s L uri = .ok dir) ↔ ∃ dh, L.opendir = .ok dh := by
  unfold openDirClient NativeSambaFacade.openDir NativeSambaFacade.call
  rw [throughLooper_eq, if_pos hs]
  rcases h : L.opendir with e | dh
  · have hpos := e.property
    have hfd : SambaClient.openDir L = -(e.val : ℤ) := by
      simp [SambaClient.openDir, Listing.smbc_opendir, Listing.errno, h]
    have herror : ∃ x, nativeOpenDir L uri = .error x := by
      unfold nativeOpenDir
      simp only [hfd, if_pos (show -(e.val : ℤ) < 0 by omega)]
      split
      · exact ⟨_, rfl⟩
      · split
        · exact ⟨_, rfl⟩
        · exact ⟨_, rfl⟩
    obtain ⟨x, hx⟩ := herror
    simp [hx, Except.mapError]
  · have hfd : SambaClient.openDir L = dh := by
      simp only [SambaClient.openDir, Listing.smbc_opendir, h]
      exact if_neg (by omega)
    have hok : nativeOpenDir L uri = .ok dh := by
      unfold nativeOpenDir
      simp only [hfd]
      rw [if_neg (by omega)]
    simp [hok, Except.mapError]

/-- **No failure of `smbc_readdir` is seen**: the caller gets what it hands
out, and the end of the directory where it fails. -/
theorem readDirClient_eq (hi : i ≤ L.handed.length) :
    readDirClient d L i = .ok ((L.handed[i]?).map createDirectoryEntry) := by
  have hhanded : L.smbc_readdir i = L.handed[i]? := by
    unfold Listing.smbc_readdir
    unfold Listing.handed at hi ⊢
    rcases h : L.readdir with _ | j
    · rfl
    · rw [h] at hi
      have hj := j.isLt
      simp only [List.length_take] at hi
      simp only [Option.map_some, Option.some.injEq]
      split
      · rw [List.getElem?_eq_none (by rw [List.length_take]; omega)]
      · rw [List.getElem?_take_of_lt (by omega)]
  unfold readDirClient SambaDir.readDir nativeReadDir SambaClient.readDir
  rw [throughLooper_eq, hhanded]
  rcases L.handed[i]? with _ | ent
  · rfl
  · rfl

/-- A failure of `smbc_closedir` is seen. -/
theorem closeDirClient_eq : (closeDirClient d L = .ok () ↔ L.closedir = .ok ()) := by
  unfold closeDirClient SambaDir.close nativeCloseDir
  rw [throughLooper_eq]
  rcases h : L.closedir with e | u
  · have hpos := e.property
    have hresult : SambaClient.closeDir L = -(e.val : ℤ) := by
      simp [SambaClient.closeDir, Listing.smbc_closedir, Listing.errno, h]
    simp only [hresult, if_pos (show -(e.val : ℤ) < 0 by omega)]
    simp [Except.mapError]
  · have hresult : SambaClient.closeDir L = 0 := by
      simp [SambaClient.closeDir, Listing.smbc_closedir, h]
    simp [hresult, Except.mapError]

end SambaProvider

import Mathlib.Data.Int.Notation
import Mathlib.Data.List.Basic
import SambaProvider.Base.Exn
import SambaProvider.Lib.Run

/-!
# The native client and the objects that point at it

`NativeSambaFacade` owns one native client at a time and replaces it in
`reset`; the files and directories it opens keep the pointer they were
opened with. All of it runs on one thread, so a run is a sequence of
operations. The native side is an answer each operation comes with, and
the state notes every pointer a native call is given, together with
whether the client behind it was still there.
-/

namespace SambaProvider

open Lib

/-- What a native call throws: an `ErrnoException`, which the Java side
wraps, or an exception of another class, which passes through. -/
inductive NativeFailure
  | errno (code : ℕ)
  | exn (e : Exn)
deriving DecidableEq, Repr

namespace NativeFailure

/-- The exception after `catch (ErrnoException e)`. -/
def wrap (message : String) : NativeFailure → Exn
  | .errno _ => ⟨.ioException, message⟩
  | .exn e => e

end NativeFailure

/-- What a method of an object did: its outcome, the object afterwards,
and the client pointers its native calls were given. -/
structure Method (object α : Type) where
  outcome : Except Exn α
  object : object
  pointers : List ℕ

/-- `SambaFile`. -/
structure SambaFile where
  mNativeHandler : ℕ
  mNativeFd : ℤ
  mOffset : ℤ := 0
deriving DecidableEq, Repr

namespace SambaFile

variable (f : SambaFile)

/-- The outcome of a native call, with its `ErrnoException` wrapped. -/
def result {α : Type} (message : String) (answer : Except NativeFailure α) : Except Exn α :=
  answer.mapError (·.wrap (message ++ toString f.mNativeFd))

def read (answer : Except NativeFailure ℕ) : Method SambaFile ℕ where
  outcome := f.result "Failed to read file. Fd: " answer
  object := match answer with
    | .ok bytesRead => { f with mOffset := f.mOffset + bytesRead }
    | .error _ => f
  pointers := [f.mNativeHandler]

def write (answer : Except NativeFailure ℕ) : Method SambaFile ℕ where
  outcome := f.result "Failed to write file. Fd: " answer
  object := match answer with
    | .ok bytesWritten => { f with mOffset := f.mOffset + bytesWritten }
    | .error _ => f
  pointers := [f.mNativeHandler]

/-- A seek to the offset the file is at makes no native call. -/
def seek (offset : ℤ) (answer : Except NativeFailure ℤ) : Method SambaFile ℤ :=
  if f.mOffset = offset then ⟨.ok f.mOffset, f, []⟩
  else
    { outcome := f.result "Failed to move to offset in file. Fd: " answer
      object := match answer with
        | .ok at' => { f with mOffset := at' }
        | .error _ => f
      pointers := [f.mNativeHandler] }

def fstat {Stat : Type} (answer : Except NativeFailure Stat) : Method SambaFile Stat where
  outcome := f.result "Failed to get stat of " answer
  object := f
  pointers := [f.mNativeHandler]

/-- The descriptor is forgotten before the native call, so the message
of its failure names the descriptor -1. -/
def close (answer : Except NativeFailure Unit) : Method SambaFile Unit where
  outcome := { f with mNativeFd := -1 }.result "Failed to close file. Fd: " answer
  object := { f with mNativeFd := -1 }
  pointers := [f.mNativeHandler]

end SambaFile

/-- `SambaDir`. -/
structure SambaDir where
  mNativeHandler : ℕ
  mNativeDh : ℤ
deriving DecidableEq, Repr

namespace SambaDir

variable (d : SambaDir)

def readDir {Entry : Type} (answer : Except NativeFailure (Option Entry)) :
    Method SambaDir (Option Entry) where
  outcome := answer.mapError (·.wrap "")
  object := d
  pointers := [d.mNativeHandler]

def close (answer : Except NativeFailure Unit) : Method SambaDir Unit where
  outcome := answer.mapError (·.wrap "")
  object := { d with mNativeDh := -1 }
  pointers := [d.mNativeHandler]

end SambaDir

/-! ## The facade -/

/-- The looper thread's state: the facade's client, what was opened
through it, and the native side. -/
structure NativeSambaFacade where
  mNativeHandler : ℕ := 0
  files : List SambaFile := []
  dirs : List SambaDir := []
  /-- The clients `nativeInit` returned and `nativeDestroy` has not
  freed. -/
  live : List ℕ := []
  /-- The client pointers given to native calls so far, each with
  whether it was live then. -/
  passed : List (ℕ × Bool) := []
deriving DecidableEq, Repr

namespace NativeSambaFacade

variable (s : NativeSambaFacade)

def isInitialized : Bool := s.mNativeHandler ≠ 0

/-- Native calls are made with these pointers. -/
def pass (pointers : List ℕ) : NativeSambaFacade :=
  { s with passed := s.passed ++ pointers.map fun p => (p, decide (p ∈ s.live)) }

/-- `reset`, where `nativeInit` returns `client`: the address of a new
client, or 0 if it could not be initialised. -/
def reset (client : ℕ) : NativeSambaFacade :=
  let s := if s.isInitialized then
      { s.pass [s.mNativeHandler] with live := s.live.erase s.mNativeHandler }
    else s
  { s with
    mNativeHandler := client
    live := if client = 0 then s.live else client :: s.live }

/-- `checkNativeHandler` throws this. -/
def notInitialized : Exn := ⟨.illegalState, "Samba client is not initialized."⟩

/-- A method of the facade that makes one native call. -/
def call {α : Type} (message : String) (answer : Except NativeFailure α) :
    Except Exn α × NativeSambaFacade :=
  if s.isInitialized then (answer.mapError (·.wrap message), s.pass [s.mNativeHandler])
  else (.error notInitialized, s)

def openDir (uri : String) (answer : Except NativeFailure ℤ) :
    Except Exn ℕ × NativeSambaFacade :=
  match s.call ("Failed to read directory " ++ uri) answer with
  | (.ok dh, s') => (.ok s'.dirs.length, { s' with dirs := s'.dirs ++ [⟨s'.mNativeHandler, dh⟩] })
  | (.error e, s') => (.error e, s')

def openFile (uri : String) (answer : Except NativeFailure ℤ) :
    Except Exn ℕ × NativeSambaFacade :=
  match s.call ("Failed to open " ++ uri) answer with
  | (.ok fd, s') => (.ok s'.files.length,
      { s' with files := s'.files ++ [{ mNativeHandler := s'.mNativeHandler, mNativeFd := fd }] })
  | (.error e, s') => (.error e, s')

def stat {Stat : Type} (uri : String) (answer : Except NativeFailure Stat) :
    Except Exn Stat × NativeSambaFacade := s.call ("Failed to get stat of " ++ uri) answer

def createFile (uri : String) (answer : Except NativeFailure Unit) :
    Except Exn Unit × NativeSambaFacade := s.call ("Failed to create file at " ++ uri) answer

def mkdir (uri : String) (answer : Except NativeFailure Unit) :
    Except Exn Unit × NativeSambaFacade := s.call ("Failed to make directory at " ++ uri) answer

def rename (uri newUri : String) (answer : Except NativeFailure Unit) :
    Except Exn Unit × NativeSambaFacade :=
  s.call ("Failed to rename " ++ uri ++ " to " ++ newUri) answer

def unlink (uri : String) (answer : Except NativeFailure Unit) :
    Except Exn Unit × NativeSambaFacade := s.call ("Failed to unlink " ++ uri) answer

def rmdir (uri : String) (answer : Except NativeFailure Unit) :
    Except Exn Unit × NativeSambaFacade := s.call ("Failed to rmdir " ++ uri) answer

end NativeSambaFacade

/-! ## Sequences of operations -/

/-- A method of a file that is open, with the native side's answer. -/
inductive FileMethod
  | read (answer : Except NativeFailure ℕ)
  | write (answer : Except NativeFailure ℕ)
  | seek (offset : ℤ) (answer : Except NativeFailure ℤ)
  | fstat (answer : Except NativeFailure Unit)
  | close (answer : Except NativeFailure Unit)

/-- A method of a directory that is open. -/
inductive DirMethod
  | readDir (answer : Except NativeFailure (Option String))
  | close (answer : Except NativeFailure Unit)

namespace FileMethod

/-- The file after the method, and the pointers it used. -/
def run (f : SambaFile) : FileMethod → SambaFile × List ℕ
  | .read a => ((f.read a).object, (f.read a).pointers)
  | .write a => ((f.write a).object, (f.write a).pointers)
  | .seek offset a => ((f.seek offset a).object, (f.seek offset a).pointers)
  | .fstat a => ((f.fstat a).object, (f.fstat a).pointers)
  | .close a => ((f.close a).object, (f.close a).pointers)

end FileMethod

namespace DirMethod

/-- The directory after the method, and the pointers it used. -/
def run (d : SambaDir) : DirMethod → SambaDir × List ℕ
  | .readDir a => ((d.readDir a).object, (d.readDir a).pointers)
  | .close a => ((d.close a).object, (d.close a).pointers)

end DirMethod

/-- A method of the facade that opens nothing. -/
inductive FacadeMethod
  | stat (uri : String) (answer : Except NativeFailure Unit)
  | createFile (uri : String) (answer : Except NativeFailure Unit)
  | mkdir (uri : String) (answer : Except NativeFailure Unit)
  | rename (uri newUri : String) (answer : Except NativeFailure Unit)
  | unlink (uri : String) (answer : Except NativeFailure Unit)
  | rmdir (uri : String) (answer : Except NativeFailure Unit)

namespace FacadeMethod

/-- The looper thread after the method. -/
def run (s : NativeSambaFacade) : FacadeMethod → NativeSambaFacade
  | .stat uri a => (s.stat uri a).2
  | .createFile uri a => (s.createFile uri a).2
  | .mkdir uri a => (s.mkdir uri a).2
  | .rename uri newUri a => (s.rename uri newUri a).2
  | .unlink uri a => (s.unlink uri a).2
  | .rmdir uri a => (s.rmdir uri a).2

end FacadeMethod

/-- An operation on the looper thread; files and directories are counted
in the order in which they were opened. -/
inductive LooperOp
  | reset (client : ℕ)
  | openDir (uri : String) (answer : Except NativeFailure ℤ)
  | openFile (uri : String) (answer : Except NativeFailure ℤ)
  | facade (m : FacadeMethod)
  | file (i : ℕ) (m : FileMethod)
  | dir (i : ℕ) (m : DirMethod)

namespace NativeSambaFacade

/-- One operation. What it returns or throws is its caller's affair. -/
def step (s : NativeSambaFacade) : LooperOp → NativeSambaFacade
  | .reset client => s.reset client
  | .openDir uri a => (s.openDir uri a).2
  | .openFile uri a => (s.openFile uri a).2
  | .facade m => m.run s
  | .file i m =>
    match s.files[i]? with
    | some f => { s.pass (m.run f).2 with files := s.files.set i (m.run f).1 }
    | none => s
  | .dir i m =>
    match s.dirs[i]? with
    | some d => { s.pass (m.run d).2 with dirs := s.dirs.set i (m.run d).1 }
    | none => s

end NativeSambaFacade

end SambaProvider

import Mathlib.Algebra.Group.Nat.Defs
import Mathlib.Data.List.Basic
import SambaProvider.Base.Exn
import SambaProvider.Lib.Prog

/-!
# Reading and writing a document through a pipe

`openDocument` makes a reliable pipe, keeps one end for a task and hands
the other to the client. `ReadFileTask` copies the file on the share
into the pipe, `WriteFileTask` copies the pipe into the file. Both are
programs over the calls they make; a `Script` fixes how the bytes are
split, how much each write stores and which calls fail.
-/

namespace SambaProvider

open Lib

/-- An exception `catch (IOException e)` catches. -/
abbrev IOExn := { e : Exn // e.isIOException = true }

@[simp] theorem IOExn.isIOException_val (e : IOExn) : e.1.isIOException = true := e.2

/-- The statuses of `OnTaskFinishedCallback`. -/
inductive TaskStatus
  | succeeded
  | failed
  | cancelled
deriving DecidableEq, Repr

/-! ## The reliable pipe -/

/-- The ends of a pipe, `pipe[0]` and `pipe[1]`. -/
inductive PipeEnd
  | read
  | write
deriving DecidableEq, Repr

namespace PipeEnd

/-- The end the peer holds. -/
def peer : PipeEnd → PipeEnd
  | .read => .write
  | .write => .read

end PipeEnd

/-- What the peer of a closed end is told. -/
inductive CloseStatus
  | ok
  | error (message : String)
deriving DecidableEq, Repr

/-- A reliable pipe: the bytes written to it so far, and the status each
end was closed with. -/
structure Pipe where
  bytes : List UInt8 := []
  readEnd : Option CloseStatus := none
  writeEnd : Option CloseStatus := none
deriving DecidableEq, Repr

namespace Pipe

/-- The status an end was closed with. -/
def status (p : Pipe) : PipeEnd → Option CloseStatus
  | .read => p.readEnd
  | .write => p.writeEnd

/-- `close` and `closeWithError` of a descriptor: the first one fixes
the status, a later one does nothing. -/
def close (p : Pipe) (e : PipeEnd) (st : CloseStatus) : Pipe :=
  match e with
  | .read => { p with readEnd := p.readEnd.or (some st) }
  | .write => { p with writeEnd := p.writeEnd.or (some st) }

@[simp] theorem bytes_close (p : Pipe) (e : PipeEnd) (st : CloseStatus) :
    (p.close e st).bytes = p.bytes := by
  cases e <;> rfl

@[simp] theorem status_close (p : Pipe) (e : PipeEnd) (st : CloseStatus) :
    (p.close e st).status e = (p.status e).or (some st) := by
  cases e <;> rfl

/-- `checkError` of the end `e` raises: its peer was closed with an
error. -/
def ErrorSeenBy (p : Pipe) (e : PipeEnd) : Prop := ∃ m, p.status e.peer = some (.error m)

/-- A client at the read end has come to an end of stream with no error
behind it. -/
def CleanEnd (p : Pipe) : Prop := p.status PipeEnd.read.peer = some .ok

end Pipe

/-! ## What a transfer meets -/

/-- `ByteBufferPool.BUFFER_CAPACITY`. -/
def bufferCapacity : ℕ := 1024 * 1024

/-- `Integer.MAX_VALUE`. -/
def intMaxValue : ℕ := 2 ^ 31 - 1

/-- One way of splitting a byte sequence into what single reads into a
buffer return: no piece is empty and none is larger than the buffer. -/
structure Pieces where
  list : List (List UInt8)
  ne_nil : ∀ b ∈ list, b ≠ []
  length_le : ∀ b ∈ list, b.length ≤ bufferCapacity

/-- The byte sequence that is split. -/
def Pieces.content (ps : Pieces) : List UInt8 := ps.list.flatten

/-- The circumstances of one transfer. -/
structure Script where
  /-- What the reads return: those of the file in a download, those of
  the pipe in an upload. -/
  pieces : Pieces
  /-- The exception of `openFile`. -/
  openFault : Option IOExn
  /-- The exception of the n-th `SmbFile.read` or `SmbFile.write`. -/
  callFault : ℕ → Option IOExn
  /-- The exception of `SmbFile.close`. -/
  closeFault : Option IOExn
  /-- How many bytes the n-th `SmbFile.write` is ready to store. -/
  ready : ℕ → ℕ

/-! ## The tasks -/

/-- The calls the tasks make: on the share's file, on the descriptor
they hold, and to the completion callback. -/
inductive Call
  | openFile (mode : String)
  | readFile (maxLen : ℕ)
  | writeFile (buffer : List UInt8)
  | closeFile
  | readPfd (maxLen : ℕ)
  | writePfd (buffer : List UInt8)
  | closePfd
  | closePfdWithError (message : String)
  | onTaskFinished (status : TaskStatus)

/-- What each call answers. -/
@[reducible] def Call.Answer : Call → Type
  | .openFile _ => Except Exn Unit
  | .readFile _ => Except Exn (List UInt8)
  | .writeFile _ => Except Exn ℕ
  | .closeFile => Except Exn Unit
  | .readPfd _ => Except Exn (List UInt8)
  | .writePfd _ => Except Exn Unit
  | .closePfd => Except Exn Unit
  | .closePfdWithError _ => Except Exn Unit
  | .onTaskFinished _ => Unit

/-- A task's code. -/
abbrev TaskProg (α : Type) := Prog Call Call.Answer Exn α

namespace TaskProg

def openFile (mode : String) : TaskProg Unit := .act (.openFile mode) .ofExcept

def readFile (maxLen : ℕ) : TaskProg (List UInt8) := .act (.readFile maxLen) .ofExcept

def writeFile (buffer : List UInt8) : TaskProg ℕ := .act (.writeFile buffer) .ofExcept

def closeFile : TaskProg Unit := .act .closeFile .ofExcept

def readPfd (maxLen : ℕ) : TaskProg (List UInt8) := .act (.readPfd maxLen) .ofExcept

def writePfd (buffer : List UInt8) : TaskProg Unit := .act (.writePfd buffer) .ofExcept

def closePfd : TaskProg Unit := .act .closePfd .ofExcept

/-- `closeWithError`, which is tried: an `IOException` of its own is
logged. -/
def closePfdWithError (message : String) : TaskProg Unit :=
  (Prog.act (.closePfdWithError message) .ofExcept : TaskProg Unit).catching Exn.isIOException
    fun _ => .pure ()

def onTaskFinished (status : TaskStatus) : TaskProg Unit :=
  .act (.onTaskFinished status) .pure

end TaskProg

open TaskProg

namespace ReadFileTask

/-- The loop of `doInBackground`, for at most `fuel` rounds. -/
def copy : ℕ → TaskProg Unit
  | 0 => .outOfFuel
  | fuel + 1 => do
    -- `SambaFile.read` asks for no more than the buffer holds
    let buf ← readFile (min intMaxValue bufferCapacity)
    if buf.length > 0 then
      writePfd buf
      copy fuel

def doInBackground (fuel : ℕ) : TaskProg Unit :=
  (Prog.withResource closePfd do
    openFile "r"
    Prog.withResource closeFile (copy fuel)).catching Exn.isIOException
  fun e => closePfdWithError e.message

end ReadFileTask

namespace WriteFileTask

/-- The loop of `doInBackground`, for at most `fuel` rounds. The count
`SmbFile.write` returns is not used. -/
def copy : ℕ → TaskProg Unit
  | 0 => .outOfFuel
  | fuel + 1 => do
    let buf ← readPfd bufferCapacity
    if buf.length > 0 then
      let _ ← writeFile buf
      copy fuel

def doInBackground (fuel : ℕ) : TaskProg Unit :=
  (Prog.withResource closePfd do
    openFile "w"
    Prog.withResource closeFile (copy fuel)).catching Exn.isIOException
  fun e => closePfdWithError e.message

def onPostExecute : TaskProg Unit := onTaskFinished .succeeded

/-- The task as `AsyncTask` runs it. -/
def execute (fuel : ℕ) : TaskProg Unit := do
  doInBackground fuel
  onPostExecute

end WriteFileTask

/-- `openDocumentPreO`: the end of the pipe the client gets, and the task
started on the other one. -/
def openDocumentPreO (mode : String) : Except Exn (PipeEnd × (ℕ → TaskProg Unit)) :=
  if mode = "r" then .ok (.read, ReadFileTask.doInBackground)
  else if mode = "w" then .ok (.write, WriteFileTask.execute)
  else .error ⟨.unsupportedOperation, "Mode " ++ mode ++ " is not supported"⟩

/-! ## Running a task -/

/-- The state around a running task. -/
structure Transfer where
  /-- The end of the pipe the task holds. -/
  pfd : PipeEnd
  pipe : Pipe := {}
  /-- What the reads have not returned yet. -/
  pending : List (List UInt8)
  /-- How often the file was read or written. -/
  calls : ℕ := 0
  /-- The file on the share, and the position in it. -/
  file : List UInt8 := []
  offset : ℕ := 0
  /-- The exceptions the share's file raised. -/
  raised : List Exn := []
  /-- What the completion callback was given. -/
  finished : List TaskStatus := []

namespace Transfer

/-- Overwrite what stands at an offset, at most the end of the bytes. -/
def writeAt (bytes : List UInt8) (offset : ℕ) (new : List UInt8) : List UInt8 :=
  bytes.take offset ++ new ++ bytes.drop (offset + new.length)

/-- The answer of a call that may fail, with the exception recorded. -/
def answer {α : Type} (t : Transfer) (fault : Option IOExn) (ok : α × Transfer) :
    Except Exn α × Transfer :=
  match fault with
  | some e => (.error e.1, { t with raised := t.raised ++ [e.1] })
  | none => (.ok ok.1, ok.2)

/-- How many bytes a write of `n` bytes stores when the layer below is
ready for `ready`: at least one, at most all. -/
def stored (ready n : ℕ) : ℕ := min n (max 1 ready)

/-- One call of a task. The pipe is a reliable one, and raises nothing. -/
def exec (sc : Script) : (c : Call) → Transfer → c.Answer × Transfer
  | .openFile mode, t =>
    -- `O_TRUNC` for "w"
    answer t sc.openFault ((), if mode = "w" then { t with file := [], offset := 0 } else t)
  | .readFile _, t =>
    answer { t with calls := t.calls + 1 } (sc.callFault t.calls)
      (t.pending.headD [], { t with calls := t.calls + 1, pending := t.pending.tail })
  | .writeFile buf, t =>
    let k := stored (sc.ready t.calls) buf.length
    answer { t with calls := t.calls + 1 } (sc.callFault t.calls)
      (k, { t with
        calls := t.calls + 1
        file := writeAt t.file t.offset (buf.take k)
        offset := t.offset + k })
  | .closeFile, t => answer t sc.closeFault ((), t)
  | .readPfd _, t => (.ok (t.pending.headD []), { t with pending := t.pending.tail })
  | .writePfd buf, t => (.ok (), { t with pipe.bytes := t.pipe.bytes ++ buf })
  | .closePfd, t => (.ok (), { t with pipe := t.pipe.close t.pfd .ok })
  | .closePfdWithError m, t => (.ok (), { t with pipe := t.pipe.close t.pfd (.error m) })
  | .onTaskFinished st, t => ((), { t with finished := t.finished ++ [st] })

/-- A transfer that has not begun, for a client at one end of the
pipe. -/
def start (clientEnd : PipeEnd) (sc : Script) (file : List UInt8) : Transfer :=
  { pfd := clientEnd.peer, pending := sc.pieces.list, file := file }

/-- The transfer `openDocument` starts, from the opening of the document
to the end of the task. The loops read each piece once and then find the
end. -/
def openDocument (mode : String) (sc : Script) (file : List UInt8) :
    Except Exn (Result Exn Unit × Transfer) := do
  let (clientEnd, task) ← openDocumentPreO mode
  return (task (sc.pieces.list.length + 1)).run (exec sc) (start clientEnd sc file)

end Transfer

end SambaProvider

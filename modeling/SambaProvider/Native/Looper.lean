import Mathlib.Data.Int.Notation
import Mathlib.Data.List.Basic
import Mathlib.Logic.Function.Basic
import SambaProvider.Base.Exn

/-!
# Calls through the looper

`SambaFacadeClient`, `SambaDirClient` and `SambaFileClient` pass every
call to the looper thread: a pooled `MessageValues` carries the
arguments there and the result back, and its monitor makes the caller
wait. The steps are the ones Java's monitors allow, so a waiting thread
may wake up without having been notified. Any number of threads take
part; each makes any calls, one after the other.
-/

namespace SambaProvider

/-! ## The values a message carries -/

/-- A reference to an object of the program. -/
abbrev Obj := ℕ

/-- What a call gives back. -/
inductive Value
  | unit
  | int (n : ℤ)
  | long (n : ℤ)
  | obj (o : Option Obj)
deriving DecidableEq, Repr

/-- How a call ends, on the looper's side and on the caller's. -/
abbrev Outcome := Except Exn Value

/-- The calls of the three clients, with their arguments. -/
inductive Request
  -- `SambaFacadeClient`
  | reset
  | openDir (uri : String)
  | stat (uri : String)
  | createFile (uri : String)
  | mkdir (uri : String)
  | rename (uri newUri : String)
  | unlink (uri : String)
  | rmdir (uri : String)
  | openFile (uri mode : String)
  -- `SambaDirClient`
  | readDir
  | closeDir
  -- `SambaFileClient`
  | read (buffer : Option Obj) (maxLen : ℤ)
  | write (buffer : Option Obj) (length : ℤ)
  | seek (offset : ℤ)
  | fstat
  | closeFile
deriving DecidableEq, Repr

/-- `MessageValues`. -/
structure MessageValues where
  mObj : Option Obj := none
  mInt : ℤ := 0
  mLong : ℤ := 0
  mException : Option Exn := none
  mRuntimeException : Option Exn := none
deriving DecidableEq, Repr

namespace MessageValues

def checkException (v : MessageValues) : Except Exn Unit :=
  match v.mException, v.mRuntimeException with
  | some e, _ => .error e
  | none, some e => .error e
  | none, none => .ok ()

def getObj (v : MessageValues) : Except Exn (Option Obj) := v.checkException.map fun _ => v.mObj

def getInt (v : MessageValues) : Except Exn ℤ := v.checkException.map fun _ => v.mInt

def getLong (v : MessageValues) : Except Exn ℤ := v.checkException.map fun _ => v.mLong

/-- The `catch` blocks of `processMessage`. -/
def setThrown (v : MessageValues) (e : Exn) : MessageValues :=
  if e.isIOException then { v with mException := some e }
  else { v with mRuntimeException := some e }

end MessageValues

namespace Request

/-- What the caller puts into the values before it sends the message.
The length of a write and the strings of the facade's calls travel in
the message itself. -/
def prepare : Request → MessageValues → MessageValues
  | .read buffer maxLen, v => { v with mInt := maxLen, mObj := buffer }
  | .write buffer _, v => { v with mObj := buffer }
  | .seek offset, v => { v with mLong := offset }
  | _, v => v

/-- The call the implementation gets: some arguments are read back from
the values. -/
def arguments : Request → MessageValues → Except Exn Request
  | .read _ _, v => do
    let maxLen ← v.getInt
    let buffer ← v.getObj
    return .read buffer maxLen
  | .write _ length, v => do
    let buffer ← v.getObj
    return .write buffer length
  | .seek _, v => do
    let offset ← v.getLong
    return .seek offset
  | r, _ => .ok r

/-- What `processMessage` stores of what the implementation did. -/
def store (r : Request) (out : Outcome) (v : MessageValues) : MessageValues :=
  match out with
  | .error e => v.setThrown e
  | .ok x =>
    match r, x with
    | .read _ _, .int n => { v with mInt := n }
    | .write _ _, .int n => { v with mInt := n }
    | .seek _, .long n => { v with mLong := n }
    | .openDir _, .obj o => { v with mObj := o }
    | .stat _, .obj o => { v with mObj := o }
    | .openFile _ _, .obj o => { v with mObj := o }
    | .readDir, .obj o => { v with mObj := o }
    | .fstat, .obj o => { v with mObj := o }
    | _, _ => v

/-- What the caller makes of the values when `enqueue` has returned. -/
def result : Request → MessageValues → Outcome
  | .reset, _ => .ok .unit
  | .openDir _, v => v.getObj.map .obj
  | .stat _, v => v.getObj.map .obj
  | .createFile _, v => v.checkException.map fun _ => .unit
  | .mkdir _, v => v.checkException.map fun _ => .unit
  | .rename _ _, v => v.checkException.map fun _ => .unit
  | .unlink _, v => v.checkException.map fun _ => .unit
  | .rmdir _, v => v.checkException.map fun _ => .unit
  | .openFile _ _, v => v.getObj.map .obj
  | .readDir, v => v.getObj.map .obj
  | .closeDir, v => v.checkException.map fun _ => .unit
  | .read _ _, v => v.getInt.map .int
  | .write _ _, v => v.getInt.map .int
  | .seek _, v => v.getLong.map .long
  | .fstat, v => v.getObj.map .obj
  | .closeFile, v => v.checkException.map fun _ => .unit

/-- What the implementation of a call can do: return a value of its
type, or throw. `NativeSambaFacade.reset` throws nothing. -/
def CanEnd : Request → Outcome → Prop
  | .reset, out => out = .ok .unit
  | _, .error _ => True
  | .openDir _, .ok x => ∃ o, x = .obj o
  | .stat _, .ok x => ∃ o, x = .obj o
  | .openFile _ _, .ok x => ∃ o, x = .obj o
  | .readDir, .ok x => ∃ o, x = .obj o
  | .fstat, .ok x => ∃ o, x = .obj o
  | .read _ _, .ok x => ∃ n, x = .int n
  | .write _ _, .ok x => ∃ n, x = .int n
  | .seek _, .ok x => ∃ n, x = .long n
  | _, .ok x => x = .unit

/-- The values after `processMessage`, where the implementation, if it
is called, ends with `out`. -/
def process (r : Request) (out : Outcome) (v : MessageValues) : MessageValues :=
  match r.arguments v with
  | .ok _ => r.store out v
  | .error e => v.setThrown e

/-- **The arguments arrive** as they were sent. -/
theorem arguments_prepare (r : Request) : r.arguments (r.prepare {}) = .ok r := by
  cases r <;> rfl

/-- **The outcome arrives** as the implementation produced it. -/
theorem result_store {r : Request} {out : Outcome} (h : r.CanEnd out) :
    r.result (r.store out (r.prepare {})) = out := by
  rcases out with e | x
  · by_cases he : e.isIOException = true <;> cases r <;>
      simp_all [CanEnd, store, result, prepare, MessageValues.setThrown, MessageValues.getObj,
        MessageValues.getInt, MessageValues.getLong, MessageValues.checkException, Except.map]
  · cases r <;> simp only [CanEnd] at h <;> try obtain ⟨y, rfl⟩ := h
    all_goals rfl

end Request

/-! ## The threads, the looper and the monitors -/

/-- A call: the instance it has taken, what it asks, and a number that
tells its message from all others. -/
structure LooperCall where
  values : ℕ
  request : Request
  id : ℕ
deriving DecidableEq, Repr

/-- How far a thread is with its call. -/
inductive Stage
  /-- It has obtained the instance. -/
  | obtained
  /-- The arguments are stored. -/
  | prepared
  /-- Inside `synchronized`. -/
  | entered
  /-- The message is sent, and the monitor still held. -/
  | sent
  /-- In `wait`. -/
  | waiting
  /-- Woken up, by the handler or for no reason, and without the monitor. -/
  | woken (spurious : Bool)
  /-- `enqueue` has returned. -/
  | returned
  /-- The outcome is read. -/
  | answered (out : Outcome)
  /-- `close` has cleared the fields. -/
  | cleared (out : Outcome)
deriving DecidableEq

/-- How far the handler is with a message. -/
inductive HandlerStage
  /-- The looper has taken it from the queue. -/
  | taken
  /-- `handleMessage` is inside `synchronized`. -/
  | entered
  /-- `processMessage` is done. -/
  | processed
  /-- And the waiting thread is notified. -/
  | notified
deriving DecidableEq

/-- Who holds a monitor. -/
inductive Holder (T : Type)
  | client (t : T)
  | looper
deriving DecidableEq

/-- The pool's size. -/
def poolSize : ℕ := 20

/-- The threads, the looper, the message queue, the pool and the
monitors. The last four fields only record what happened. -/
structure LooperState (T : Type) where
  clients : T → Option (LooperCall × Stage)
  handler : Option (LooperCall × HandlerStage)
  queue : List LooperCall
  pool : List ℕ
  /-- Instances from here on do not exist yet. -/
  fresh : ℕ
  /-- And no call has been given these numbers. -/
  calls : ℕ
  values : ℕ → MessageValues
  monitor : ℕ → Option (Holder T)
  /-- The call the implementation was given for a message. -/
  asked : ℕ → Option Request
  /-- What it produced for it. -/
  produced : ℕ → Option Outcome
  /-- What a finished call returned or threw, with its request. -/
  results : ℕ → Option (Request × Outcome)
  /-- The handler has written into an instance whose call had released
  it. -/
  lateWrite : Bool

namespace LooperState

variable {T : Type} [DecidableEq T]

/-- No call has been made. -/
def init : LooperState T where
  clients := fun _ => none
  handler := none
  queue := []
  pool := []
  fresh := 0
  calls := 0
  values := fun _ => {}
  monitor := fun _ => none
  asked := fun _ => none
  produced := fun _ => none
  results := fun _ => none
  lateWrite := false

/-- Thread `t` goes on to another stage of its call, or ends it. -/
def goTo (s : LooperState T) (t : T) (at' : Option (LooperCall × Stage)) : LooperState T :=
  { s with clients := Function.update s.clients t at' }

/-- The monitor of an instance changes hands. -/
def hold (s : LooperState T) (i : ℕ) (h : Option (Holder T)) : LooperState T :=
  { s with monitor := Function.update s.monitor i h }

/-- The fields of an instance are written. -/
def write (s : LooperState T) (i : ℕ) (v : MessageValues) : LooperState T :=
  { s with values := Function.update s.values i v }

/-- The thread that sent a message is still in that call. -/
def InCall (s : LooperState T) (c : LooperCall) : Prop := ∃ t st, s.clients t = some (c, st)

/-- The steps. -/
inductive Act (T : Type)
  | obtain (t : T)
  | prepare (t : T)
  | enter (t : T)
  | send (t : T)
  | wait (t : T)
  | wakeSpuriously (t : T)
  | resume (t : T)
  | read (t : T)
  | clear (t : T)
  | release (t : T)
  | take
  | enterHandler
  | process
  | notify
  | leaveHandler

/-- What a step does. -/
inductive Step : LooperState T → Act T → LooperState T → Prop
  /-- `MessageValues.obtain`, from the pool. -/
  | obtainPooled {s : LooperState T} {t : T} {i : ℕ} {pool : List ℕ} {r : Request} :
      s.clients t = none → s.pool = i :: pool →
      Step s (.obtain t)
        { s.goTo t (some (⟨i, r, s.calls⟩, .obtained)) with pool := pool, calls := s.calls + 1 }
  /-- `MessageValues.obtain`, of a new instance. -/
  | obtainNew {s : LooperState T} {t : T} {r : Request} :
      s.clients t = none → s.pool = [] →
      Step s (.obtain t)
        { s.goTo t (some (⟨s.fresh, r, s.calls⟩, .obtained)) with
          fresh := s.fresh + 1, calls := s.calls + 1 }
  /-- The arguments are stored. -/
  | prepare {s : LooperState T} {t : T} {c : LooperCall} :
      s.clients t = some (c, .obtained) →
      Step s (.prepare t)
        ((s.goTo t (some (c, .prepared))).write c.values (c.request.prepare (s.values c.values)))
  /-- `synchronized (msg.obj)` of `enqueue`. -/
  | enter {s : LooperState T} {t : T} {c : LooperCall} :
      s.clients t = some (c, .prepared) → s.monitor c.values = none →
      Step s (.enter t) ((s.goTo t (some (c, .entered))).hold c.values (some (.client t)))
  /-- `sendMessage`. -/
  | send {s : LooperState T} {t : T} {c : LooperCall} :
      s.clients t = some (c, .entered) →
      Step s (.send t) { s.goTo t (some (c, .sent)) with queue := s.queue ++ [c] }
  /-- `wait` gives the monitor up. -/
  | wait {s : LooperState T} {t : T} {c : LooperCall} :
      s.clients t = some (c, .sent) →
      Step s (.wait t) ((s.goTo t (some (c, .waiting))).hold c.values none)
  /-- A spurious wake-up. -/
  | wakeSpuriously {s : LooperState T} {t : T} {c : LooperCall} :
      s.clients t = some (c, .waiting) →
      Step s (.wakeSpuriously t) (s.goTo t (some (c, .woken true)))
  /-- A woken thread gets the monitor again, and `enqueue` returns. -/
  | resume {s : LooperState T} {t : T} {c : LooperCall} {spurious : Bool} :
      s.clients t = some (c, .woken spurious) → s.monitor c.values = none →
      Step s (.resume t) (s.goTo t (some (c, .returned)))
  /-- The caller reads what the values hold now. -/
  | read {s : LooperState T} {t : T} {c : LooperCall} :
      s.clients t = some (c, .returned) →
      Step s (.read t) (s.goTo t (some (c, .answered (c.request.result (s.values c.values)))))
  /-- `close` clears the fields. -/
  | clear {s : LooperState T} {t : T} {c : LooperCall} {out : Outcome} :
      s.clients t = some (c, .answered out) →
      Step s (.clear t) ((s.goTo t (some (c, .cleared out))).write c.values {})
  /-- And returns the instance to the pool, unless that is full. -/
  | release {s : LooperState T} {t : T} {c : LooperCall} {out : Outcome} :
      s.clients t = some (c, .cleared out) →
      Step s (.release t)
        { s.goTo t none with
          pool := if s.pool.length < poolSize then c.values :: s.pool else s.pool
          results := Function.update s.results c.id (some (c.request, out)) }
  /-- The looper takes the next message. -/
  | take {s : LooperState T} {c : LooperCall} {queue : List LooperCall} :
      s.handler = none → s.queue = c :: queue →
      Step s .take { s with handler := some (c, .taken), queue := queue }
  /-- `synchronized (msg.obj)` of `handleMessage`. -/
  | enterHandler {s : LooperState T} {c : LooperCall} :
      s.handler = some (c, .taken) → s.monitor c.values = none →
      Step s .enterHandler
        ({ s with handler := some (c, .entered) }.hold c.values (some .looper))
  /-- `processMessage`, where the implementation is called. -/
  | process {s : LooperState T} {c : LooperCall} {r : Request} {out : Outcome} {late : Bool} :
      s.handler = some (c, .entered) →
      c.request.arguments (s.values c.values) = .ok r → r.CanEnd out →
      (late = true ↔ ¬ s.InCall c) →
      Step s .process
        { s.write c.values (c.request.process out (s.values c.values)) with
          handler := some (c, .processed)
          asked := Function.update s.asked c.id (some r)
          produced := Function.update s.produced c.id (some out)
          lateWrite := s.lateWrite || late }
  /-- `processMessage`, where reading the arguments throws. -/
  | processThrown {s : LooperState T} {c : LooperCall} {e : Exn} {out : Outcome} {late : Bool} :
      s.handler = some (c, .entered) →
      c.request.arguments (s.values c.values) = .error e →
      (late = true ↔ ¬ s.InCall c) →
      Step s .process
        { s.write c.values (c.request.process out (s.values c.values)) with
          handler := some (c, .processed)
          lateWrite := s.lateWrite || late }
  /-- `notify` wakes one of the threads that wait. -/
  | notifyOne {s : LooperState T} {c c' : LooperCall} {t : T} :
      s.handler = some (c, .processed) →
      s.clients t = some (c', .waiting) → c'.values = c.values →
      Step s .notify
        { s.goTo t (some (c', .woken false)) with handler := some (c, .notified) }
  /-- `notify` where none waits. -/
  | notifyNone {s : LooperState T} {c : LooperCall} :
      s.handler = some (c, .processed) →
      (∀ t c', s.clients t = some (c', .waiting) → c'.values ≠ c.values) →
      Step s .notify { s with handler := some (c, .notified) }
  /-- `handleMessage` returns. -/
  | leaveHandler {s : LooperState T} {c : LooperCall} :
      s.handler = some (c, .notified) →
      Step s .leaveHandler ({ s with handler := none }.hold c.values none)

end LooperState

end SambaProvider

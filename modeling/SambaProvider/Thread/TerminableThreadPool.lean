import SambaProvider.Thread.AsyncTaskManage

/-!
# Tasks on pool threads

`AbsTerminableThread.java` with `TerminableThreadPool`: a task is started
once, and runs on a thread of the pool, which registers itself with the
asynchronous task manager before the task's body and takes itself out
after it. To cancel a task is to cancel what is registered for the thread it
was given, by a copy of the thread's id and hash code.

A thread runs one task after the other; in the body of a task, and where it
runs none, it starts and cancels others. Which of the tasks that wait a thread
takes is left open: the order in which the executor gives them out is nothing
to what is shown here.
-/

namespace SambaProvider

/-- The fields of a task. A copy of a `ThreadInfo` is an id and a hash
code. -/
structure TerminableThread (T : Type) where
  isStarted : Bool := false
  isCancel : Bool := true
  mThreadInfo : Option (T × ℤ) := none

/-- How far a thread is with `mRunnable`, by what it does next. -/
inductive RunStage
  /-- `if (isCancel) return`. -/
  | checking
  /-- `registerThread` is called. -/
  | registering
  /-- What it returns is stored in `mThreadInfo`. -/
  | storing
  /-- The body: `mTask.run()` and `run()`. -/
  | running
  /-- `mThreadInfo = null`. -/
  | clearing
  /-- `unregisterThread` is called. -/
  | unregistering
  /-- `isCancel = true`. -/
  | ending
deriving DecidableEq

/-- A thread that runs a task, with its hash code. -/
structure Run (K : Type) where
  task : K
  hashCode : ℤ
  stage : RunStage

/-- How far `start` is. -/
inductive StartStage
  /-- `if (isStarted) return`. -/
  | testing
  /-- `isStarted = true`. -/
  | setting
  /-- `isCancel = false`. -/
  | clearing
  /-- `addTask`. -/
  | adding
deriving DecidableEq

/-- How far `cancel` is. -/
inductive CancelStage (T : Type)
  /-- `isCancel = true`. -/
  | setting
  /-- `if (mThreadInfo != null)`. -/
  | testing
  /-- `mThreadInfo` is read again. -/
  | reading
  /-- `cancelAsyncTask` is called with what was read, -/
  | calling (copy : T × ℤ)
  /-- and has been. -/
  | waiting (copy : T × ℤ)

/-- What a thread is doing with the task `k`. -/
inductive TaskOp (T K : Type)
  | start (k : K) (stage : StartStage)
  | cancel (k : K) (stage : CancelStage T)

/-- What was done by `cancelAsyncTask`, to an info or to a registered task:
the task whose copy it had, and the one that made the registration. -/
structure Hit (K : Type) where
  handedTo : K
  madeFor : Option K

/-- The pool, its tasks and the threads. -/
structure TerminableThreadPool (T K : Type) where
  manager : AsyncTaskManage T := {}
  task : K → TerminableThread T := fun _ => {}
  queue : List K := []
  run : T → Option (Run K) := fun _ => none
  op : T → Option (TaskOp T K) := fun _ => none
  /-- The tasks that made the infos of a thread, and those in whose bodies
  its asynchronous tasks were registered, in the order of their numbers. -/
  infoTasks : T → List K := fun _ => []
  asyncTasks : T → List K := fun _ => []
  hits : List (Hit K) := []

namespace TerminableThreadPool

variable {T K : Type} [DecidableEq T] [DecidableEq K]

/-- What a thread does. -/
inductive Act (T K : Type)
  /-- It calls `start` or `cancel`. -/
  | start (t : T) (k : K)
  | cancel (t : T) (k : K)
  /-- A thread of the pool takes a task that waits. -/
  | take (t : T) (hashCode : ℤ) (k : K)
  /-- The body of its task calls `registerHttpTask`, -/
  | registerHttpTask (t : T)
  /-- returns, -/
  | returns (t : T)
  /-- or throws: the thread ends, and its id may be used again. -/
  | fails (t : T)
  /-- What it is doing goes on. -/
  | next (t : T)
  /-- The `onCancel` that its call has invoked throws. -/
  | throws (t : T)

section Step

variable (s : TerminableThreadPool T K)

/-- Fields of a task are set. -/
def setTask (k : K) (set : TerminableThread T → TerminableThread T) : TerminableThreadPool T K :=
  { s with task := Function.update s.task k (set (s.task k)) }

/-- A thread goes on in what it runs, -/
def setRun (t : T) (run : Option (Run K)) : TerminableThreadPool T K :=
  { s with run := Function.update s.run t run }

/-- or in what it does with a task. -/
def setOp (t : T) (op : Option (TaskOp T K)) : TerminableThreadPool T K :=
  { s with op := Function.update s.op t op }

/-- A call to the manager is made. -/
def call (t : T) (call : AsyncCall T) : TerminableThreadPool T K :=
  { s with manager := s.manager.lock t call }

/-- It is in no call. -/
def Free (t : T) : Prop := (s.manager.visit t).isNone ∧ (s.op t).isNone

instance (t : T) : Decidable (s.Free t) := inferInstanceAs (Decidable (_ ∧ _))

/-- It runs the body of a task. -/
def InBody (t : T) : Prop := (s.run t).any fun r => r.stage = .running

instance (t : T) : Decidable (s.InBody t) := inferInstanceAs (Decidable (_ = true))

/-- `start`. -/
def nextStart (t : T) (k : K) : StartStage → TerminableThreadPool T K
  | .testing => s.setOp t (if (s.task k).isStarted then none else some (.start k .setting))
  | .setting =>
    (s.setTask k fun task => { task with isStarted := true }).setOp t (some (.start k .clearing))
  | .clearing =>
    (s.setTask k fun task => { task with isCancel := false }).setOp t (some (.start k .adding))
  | .adding => { s with queue := s.queue ++ [k] }.setOp t none

/-- `cancel`. -/
def nextCancel (t : T) (k : K) : CancelStage T → TerminableThreadPool T K
  | .setting =>
    (s.setTask k fun task => { task with isCancel := true }).setOp t (some (.cancel k .testing))
  | .testing =>
    s.setOp t (if (s.task k).mThreadInfo.isSome then some (.cancel k .reading) else none)
  | .reading => s.setOp t ((s.task k).mThreadInfo.map fun copy => .cancel k (.calling copy))
  | .calling copy =>
    (s.call t (.cancelAsyncTask copy.1 copy.2)).setOp t (some (.cancel k (.waiting copy)))
  | .waiting _ => s.setOp t none

/-- `mRunnable`, but for the body. -/
def nextRun (t : T) (r : Run K) : Option (TerminableThreadPool T K) :=
  match r.stage with
  | .checking =>
    some (s.setRun t
      (if (s.task r.task).isCancel then none else some { r with stage := .registering }))
  | .registering =>
    some ((s.call t (.registerThread r.hashCode)).setRun t (some { r with stage := .storing }))
  | .storing =>
    some ((s.setTask r.task fun task => { task with mThreadInfo := some (t, r.hashCode) }).setRun t
      (some { r with stage := .running }))
  | .running => none
  | .clearing =>
    some ((s.setTask r.task fun task => { task with mThreadInfo := none }).setRun t
      (some { r with stage := .unregistering }))
  | .unregistering =>
    some ((s.call t .unregisterThread).setRun t (some { r with stage := .ending }))
  | .ending =>
    some ((s.setTask r.task fun task => { task with isCancel := true }).setRun t none)

/-- What a call to the manager is about to do is noted down. -/
def record (t : T) (v : Visit T) : TerminableThreadPool T K :=
  let x := v.call.threadId t
  match v.stage, s.run t, s.op t with
  | .creating _, some r, _ =>
    { s with infoTasks := Function.update s.infoTasks x (s.infoTasks x ++ [r.task]) }
  | .puttingTask, some r, _ =>
    { s with asyncTasks := Function.update s.asyncTasks x (s.asyncTasks x ++ [r.task]) }
  | .cancelling _ a, _, some (.cancel k _) =>
    { s with hits := s.hits ++ [⟨k, (s.asyncTasks x)[a]?⟩] }
  | .stopping i, _, some (.cancel k _) =>
    { s with hits := s.hits ++ [⟨k, (s.infoTasks x)[i]?⟩] }
  | _, _, _ => s

/-- A call to the manager goes on. -/
def nextVisit (t : T) (v : Visit T) (a : AsyncTaskManage.Act T) :
    Option (TerminableThreadPool T K) :=
  (s.manager.step a).map fun manager => { s.record t v with manager }

/-- What a thread is doing goes on. -/
def nextStep (t : T) : Option (TerminableThreadPool T K) :=
  match s.manager.visit t, s.op t, s.run t with
  | some v, _, _ => s.nextVisit t v (.next t)
  | none, some (.start k stage), _ => some (s.nextStart t k stage)
  | none, some (.cancel k stage), _ => some (s.nextCancel t k stage)
  | none, none, some r => s.nextRun t r
  | none, none, none => none

/-- It may make a call on a task. -/
def MayCall (t : T) : Prop := s.Free t ∧ ((s.run t).isNone ∨ s.InBody t)

instance (t : T) : Decidable (s.MayCall t) := inferInstanceAs (Decidable (_ ∧ _))

/-- One step of one thread. -/
def step : Act T K → Option (TerminableThreadPool T K)
  | .start t k => if s.MayCall t then some (s.setOp t (some (.start k .testing))) else none
  | .cancel t k => if s.MayCall t then some (s.setOp t (some (.cancel k .setting))) else none
  | .take t hashCode k =>
    if s.Free t ∧ (s.run t).isNone ∧ k ∈ s.queue then
      some ({ s with queue := s.queue.erase k }.setRun t (some ⟨k, hashCode, .checking⟩))
    else none
  | .registerHttpTask t =>
    if s.Free t ∧ s.InBody t then
      (s.run t).map fun r => s.call t (.registerHttpTask r.hashCode)
    else none
  | .returns t =>
    if s.Free t ∧ s.InBody t then
      some (s.setRun t ((s.run t).map fun r => { r with stage := .clearing }))
    else none
  | .fails t => if s.Free t ∧ s.InBody t then some (s.setRun t none) else none
  | .next t => s.nextStep t
  | .throws t => (s.manager.visit t).bind fun v => s.nextVisit t v (.throws t)

/-- **No task is hit by another's cancel**: an info is in the map only while
its thread is running the task that made it, and what is done with the copy
that was handed to a task is done to the task's own registrations. -/
structure Separate : Prop where
  running : ∀ x i, (s.manager.registry x).info = some i →
    ∃ r, s.run x = some r ∧ (s.infoTasks x)[i]? = some r.task
  hits : ∀ hit ∈ s.hits, hit.madeFor = some hit.handedTo

end Step

end TerminableThreadPool

end SambaProvider

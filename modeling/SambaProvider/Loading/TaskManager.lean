import Mathlib.Data.List.Basic

/-!
# Loading tasks and the cursors that wait for them

`TaskManager` runs one task at a time for a URI and ignores a task that
is submitted while another one is registered and not finished. A query
of a directory's children submits a task, and marks its cursor as
loading whether the task was taken or ignored. This is the state of all
that for one URI: the tasks with their life cycle as `AsyncTask` runs
it, the registered one, and the cursors.
-/

namespace SambaProvider

/-- The tasks that are submitted under the URI of a directory. -/
inductive TaskKind
  | loadDocument
  | loadChildren
  | loadStat
  | mountServer
deriving DecidableEq, Repr

/-- `AsyncTask.Status`. -/
inductive AsyncStatus
  | pending
  | running
  | finished
deriving DecidableEq, Repr

/-- How far the work of a task is. -/
inductive Work
  | notStarted
  /-- In `doInBackground`. -/
  | background
  /-- The result waits for the UI thread; `ok` if `doInBackground` came
  to a result, not if it failed or never ran. -/
  | posted (ok : Bool)
  /-- `onPostExecute` or `onCancelled` has run. -/
  | calledBack
deriving DecidableEq, Repr

/-- A task. -/
structure LoadingTask where
  kind : TaskKind
  status : AsyncStatus := .pending
  work : Work := .notStarted
  cancelled : Bool := false
deriving DecidableEq, Repr

namespace LoadingTask

/-- The end of the task notifies the URI. A mount never does; the loaders
of documents and children do not when they are cancelled without a
result. -/
def notifies (t : LoadingTask) (ok : Bool) : Bool :=
  match t.kind with
  | .loadDocument => !t.cancelled || ok
  | .loadChildren => !t.cancelled || ok
  | .loadStat => true
  | .mountServer => false

/-- `cancel(false)`: the task is told, and goes on if it has begun. -/
def cancel (t : LoadingTask) : LoadingTask :=
  if t.status = .finished then t else { t with cancelled := true }

end LoadingTask

/-- Where a cursor is. -/
inductive CursorPlace
  /-- The query that makes it has not returned. -/
  | underWay
  | returned
  | closed
deriving DecidableEq, Repr

/-- A `DocumentCursor`: `EXTRA_LOADING`, its loading task, and whether its
URI was notified since it was returned. -/
structure LoadingCursor where
  loading : Bool
  loadingTask : Option ℕ
  place : CursorPlace := .underWay
  notified : Bool := false
deriving DecidableEq, Repr

namespace LoadingCursor

/-- The cursor's owner has been told that something loads, or will be,
and has not heard of it since. -/
def waiting (c : LoadingCursor) : Bool := c.loading && !c.notified && c.place != .closed

/-- `notifyChange` reaches the cursors that have been returned. -/
def notify (c : LoadingCursor) : LoadingCursor :=
  if c.place = .returned then { c with notified := true } else c

end LoadingCursor

/-- What `queryChildDocuments` finds in the cache. -/
inductive CacheView
  | miss
  | entry (hasChildren expired someNeedsStat : Bool)
deriving DecidableEq, Repr

/-- The task `queryChildDocuments` submits. -/
def CacheView.loadingTask : CacheView → Option TaskKind
  | .miss => some .loadDocument
  | .entry hasChildren expired someNeedsStat =>
    if !hasChildren || expired then some .loadChildren
    else if someNeedsStat then some .loadStat
    else none

/-- The tasks, the one that is registered, and the cursors; tasks and
cursors are counted in the order they were made. -/
structure Loading where
  tasks : List LoadingTask := []
  registered : Option ℕ := none
  cursors : List LoadingCursor := []
deriving DecidableEq, Repr

namespace Loading

variable (s : Loading)

/-- The registered task, unless it is finished. -/
def current : Option LoadingTask :=
  match s.registered with
  | none => none
  | some i => s.tasks[i]?.filter fun t => t.status != .finished

/-- `TaskManager.runTask` with a new task: it is registered and executed,
or ignored. -/
def runTask (kind : TaskKind) : Loading :=
  match s.current with
  | none => { s with
      tasks := s.tasks ++ [{ kind := kind, status := .running }]
      registered := some s.tasks.length }
  | some _ => { s with tasks := s.tasks ++ [{ kind := kind }] }

/-- Change one task. -/
def setTask (i : ℕ) (t : LoadingTask) : Loading := { s with tasks := s.tasks.set i t }

/-- Change one cursor. -/
def setCursor (i : ℕ) (c : LoadingCursor) : Loading := { s with cursors := s.cursors.set i c }

/-- The steps of queries, cursors and tasks. -/
inductive Act
  /-- `queryChildDocuments` up to its last `runTask`. -/
  | query (found : CacheView)
  /-- And its return. -/
  | queryReturns (cursor : ℕ)
  | closeCursor (cursor : ℕ)
  /-- A task submitted by anybody else. -/
  | submit (kind : TaskKind)
  /-- `doInBackground` begins. -/
  | start (task : ℕ)
  /-- The task is cancelled before that. -/
  | skip (task : ℕ)
  | endBackground (task : ℕ) (ok : Bool)
  /-- `onPostExecute` or `onCancelled`. -/
  | callback (task : ℕ)
  /-- The status becomes `FINISHED`. -/
  | finish (task : ℕ)
  | cancel (task : ℕ)
deriving DecidableEq, Repr

/-- One step, where it is possible. -/
def step : Act → Option Loading
  | .query found =>
    match found.loadingTask with
    | none => some { s with cursors := s.cursors ++ [{ loading := false, loadingTask := none }] }
    | some kind =>
      let s' := s.runTask kind
      some { s' with
        cursors := s.cursors ++ [{ loading := true, loadingTask := some s.tasks.length }] }
  | .queryReturns i =>
    match s.cursors[i]? with
    | some c =>
      if c.place = .underWay then some (s.setCursor i { c with place := .returned }) else none
    | none => none
  | .closeCursor i =>
    match s.cursors[i]? with
    | some c =>
      if c.place = .returned then
        let s' := s.setCursor i { c with place := .closed }
        match c.loadingTask.bind fun j => s.tasks[j]?.map fun t => (j, t) with
        | some (j, t) => some (s'.setTask j t.cancel)
        | none => some s'
      else none
    | none => none
  | .submit kind => some (s.runTask kind)
  | .start i =>
    match s.tasks[i]? with
    | some t =>
      if t.status = .running ∧ t.work = .notStarted ∧ t.cancelled = false then
        some (s.setTask i { t with work := .background })
      else none
    | none => none
  | .skip i =>
    match s.tasks[i]? with
    | some t =>
      if t.status = .running ∧ t.work = .notStarted ∧ t.cancelled = true then
        some (s.setTask i { t with work := .posted false })
      else none
    | none => none
  | .endBackground i ok =>
    match s.tasks[i]? with
    | some t =>
      if t.status = .running ∧ t.work = .background then
        some (s.setTask i { t with work := .posted ok })
      else none
    | none => none
  | .callback i =>
    match s.tasks[i]? with
    | some t =>
      match t.work with
      | .posted ok =>
        if t.status = .running then
          let s' := s.setTask i { t with work := .calledBack }
          if t.notifies ok then some { s' with cursors := s.cursors.map LoadingCursor.notify }
          else some s'
        else none
      | _ => none
    | none => none
  | .finish i =>
    match s.tasks[i]? with
    | some t =>
      if t.status = .running ∧ t.work = .calledBack then
        some (s.setTask i { t with status := .finished })
      else none
    | none => none
  | .cancel i =>
    match s.tasks[i]? with
    | some t => some (s.setTask i t.cancel)
    | none => none

end Loading

end SambaProvider

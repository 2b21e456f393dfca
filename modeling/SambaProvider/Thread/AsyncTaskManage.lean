import Mathlib.Data.Int.Notation
import Mathlib.Data.Nat.Notation
import Mathlib.Logic.Function.Basic

/-!
# The asynchronous task manager

`AsyncTaskManage.java`: four methods, each a critical section for one
thread id. The lock object of an id is made on demand, and every thread
takes it out of the map when it leaves; a thread that waits still has the
object, and the next one to come gets another. What there is for an id (the
lock, the thread's info, its task) is nobody else's, so it is kept id by id,
and objects are numbered there in the order they are made. What
`registerHttpTask` returns is left out: nobody uses it.

`onCancel` is a client's, and runs inside the block of `cancelAsyncTask`. It
may call the manager: its thread then has a call in progress for each
`onCancel` it is in, and enters again the monitors that it holds.
-/

namespace SambaProvider

/-- `STATE_RUNING` and `STATE_STOP`. -/
inductive ThreadState
  | runing
  | stop
deriving DecidableEq, Repr

/-- `ThreadInfo`, without the id. -/
structure ThreadInfo where
  mHashCode : ℤ
  mState : ThreadState := .runing
  isRegister : Bool := false
  isCancel : Bool := false

/-- The methods; the first three are for the id of the thread that calls
them, and two of these look at its hash code. -/
inductive AsyncCall (T : Type)
  | registerThread (hashCode : ℤ)
  | unregisterThread
  | registerHttpTask (hashCode : ℤ)
  | cancelAsyncTask (threadId : T) (threadHashCode : ℤ)

/-- The id whose critical section a call of thread `t` is. -/
def AsyncCall.threadId {T : Type} (call : AsyncCall T) (t : T) : T :=
  match call with
  | .cancelAsyncTask threadId _ => threadId
  | _ => t

/-- How far a call is, by what it does next. -/
inductive VisitStage
  /-- It has its lock object, and waits for the monitor. -/
  | locked
  /-- Inside: the first access to a map. -/
  | entered
  /-- `registerThread`: a new info is put into the map. -/
  | creating (hashCode : ℤ)
  /-- `setRegister(true)`. -/
  | registering (i : ℕ)
  /-- `unregisterThread`: the task is removed. -/
  | removingTask
  /-- `registerHttpTask`: `getState`. -/
  | checking (i : ℕ)
  /-- The task is put into the map. -/
  | puttingTask
  /-- `cancelAsyncTask`: `isRegister`. -/
  | testing (i : ℕ)
  /-- `isCancel`. -/
  | testingCancel (i : ℕ)
  /-- The task is looked up. -/
  | lookingUp (i : ℕ)
  /-- `onCancel`. -/
  | cancelling (i r : ℕ)
  /-- `setCancel(true)`. -/
  | settingCancel (i : ℕ)
  /-- `setState(STATE_STOP)`. -/
  | stopping (i : ℕ)
  /-- `unlock`. -/
  | leaving
  /-- The monitor is given up. -/
  | unlocked
deriving DecidableEq

/-- Between entering the block and the call of `unlock`. -/
def VisitStage.Inside (stage : VisitStage) : Prop := stage ≠ .locked ∧ stage ≠ .unlocked

/-- A call in progress: the lock object it has got, and how far it is. -/
structure Visit (T : Type) where
  call : AsyncCall T
  lock : ℕ
  stage : VisitStage

/-- What is registered for one thread id. -/
structure Registry where
  /-- `mThreadInfoMap`, and the infos that were made. -/
  info : Option ℕ := none
  infos : ℕ → ThreadInfo := fun _ => ⟨0, .runing, false, false⟩
  made : ℕ := 0
  /-- `mAsyncTaskMap`, where a task is known by how many were put there
  before it; the tasks whose `onCancel` was invoked. -/
  task : Option ℕ := none
  registrations : ℕ := 0
  cancelled : List ℕ := []

/-- What there is for one thread id. -/
structure Slot (T : Type) where
  /-- `mLockMap`, and how many lock objects were made. -/
  lock : Option ℕ := none
  locks : ℕ := 0
  /-- Who holds the monitor of a lock object, and how often it has entered
  it again. -/
  holder : ℕ → Option (T × ℕ) := fun _ => none
  registry : Registry := {}

namespace Registry

variable {T : Type}

/-- A field of an info is set. -/
def setInfo (ρ : Registry) (i : ℕ) (set : ThreadInfo → ThreadInfo) : Registry :=
  { ρ with infos := Function.update ρ.infos i (set (ρ.infos i)) }

/-- `onCancel` of a registered task is invoked. -/
def cancel (ρ : Registry) (r : ℕ) : Registry := { ρ with cancelled := ρ.cancelled ++ [r] }

/-- What a call does inside, first. -/
def enter (ρ : Registry) : AsyncCall T → Registry × VisitStage
  | .registerThread hashCode =>
    match ρ.info with
    | some i =>
      if (ρ.infos i).mHashCode = hashCode then (ρ, .registering i) else (ρ, .creating hashCode)
    | none => (ρ, .creating hashCode)
  | .unregisterThread => ({ ρ with info := none }, .removingTask)
  | .registerHttpTask hashCode =>
    match ρ.info with
    | some i => if (ρ.infos i).mHashCode = hashCode then (ρ, .checking i) else (ρ, .leaving)
    | none => (ρ, .leaving)
  | .cancelAsyncTask _ _ =>
    match ρ.info with
    | some i => (ρ, .testing i)
    | none => (ρ, .leaving)

/-- What it does next. -/
def body (call : AsyncCall T) (ρ : Registry) : VisitStage → Registry × VisitStage
  | .entered => ρ.enter call
  | .creating hashCode =>
    ({ ρ with
        info := some ρ.made
        infos := Function.update ρ.infos ρ.made ⟨hashCode, .runing, false, false⟩
        made := ρ.made + 1 }, .registering ρ.made)
  | .registering i => (ρ.setInfo i fun info => { info with isRegister := true }, .leaving)
  | .removingTask => ({ ρ with task := none }, .leaving)
  | .checking i =>
    match (ρ.infos i).mState with
    | .stop => (ρ, .leaving)
    | .runing => (ρ, .puttingTask)
  | .puttingTask =>
    ({ ρ with task := some ρ.registrations, registrations := ρ.registrations + 1 }, .leaving)
  | .testing i => (ρ, if (ρ.infos i).isRegister then .testingCancel i else .stopping i)
  | .testingCancel i => (ρ, if (ρ.infos i).isCancel then .stopping i else .lookingUp i)
  | .lookingUp i =>
    match ρ.task with
    | some r => (ρ, .cancelling i r)
    | none => (ρ, .stopping i)
  | .cancelling i r => (ρ.cancel r, .settingCancel i)
  | .settingCancel i => (ρ.setInfo i fun info => { info with isCancel := true }, .stopping i)
  | .stopping i => (ρ.setInfo i fun info => { info with mState := .stop }, .leaving)
  | stage => (ρ, stage)

/-- What is registered after the next step of a call, and how far the call is
then, the monitor included. -/
def next (ρ : Registry) (call : AsyncCall T) : VisitStage → Registry × Option VisitStage
  | .locked => (ρ, some .entered)
  | .leaving => (ρ, some .unlocked)
  | .unlocked => (ρ, none)
  | stage => ((ρ.body call stage).1, some (ρ.body call stage).2)

end Registry

namespace Slot

variable {T : Type} [DecidableEq T]

omit [DecidableEq T] in
/-- `lock`: the slot, and the object. -/
def lockObject (σ : Slot T) : Slot T × ℕ :=
  match σ.lock with
  | some o => (σ, o)
  | none => ({ σ with lock := some σ.locks, locks := σ.locks + 1 }, σ.locks)

/-- Thread `t` enters the monitor of a lock object, unless another holds
it. -/
def enter (σ : Slot T) (o : ℕ) (t : T) : Option (Slot T) :=
  match σ.holder o with
  | none => some { σ with holder := Function.update σ.holder o (some (t, 0)) }
  | some (u, n) =>
    if u = t then some { σ with holder := Function.update σ.holder o (some (t, n + 1)) }
    else none

/-- Its holder leaves it, for the last time or not. -/
def exit (σ : Slot T) (o : ℕ) : Slot T :=
  let holder :=
    match σ.holder o with
    | some (t, n + 1) => some (t, n)
    | _ => none
  { σ with holder := Function.update σ.holder o holder }

/-- A call of thread `t` goes on; a monitor that another holds makes it
wait. Where it is to invoke `onCancel`, this returns, and has made no
calls. -/
def next (σ : Slot T) (t : T) (v : Visit T) : Option (Slot T × Option (Visit T)) :=
  match v.stage with
  | .locked => (σ.enter v.lock t).map fun σ => (σ, some { v with stage := .entered })
  | .leaving => some ({ σ with lock := none }, some { v with stage := .unlocked })
  | .unlocked => some (σ.exit v.lock, none)
  | stage =>
    let r := σ.registry.body v.call stage
    some ({ σ with registry := r.1 }, some { v with stage := r.2 })

omit [DecidableEq T] in
/-- Its `onCancel` throws, and has made no calls. -/
def throws (σ : Slot T) (v : Visit T) : Option (Slot T × Option (Visit T)) :=
  match v.stage with
  | .cancelling _ r =>
    some ({ σ with registry := σ.registry.cancel r }, some { v with stage := .leaving })
  | _ => none

/-- A monitor is nothing to what is registered. -/
theorem registry_of_enter {σ σ' : Slot T} {o : ℕ} {t : T} (h : σ.enter o t = some σ') :
    σ'.registry = σ.registry := by
  unfold enter at h
  split at h
  · cases h
    rfl
  · split at h
    · cases h
      rfl
    · cases h

end Slot

/-- The manager, and the calls in progress: that of each thread, and those
whose `onCancel` the thread is in, the innermost first. -/
structure AsyncTaskManage (T : Type) where
  slot : T → Slot T := fun _ => {}
  visit : T → Option (Visit T) := fun _ => none
  outer : T → List (Visit T) := fun _ => []

namespace AsyncTaskManage

variable {T : Type} [DecidableEq T]

/-- What a thread does. -/
inductive Act (T : Type)
  /-- It makes a call, which gets its lock object. -/
  | lock (t : T) (call : AsyncCall T)
  /-- Its call goes on. -/
  | next (t : T)
  /-- Its call invokes an `onCancel`, which may make calls. -/
  | invoke (t : T)
  /-- The `onCancel` it is in returns, -/
  | returns (t : T)
  /-- or throws. -/
  | throws (t : T)

/-- The slot of an id changes, and so does the call of a thread. -/
def put (s : AsyncTaskManage T) (t x : T) (r : Slot T × Option (Visit T)) :
    AsyncTaskManage T :=
  { s with slot := Function.update s.slot x r.1, visit := Function.update s.visit t r.2 }

/-- A call is made, and gets its lock object. -/
def lock (s : AsyncTaskManage T) (t : T) (call : AsyncCall T) : AsyncTaskManage T :=
  let x := call.threadId t
  let r := (s.slot x).lockObject
  s.put t x (r.1, some ⟨call, r.2, .locked⟩)

/-- `onCancel` is invoked: when it returns, the call is to go on with
`setCancel`. -/
def invoke (s : AsyncTaskManage T) (t : T) (v : Visit T) (i r : ℕ) : AsyncTaskManage T :=
  let x := v.call.threadId t
  { s.put t x ({ s.slot x with registry := (s.slot x).registry.cancel r }, none) with
    outer := Function.update s.outer t ({ v with stage := .settingCancel i } :: s.outer t) }

/-- The `onCancel` a thread is in has ended, and its call goes on. -/
def resume (s : AsyncTaskManage T) (t : T) (v : Visit T) (outer : List (Visit T)) :
    AsyncTaskManage T :=
  { s with
    visit := Function.update s.visit t (some v)
    outer := Function.update s.outer t outer }

/-- One step of one thread. -/
def step (s : AsyncTaskManage T) : Act T → Option (AsyncTaskManage T)
  | .lock t call => if (s.visit t).isNone then some (s.lock t call) else none
  | .next t =>
    (s.visit t).bind fun v =>
      ((s.slot (v.call.threadId t)).next t v).map (s.put t (v.call.threadId t))
  | .invoke t =>
    (s.visit t).bind fun v =>
      match v.stage with
      | .cancelling i r => some (s.invoke t v i r)
      | _ => none
  | .returns t =>
    match s.visit t, s.outer t with
    | none, v :: outer => some (s.resume t v outer)
    | _, _ => none
  | .throws t =>
    match s.visit t, s.outer t with
    | some v, _ => ((s.slot (v.call.threadId t)).throws v).map (s.put t (v.call.threadId t))
    | none, v :: outer => some (s.resume t { v with stage := .leaving } outer)
    | none, [] => none

/-- The calls a thread has in progress, the innermost first. -/
def stack (s : AsyncTaskManage T) (t : T) : List (Visit T) := (s.visit t).toList ++ s.outer t

/-- Those that are for the id `x`. -/
def calls (s : AsyncTaskManage T) (x t : T) : List (Visit T) :=
  (s.stack t).filter fun v => v.call.threadId t = x

/-- What is registered for an id. -/
def registry (s : AsyncTaskManage T) (x : T) : Registry := (s.slot x).registry

/-! ## What a step does to what is registered -/

variable {s s' : AsyncTaskManage T} {t x : T} {v : Visit T} {call : AsyncCall T}

theorem registry_put {r : Slot T × Option (Visit T)} :
    (s.put t x r).registry = Function.update s.registry x r.1.registry := by
  funext y
  simp only [registry, put, Function.update_apply]
  split <;> rfl

theorem registry_lock : (s.lock t call).registry = s.registry := by
  have hsame : (s.slot (call.threadId t)).lockObject.1.registry =
      s.registry (call.threadId t) := by
    unfold Slot.lockObject
    split <;> rfl
  rw [lock, registry_put, hsame, Function.update_eq_self]

theorem visit_lock (s : AsyncTaskManage T) (t : T) (call : AsyncCall T) :
    ∃ o, (s.lock t call).visit = Function.update s.visit t (some ⟨call, o, .locked⟩) :=
  ⟨_, rfl⟩

theorem step_next (hv : s.visit t = some v) (hs : s.step (.next t) = some s') :
    s'.registry = Function.update s.registry (v.call.threadId t)
        ((s.registry (v.call.threadId t)).next v.call v.stage).1 ∧
      s'.visit = Function.update s.visit t
        (((s.registry (v.call.threadId t)).next v.call v.stage).2.map fun stage =>
          { v with stage }) := by
  simp only [step, hv, Option.bind_some] at hs
  obtain ⟨r, hr, rfl⟩ := Option.map_eq_some_iff.mp hs
  rw [registry_put]
  obtain ⟨call, o, stage⟩ := v
  cases stage with
  | locked =>
    obtain ⟨σ, hσ, rfl⟩ := Option.map_eq_some_iff.mp hr
    rw [Slot.registry_of_enter hσ]
    exact ⟨rfl, rfl⟩
  | _ =>
    cases hr
    exact ⟨rfl, rfl⟩

theorem step_throws (hv : s.visit t = some v) (hs : s.step (.throws t) = some s') :
    ∃ i r, v.stage = .cancelling i r ∧
      s'.registry = Function.update s.registry (v.call.threadId t)
        ((s.registry (v.call.threadId t)).cancel r) ∧
      s'.visit = Function.update s.visit t (some { v with stage := .leaving }) := by
  simp only [step, hv] at hs
  obtain ⟨r, hr, rfl⟩ := Option.map_eq_some_iff.mp hs
  rw [registry_put]
  obtain ⟨call, o, stage⟩ := v
  cases stage <;> cases hr
  exact ⟨_, _, rfl, rfl, rfl⟩

end AsyncTaskManage

end SambaProvider

import Mathlib.Data.List.Perm.Basic

/-!
# The thread pools

`AbsThreadPool.java` over the platform's executor, with the queues of
`TerminableThreadPool` and `LifoTerminableThreadPool`. A task gets a thread
of its own until there are as many as the core size allows; from then on it
waits in the queue, which never refuses one. A task that throws takes its
thread with it: another is made in its place, and a task that is added before
that gets a thread of its own, past those that wait. To release the pool is to
forget what waits in it.
-/

namespace SambaProvider

/-- The executor of a pool: its threads, and those that have died of a task
and are to be replaced; the tasks its threads have in hand, and those that
wait, the next one first. -/
structure Executor (K : Type) where
  workers : ℕ := 0
  replacing : ℕ := 0
  running : List K := []
  queue : List K := []

/-- What a pool is made with: its sizes, and what `offer` does to the
queue. -/
structure PoolKind where
  corePoolSize : ℕ
  maximumPoolSize : ℕ
  core_le : corePoolSize ≤ maximumPoolSize
  offer : {K : Type} → List K → K → List K

/-- A pool, the tasks that threads of former executors still have in hand,
how many tasks have thrown in an executor that was in use, and what became of
the tasks: those an executor accepted, those that were given to a thread, and
those that were dropped, each in their order. -/
structure AbsThreadPool (K : Type) where
  executor : Option (Executor K) := none
  isDestroy : Bool := false
  leaving : List K := []
  releases : ℕ := 0
  thrown : ℕ := 0
  accepted : List K := []
  started : List K := []
  dropped : List K := []

namespace AbsThreadPool

variable {K : Type}

/-- What happens to a pool. -/
inductive Event (K : Type)
  /-- `addTask`. -/
  | addTask (newTask : Option K)
  /-- A thread that has nothing to do takes a task from the queue. -/
  | take
  /-- A task ends, -/
  | ends (task : K)
  /-- or throws, and its thread dies. -/
  | fails (task : K)
  /-- A thread that has died is replaced. -/
  | replace
  /-- A thread beyond the core size has waited for too long, and ends. -/
  | expire
  /-- `releaseRes`. -/
  | releaseRes
  /-- `destroy`. -/
  | destroy

/-- `execute`: below the core size, a thread of its own. -/
def execute (kind : PoolKind) (p : AbsThreadPool K) (e : Executor K) (task : K) :
    AbsThreadPool K :=
  if e.workers < kind.corePoolSize then
    { p with
      executor := some { e with workers := e.workers + 1, running := e.running ++ [task] }
      accepted := p.accepted ++ [task]
      started := p.started ++ [task] }
  else
    { p with
      executor := some { e with queue := kind.offer e.queue task }
      accepted := p.accepted ++ [task] }

/-- `addTask`, with `checkInit`. -/
def addTask (kind : PoolKind) (p : AbsThreadPool K) : Option K → AbsThreadPool K
  | none => p
  | some newTask =>
    if p.isDestroy then p else p.execute kind (p.executor.getD {}) newTask

/-- A thread without a task takes the next one, if there are both. -/
def take (p : AbsThreadPool K) : AbsThreadPool K :=
  match p.executor with
  | none => p
  | some e =>
    match e.queue with
    | [] => p
    | task :: queue =>
      if e.running.length < e.workers then
        { p with
          executor := some { e with running := e.running ++ [task], queue := queue }
          started := p.started ++ [task] }
      else p

/-- A task ends, in a thread of the pool or in one that is left. -/
def ends [DecidableEq K] (p : AbsThreadPool K) (task : K) : AbsThreadPool K :=
  match p.executor with
  | none => { p with leaving := p.leaving.erase task }
  | some e =>
    if task ∈ e.running then
      { p with executor := some { e with running := e.running.erase task } }
    else { p with leaving := p.leaving.erase task }

/-- A task throws. A thread that is left dies of it, and one of the pool is to
be replaced. -/
def fails [DecidableEq K] (p : AbsThreadPool K) (task : K) : AbsThreadPool K :=
  match p.executor with
  | none => p.ends task
  | some e =>
    if task ∈ e.running then
      { p with
        executor := some { e with
          workers := e.workers - 1
          replacing := e.replacing + 1
          running := e.running.erase task }
        thrown := p.thrown + 1 }
    else p.ends task

/-- A thread is made for one that has died, up to the maximum size; it has no
task. -/
def replace (kind : PoolKind) (p : AbsThreadPool K) : AbsThreadPool K :=
  match p.executor with
  | none => p
  | some e =>
    if 0 < e.replacing then
      { p with
        executor := some { e with
          workers := if e.workers < kind.maximumPoolSize then e.workers + 1 else e.workers
          replacing := e.replacing - 1 } }
    else p

/-- A thread without a task ends, if there are more than the core size. -/
def expire (kind : PoolKind) (p : AbsThreadPool K) : AbsThreadPool K :=
  match p.executor with
  | none => p
  | some e =>
    if kind.corePoolSize < e.workers ∧ e.running.length < e.workers then
      { p with executor := some { e with workers := e.workers - 1 } }
    else p

/-- `releaseRes`: the tasks in hand are left to end, those that wait are
dropped. -/
def releaseRes (p : AbsThreadPool K) : AbsThreadPool K :=
  match p.executor with
  | none => p
  | some e =>
    { p with
      executor := none
      leaving := p.leaving ++ e.running
      releases := p.releases + 1
      dropped := p.dropped ++ e.queue }

/-- `destroy`. -/
def destroy (p : AbsThreadPool K) : AbsThreadPool K :=
  if p.isDestroy then p else { p.releaseRes with isDestroy := true }

/-- One event. -/
def step [DecidableEq K] (kind : PoolKind) (p : AbsThreadPool K) : Event K → AbsThreadPool K
  | .addTask newTask => p.addTask kind newTask
  | .take => p.take
  | .ends task => p.ends task
  | .fails task => p.fails task
  | .replace => p.replace kind
  | .expire => p.expire kind
  | .releaseRes => p.releaseRes
  | .destroy => p.destroy

/-- The pool after the events. -/
def run [DecidableEq K] (kind : PoolKind) (events : List (Event K)) : AbsThreadPool K :=
  events.foldl (step kind) {}

/-- The tasks that wait. -/
def waiting (p : AbsThreadPool K) : List K := (p.executor.map Executor.queue).getD []

variable {kind : PoolKind} {p : AbsThreadPool K} {e : Executor K} {events : List (Event K)}
variable {task : K}

/-- **What is kept of the tasks**: a relation between how many have thrown and
those that were given to a thread, those that wait, those that were dropped
and those that were accepted. Where none has thrown, a task is given to a
thread past the queue only where this is empty. -/
structure Keeps (kind : PoolKind) (R : ℕ → List K → List K → List K → List K → Prop) :
    Prop where
  init : R 0 [] [] [] []
  direct : ∀ {thrown started queue dropped accepted}, R thrown started queue dropped accepted →
    (thrown = 0 → queue = []) → ∀ task,
      R thrown (started ++ [task]) queue dropped (accepted ++ [task])
  offer : ∀ {thrown started queue dropped accepted}, R thrown started queue dropped accepted →
    ∀ task, R thrown started (kind.offer queue task) dropped (accepted ++ [task])
  take : ∀ {thrown started task queue dropped accepted},
    R thrown started (task :: queue) dropped accepted →
      R thrown (started ++ [task]) queue dropped accepted
  fails : ∀ {thrown started queue dropped accepted}, R thrown started queue dropped accepted →
    R (thrown + 1) started queue dropped accepted
  drop : ∀ {thrown started queue dropped accepted}, R thrown started queue dropped accepted →
    R thrown started [] (dropped ++ queue) accepted

/-- **What an executor keeps**, beside `left` tasks of former ones: its threads
have no more tasks than they are, a task waits only where there are as many
threads as the core size, and there are no more than that and one for each
task that has thrown, those that are to be replaced counted. -/
structure Staffed (kind : PoolKind) (left releases thrown : ℕ) (e : Executor K) :
    Prop where
  running_le : e.running.length ≤ e.workers
  queue_full : e.queue ≠ [] → kind.corePoolSize ≤ e.workers + e.replacing
  workers_le : e.workers + e.replacing ≤ kind.corePoolSize + thrown
  replacing_le : e.replacing ≤ thrown
  left_le : e.replacing + left ≤ kind.corePoolSize * releases + thrown
  inHand_le : e.workers + e.replacing + left ≤ kind.corePoolSize * (releases + 1) + thrown

/-- **What a pool keeps.** -/
structure Inv (kind : PoolKind) (R : ℕ → List K → List K → List K → List K → Prop)
    (p : AbsThreadPool K) : Prop where
  executor : ∀ e, p.executor = some e → Staffed kind p.leaving.length p.releases p.thrown e
  leaving_le : p.leaving.length ≤ kind.corePoolSize * p.releases + p.thrown
  tasks : R p.thrown p.started p.waiting p.dropped p.accepted

variable {R : ℕ → List K → List K → List K → List K → Prop}

/-! ## The steps -/

theorem Inv.init (hR : Keeps kind R) : Inv kind R ({} : AbsThreadPool K) where
  executor e h := by cases h
  leaving_le := Nat.zero_le _
  tasks := hR.init

/-- Only the executor changes, and not what waits. -/
theorem Inv.setExecutor (h : Inv kind R p) (hexecutor : p.executor = some e) {e' : Executor K}
    (hqueue : e'.queue = e.queue) (he' : Staffed kind p.leaving.length p.releases p.thrown e') :
    Inv kind R { p with executor := some e' } where
  executor e'' h'' := by
    cases h''
    exact he'
  leaving_le := h.leaving_le
  tasks := by
    have htasks := h.tasks
    rw [waiting, hexecutor, Option.map_some, Option.getD_some, ← hqueue] at htasks
    exact htasks

/-- An executor that has just been made keeps what there is. -/
theorem Inv.getD (h : Inv kind R p) :
    Inv kind R { p with executor := some (p.executor.getD {}) } := by
  cases hexecutor : p.executor with
  | none =>
    have htasks := h.tasks
    have hleaving := h.leaving_le
    rw [waiting, hexecutor] at htasks
    refine ⟨fun e he => ?_, hleaving, htasks⟩
    cases he
    rw [Option.getD_none]
    refine ⟨Nat.le_refl _, fun hne => absurd rfl hne, Nat.zero_le _, Nat.zero_le _, ?_, ?_⟩
    · dsimp only
      omega
    · dsimp only
      rw [Nat.mul_succ]
      omega
  | some e =>
    have hsame : { p with executor := some e } = p := by
      rw [← hexecutor]
    rw [Option.getD_some, hsame]
    exact h

theorem Inv.execute (hR : Keeps kind R) (h : Inv kind R { p with executor := some e }) :
    Inv kind R (p.execute kind e task) := by
  obtain ⟨hrunning, hfull, hworkers, hreplacing, hleft, hinHand⟩ := h.executor e rfl
  have htasks : R p.thrown p.started e.queue p.dropped p.accepted := h.tasks
  unfold AbsThreadPool.execute
  split
  · rename_i hlt
    -- past the queue: there is a thread too few, though tasks wait, only where one has died
    have hqueue (hnone : p.thrown = 0) : e.queue = [] := by
      by_contra hne
      have hle := hfull hne
      dsimp only at hreplacing
      omega
    refine ⟨fun e' he' => ?_, h.leaving_le, hR.direct htasks hqueue task⟩
    cases he'
    dsimp only at hleft hreplacing
    refine ⟨?_, fun hne => ?_, ?_, hreplacing, hleft, ?_⟩
    · rw [List.length_append, List.length_singleton]
      exact Nat.succ_le_succ hrunning
    · have hle := hfull hne
      dsimp only
      omega
    · dsimp only
      omega
    · dsimp only
      rw [Nat.mul_succ]
      omega
  · rename_i hge
    refine ⟨fun e' he' => ?_, h.leaving_le, hR.offer htasks task⟩
    cases he'
    refine ⟨hrunning, fun _ => ?_, hworkers, hreplacing, hleft, hinHand⟩
    dsimp only
    omega

theorem Inv.addTask (hR : Keeps kind R) (h : Inv kind R p) (newTask : Option K) :
    Inv kind R (p.addTask kind newTask) := by
  cases newTask with
  | none => exact h
  | some newTask =>
    rw [AbsThreadPool.addTask]
    split
    · exact h
    · exact h.getD.execute hR

theorem Inv.take (hR : Keeps kind R) (h : Inv kind R p) : Inv kind R p.take := by
  unfold AbsThreadPool.take
  split
  · exact h
  · rename_i e hexecutor
    split
    · exact h
    · rename_i task queue hqueue
      split
      · rename_i hlt
        obtain ⟨hrunning, hfull, hworkers, hreplacing, hleft, hinHand⟩ := h.executor e hexecutor
        have htasks := h.tasks
        rw [waiting, hexecutor, Option.map_some, Option.getD_some, hqueue] at htasks
        refine ⟨fun e' he' => ?_, h.leaving_le, hR.take htasks⟩
        cases he'
        refine ⟨?_, fun _ => hfull (hqueue ▸ List.cons_ne_nil _ _), hworkers, hreplacing, hleft,
          hinHand⟩
        rw [List.length_append, List.length_singleton]
        exact hlt
      · exact h

/-- Fewer tasks are left. -/
theorem Inv.setLeaving (h : Inv kind R p) {leaving : List K}
    (hle : leaving.length ≤ p.leaving.length) : Inv kind R { p with leaving := leaving } where
  executor e he := by
    obtain ⟨hrunning, hfull, hworkers, hreplacing, hleft, hinHand⟩ := h.executor e he
    refine ⟨hrunning, hfull, hworkers, hreplacing, ?_, ?_⟩
    · dsimp only
      omega
    · dsimp only
      omega
  leaving_le := Nat.le_trans hle h.leaving_le
  tasks := h.tasks

theorem Inv.ends [DecidableEq K] (h : Inv kind R p) : Inv kind R (p.ends task) := by
  have hleft : Inv kind R { p with leaving := p.leaving.erase task } :=
    h.setLeaving (List.erase_sublist).length_le
  unfold AbsThreadPool.ends
  split
  · exact hleft
  · rename_i e hexecutor
    split
    · obtain ⟨hrunning, hfull, hworkers, hreplacing, hleft, hinHand⟩ := h.executor e hexecutor
      exact h.setExecutor hexecutor rfl
        ⟨Nat.le_trans (List.erase_sublist).length_le hrunning, hfull, hworkers, hreplacing, hleft,
          hinHand⟩
    · exact hleft

theorem Inv.fails [DecidableEq K] (hR : Keeps kind R) (h : Inv kind R p) :
    Inv kind R (p.fails task) := by
  unfold AbsThreadPool.fails
  split
  · exact h.ends
  · rename_i e hexecutor
    split
    · rename_i hmem
      obtain ⟨hrunning, hfull, hworkers, hreplacing, hleft, hinHand⟩ := h.executor e hexecutor
      have hpos := List.length_pos_of_mem hmem
      have htasks := h.tasks
      rw [waiting, hexecutor] at htasks
      refine ⟨fun e' he' => ?_, Nat.le_succ_of_le h.leaving_le, hR.fails htasks⟩
      cases he'
      -- one thread less and one more to be replaced: their sum stays
      refine ⟨?_, fun hne => ?_, ?_, Nat.succ_le_succ hreplacing, ?_, ?_⟩
      · dsimp only
        rw [List.length_erase_of_mem hmem]
        omega
      · have hle := hfull hne
        dsimp only
        omega
      all_goals
        dsimp only
        omega
    · exact h.ends

theorem Inv.replace (h : Inv kind R p) : Inv kind R (p.replace kind) := by
  unfold AbsThreadPool.replace
  split
  · exact h
  · rename_i e hexecutor
    split
    · obtain ⟨hrunning, hfull, hworkers, hreplacing, hleft, hinHand⟩ := h.executor e hexecutor
      -- the new thread takes the place of the one that died, or is not needed
      have hcore := kind.core_le
      refine h.setExecutor hexecutor rfl ⟨?_, fun hne => ?_, ?_, ?_, ?_, ?_⟩
      · dsimp only
        split <;> omega
      · have hle := hfull hne
        dsimp only
        split <;> omega
      · dsimp only
        split <;> omega
      · dsimp only
        omega
      · dsimp only
        omega
      · dsimp only
        split <;> omega
    · exact h

theorem Inv.expire (h : Inv kind R p) : Inv kind R (p.expire kind) := by
  unfold AbsThreadPool.expire
  split
  · exact h
  · rename_i e hexecutor
    split
    · rename_i hidle
      obtain ⟨hrunning, hfull, hworkers, hreplacing, hleft, hinHand⟩ := h.executor e hexecutor
      refine h.setExecutor hexecutor rfl ⟨?_, fun _ => ?_, ?_, hreplacing, hleft, ?_⟩
      all_goals
        dsimp only
        omega
    · exact h

theorem Inv.releaseRes (hR : Keeps kind R) (h : Inv kind R p) : Inv kind R p.releaseRes := by
  unfold AbsThreadPool.releaseRes
  split
  · exact h
  · rename_i e hexecutor
    have hrunning := (h.executor e hexecutor).running_le
    have hinHand := (h.executor e hexecutor).inHand_le
    have htasks := h.tasks
    rw [waiting, hexecutor] at htasks
    -- the tasks in hand are left, and count from now on as those of a former executor
    refine ⟨fun e' he' => (by cases he'), ?_, hR.drop htasks⟩
    rw [List.length_append]
    dsimp only
    omega

theorem Inv.destroy (hR : Keeps kind R) (h : Inv kind R p) : Inv kind R p.destroy := by
  unfold AbsThreadPool.destroy
  split
  · exact h
  · have hreleased := h.releaseRes hR
    exact ⟨hreleased.executor, hreleased.leaving_le, hreleased.tasks⟩

theorem Inv.step [DecidableEq K] (hR : Keeps kind R) (h : Inv kind R p) (event : Event K) :
    Inv kind R (p.step kind event) := by
  cases event with
  | addTask newTask => exact h.addTask hR newTask
  | take => exact h.take hR
  | ends task => exact h.ends
  | fails task => exact h.fails hR
  | replace => exact h.replace
  | expire => exact h.expire
  | releaseRes => exact h.releaseRes hR
  | destroy => exact h.destroy hR

end AbsThreadPool

end SambaProvider

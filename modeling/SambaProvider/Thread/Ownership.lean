import Mathlib.Data.List.Basic
import SambaProvider.Thread.TerminableThreadPool

/-!
# Whose is what is registered

Where no info is put into the map while a cancel with another task's copy
may still look there, what is registered for a thread is of the task it
runs, and a cancel that may look at it was handed the copy of that task.
That is kept by a step that leaves the other threads and the maps for the
other ids as they are, and this module says what else a step has to keep.
-/

namespace SambaProvider

/-- From where the info of `registerThread` is in the map to where
`unregisterThread` has taken everything out, by the call that is in
progress. -/
def RunStage.live : RunStage → Option VisitStage → Bool
  | .storing, some .locked | .storing, some .entered | .storing, some (.creating _) => false
  | .storing, _ | .running, _ | .clearing, _ | .unregistering, _ => true
  | .ending, some .locked | .ending, some .entered | .ending, some .removingTask => true
  | _, _ => false

/-- The stages of a call. -/
def VisitStage.Of {T : Type} (call : AsyncCall T) : VisitStage → Prop
  | .creating hashCode => call = .registerThread hashCode
  | .registering _ => ∃ hashCode, call = .registerThread hashCode
  | .removingTask => call = .unregisterThread
  | .checking _ | .puttingTask => ∃ hashCode, call = .registerHttpTask hashCode
  | .testing _ | .testingCancel _ | .lookingUp _ | .cancelling _ _ | .settingCancel _
  | .stopping _ => ∃ threadId threadHashCode, call = .cancelAsyncTask threadId threadHashCode
  | .locked | .entered | .leaving | .unlocked => True

/-- `cancelAsyncTask` may still look something up. -/
def VisitStage.Looking : VisitStage → Prop
  | .locked | .entered | .testing _ | .testingCancel _ | .lookingUp _ => True
  | _ => False

namespace TerminableThreadPool

variable {T K : Type}

/-- How far the call of a thread is. -/
def stage (s : TerminableThreadPool T K) (x : T) : Option VisitStage :=
  (s.manager.visit x).map Visit.stage

/-- The task for which things are registered, by what the thread runs and how
far its call is. -/
def liveOf (run : Option (Run K)) (stage : Option VisitStage) : Option K :=
  (run.filter fun r => r.stage.live stage).map Run.task

/-- The task for which things are registered for a thread. -/
def live (s : TerminableThreadPool T K) (x : T) : Option K := liveOf (s.run x) (s.stage x)

/-- A cancel of the task `k` may still look at what there is for the
thread `x`. -/
def Looking (s : TerminableThreadPool T K) (u : T) (k : K) (x : T) : Prop :=
  ∃ hashCode, s.op u = some (.cancel k (.calling (x, hashCode))) ∨
    s.op u = some (.cancel k (.waiting (x, hashCode))) ∧ ∃ stage, s.stage u = some stage ∧
      stage.Looking

/-- No body throws, and an info is put into the map only where the cancels
that may still look there are of the task that runs. -/
def Careful (s : TerminableThreadPool T K) : Act T K → Prop
  | .fails _ => False
  | .next t => ∀ hashCode, s.stage t = some (.creating hashCode) →
    ∀ u k, s.Looking u k t → ∃ r, s.run t = some r ∧ r.task = k
  | _ => True

/-! ## The invariant -/

/-- What is registered for a thread is of the task it runs. -/
structure Owned (live : Option K) (stage : Option VisitStage) (ρ : Registry)
    (infoTasks asyncTasks : List K) : Prop where
  made : infoTasks.length = ρ.made
  registrations : asyncTasks.length = ρ.registrations
  info : ∀ i, ρ.info = some i →
    stage ≠ some .removingTask ∧ ∃ k, live = some k ∧ infoTasks[i]? = some k
  task : ∀ a, ρ.task = some a → ∃ k, live = some k ∧ asyncTasks[a]? = some k

/-- A thread is where its call is made. -/
def Fits (run : Option (Run K)) (op : Option (TaskOp T K)) : AsyncCall T → Prop
  | .registerThread hashCode => op = none ∧ ∃ k, run = some ⟨k, hashCode, .storing⟩
  | .unregisterThread => op = none ∧ ∃ k hashCode, run = some ⟨k, hashCode, .ending⟩
  | .registerHttpTask _ => op = none ∧ ∃ k hashCode, run = some ⟨k, hashCode, .running⟩
  | .cancelAsyncTask threadId threadHashCode =>
    ∃ k, op = some (.cancel k (.waiting (threadId, threadHashCode)))

/-- What a cancel of `k` has found is of `k`, and so is what it will find. -/
def Found (live : Option K) (infoTasks asyncTasks : List K) (k : K) : VisitStage → Prop
  | .locked | .entered => ∀ k', live = some k' → k' = k
  | .testing i | .testingCancel i | .lookingUp i =>
    (∀ k', live = some k' → k' = k) ∧ infoTasks[i]? = some k
  | .cancelling i a => infoTasks[i]? = some k ∧ asyncTasks[a]? = some k
  | .settingCancel i | .stopping i => infoTasks[i]? = some k
  | _ => True

/-- The invariant. -/
structure Inv (s : TerminableThreadPool T K) : Prop where
  owned : ∀ x, Owned (s.live x) (s.stage x) (s.manager.registry x) (s.infoTasks x) (s.asyncTasks x)
  fits : ∀ t v, s.manager.visit t = some v → Fits (s.run t) (s.op t) v.call ∧ v.stage.Of v.call
  /-- A call on a task is made where none is run, or in a body. -/
  body : ∀ t r, s.op t ≠ none → s.run t = some r → r.stage = .running
  /-- A copy is of the thread that runs the task. -/
  stored : ∀ k copy, (s.task k).mThreadInfo = some copy →
    ∃ r, s.run copy.1 = some r ∧ r.task = k ∧ (r.stage = .running ∨ r.stage = .clearing)
  calling : ∀ u k copy, s.op u = some (.cancel k (.calling copy)) →
    ∀ k', s.live copy.1 = some k' → k' = k
  waiting : ∀ u k copy v, s.op u = some (.cancel k (.waiting copy)) →
    s.manager.visit u = some v →
      Found (s.live copy.1) (s.infoTasks copy.1) (s.asyncTasks copy.1) k v.stage
  hits : ∀ hit ∈ s.hits, hit.madeFor = some hit.handedTo

variable {s s' : TerminableThreadPool T K} {t : T}

theorem Inv.init : Inv ({} : TerminableThreadPool T K) where
  owned x := ⟨rfl, rfl, (fun i hi => by cases hi), fun a ha => by cases ha⟩
  fits t v hv := by cases hv
  body t r _ hr := by cases hr
  stored k copy hcopy := by cases hcopy
  calling u k copy hop := by cases hop
  waiting u k copy v hop := by cases hop
  hits hit hhit := by cases hhit

theorem Inv.separate (h : Inv s) : s.Separate where
  running x i hi := by
    obtain ⟨-, k, hlive, hk⟩ := (h.owned x).info i hi
    obtain ⟨r, hr, rfl⟩ := Option.map_eq_some_iff.mp hlive
    exact ⟨r, (Option.filter_eq_some_iff.mp hr).1, hk⟩
  hits := h.hits

theorem Free.visit (h : s.Free t) : s.manager.visit t = none := Option.isNone_iff_eq_none.mp h.1

theorem Free.op (h : s.Free t) : s.op t = none := Option.isNone_iff_eq_none.mp h.2

theorem InBody.run (h : s.InBody t) : ∃ r, s.run t = some r ∧ r.stage = .running := by
  cases hr : s.run t with
  | none => simp [InBody, hr] at h
  | some r => exact ⟨r, rfl, by simpa [InBody, hr] using h⟩

theorem liveOf_some {r : Run K} {stage : Option VisitStage} :
    liveOf (some r) stage = if r.stage.live stage then some r.task else none := by
  rw [liveOf, Option.filter_some]
  split <;> rfl

/-- In what a thread does with a task, how far its call is does not matter. -/
theorem Inv.liveOf_op (h : Inv s) (hop : s.op t ≠ none) (stage stage' : Option VisitStage) :
    liveOf (s.run t) stage = liveOf (s.run t) stage' := by
  cases hr : s.run t with
  | none => rfl
  | some r =>
    rw [liveOf_some, liveOf_some, h.body t r hop hr]
    rfl

/-- A copy is that of the task its thread runs. -/
theorem Inv.stored_self (h : Inv s) {k : K} {copy : T × ℤ} {r : Run K}
    (hcopy : (s.task k).mThreadInfo = some copy) (hx : copy.1 = t) (hr : s.run t = some r) :
    r.task = k ∧ (r.stage = .running ∨ r.stage = .clearing) := by
  obtain ⟨r', hr', hk⟩ := h.stored k copy hcopy
  rw [hx, hr] at hr'
  cases hr'
  exact hk

/-! ## A step of one thread -/

/-- What is in the maps is the same. -/
structure Same (ρ ρ' : Registry) : Prop where
  info : ρ'.info = ρ.info
  made : ρ'.made = ρ.made
  task : ρ'.task = ρ.task
  registrations : ρ'.registrations = ρ.registrations

theorem Same.refl (ρ : Registry) : Same ρ ρ := ⟨rfl, rfl, rfl, rfl⟩

theorem Owned.same {live : Option K} {stage : Option VisitStage} {ρ ρ' : Registry}
    {infoTasks asyncTasks : List K} (h : Owned live stage ρ infoTasks asyncTasks)
    (hsame : Same ρ ρ') : Owned live stage ρ' infoTasks asyncTasks where
  made := hsame.made ▸ h.made
  registrations := hsame.registrations ▸ h.registrations
  info i hi := h.info i (hsame.info ▸ hi)
  task a ha := h.task a (hsame.task ▸ ha)

/-- An info is made where nothing is live yet, for the task that then is. -/
theorem Owned.putInfo {k : K} {stage stage' : Option VisitStage} {ρ : Registry}
    {infoTasks asyncTasks : List K} (h : Owned none stage ρ infoTasks asyncTasks)
    {infos : ℕ → ThreadInfo} (hstage : stage' ≠ some .removingTask) :
    Owned (some k) stage' { ρ with info := some ρ.made, infos, made := ρ.made + 1 }
      (infoTasks ++ [k]) asyncTasks where
  made := by rw [List.length_append, h.made, List.length_singleton]
  registrations := h.registrations
  info i hi := by
    obtain rfl := Option.some.inj hi
    refine ⟨hstage, k, rfl, ?_⟩
    rw [← h.made]
    exact List.getElem?_concat_length
  task a ha := by
    obtain ⟨k', hk', -⟩ := h.task a ha
    cases hk'

/-- A task is registered, for the task that is live. -/
theorem Owned.putTask {k : K} {stage stage' : Option VisitStage} {ρ : Registry}
    {infoTasks asyncTasks : List K} (h : Owned (some k) stage ρ infoTasks asyncTasks)
    (hstage : stage' ≠ some .removingTask) :
    Owned (some k) stage'
      { ρ with task := some ρ.registrations, registrations := ρ.registrations + 1 } infoTasks
      (asyncTasks ++ [k]) where
  made := h.made
  registrations := by rw [List.length_append, h.registrations, List.length_singleton]
  info i hi := ⟨hstage, (h.info i hi).2⟩
  task a ha := by
    obtain rfl := Option.some.inj ha
    refine ⟨k, rfl, ?_⟩
    rw [← h.registrations]
    exact List.getElem?_concat_length

theorem Found.mono {live live' : Option K} {infoTasks infoTasks' asyncTasks asyncTasks' : List K}
    {k : K} {stage : VisitStage} (h : Found live infoTasks asyncTasks k stage)
    (hlive : ∀ k', live' = some k' → live = some k' ∨ (stage.Looking → k' = k))
    (hinfo : ∀ i : ℕ, infoTasks[i]? = some k → infoTasks'[i]? = some k)
    (hasync : ∀ a : ℕ, asyncTasks[a]? = some k → asyncTasks'[a]? = some k) :
    Found live' infoTasks' asyncTasks' k stage := by
  have htarget (hlooking : stage.Looking) (hbefore : ∀ k', live = some k' → k' = k) :
      ∀ k', live' = some k' → k' = k := fun k' hk' =>
    (hlive k' hk').elim (hbefore k') fun hnew => hnew hlooking
  cases stage with
  | locked | entered => exact htarget trivial h
  | testing | testingCancel | lookingUp => exact ⟨htarget trivial h.1, hinfo _ h.2⟩
  | cancelling => exact ⟨hinfo _ h.1, hasync _ h.2⟩
  | settingCancel | stopping => exact hinfo _ h
  | _ => trivial

/-- A step of the thread `t`: the others are where they were, nothing is put
into or taken out of the maps for another id, and what there is for `t` is as
the invariant says. -/
structure Move (s s' : TerminableThreadPool T K) (t : T) : Prop where
  run : ∀ u, u ≠ t → s'.run u = s.run u
  op : ∀ u, u ≠ t → s'.op u = s.op u
  visit : ∀ u, u ≠ t → s'.manager.visit u = s.manager.visit u
  registry : ∀ x, x ≠ t → Same (s.manager.registry x) (s'.manager.registry x)
  infoTasks : ∀ x, x ≠ t → s'.infoTasks x = s.infoTasks x
  asyncTasks : ∀ x, x ≠ t → s'.asyncTasks x = s.asyncTasks x
  infoTask : ∀ (i : ℕ) k, (s.infoTasks t)[i]? = some k → (s'.infoTasks t)[i]? = some k
  asyncTask : ∀ (a : ℕ) k, (s.asyncTasks t)[a]? = some k → (s'.asyncTasks t)[a]? = some k
  live : ∀ k', s'.live t = some k' → s.live t = some k' ∨ ∀ u k, s.Looking u k t → k' = k
  owned : Owned (s'.live t) (s'.stage t) (s'.manager.registry t) (s'.infoTasks t) (s'.asyncTasks t)
  fits : ∀ v, s'.manager.visit t = some v → Fits (s'.run t) (s'.op t) v.call ∧ v.stage.Of v.call
  body : ∀ r, s'.op t ≠ none → s'.run t = some r → r.stage = .running
  stored : ∀ k copy, (s'.task k).mThreadInfo = some copy →
    ∃ r, s'.run copy.1 = some r ∧ r.task = k ∧ (r.stage = .running ∨ r.stage = .clearing)
  calling : ∀ k copy, s'.op t = some (.cancel k (.calling copy)) →
    ∀ k', s'.live copy.1 = some k' → k' = k
  waiting : ∀ k copy v, s'.op t = some (.cancel k (.waiting copy)) →
    s'.manager.visit t = some v →
      Found (s'.live copy.1) (s'.infoTasks copy.1) (s'.asyncTasks copy.1) k v.stage
  hits : ∀ hit ∈ s'.hits, hit.madeFor = some hit.handedTo

theorem live_congr {x : T} (hrun : s'.run x = s.run x)
    (hvisit : s'.manager.visit x = s.manager.visit x) : s'.live x = s.live x := by
  simp only [TerminableThreadPool.live, TerminableThreadPool.stage, hrun, hvisit]

theorem Move.stage_eq (m : Move s s' t) {x : T} (hx : x ≠ t) : s'.stage x = s.stage x := by
  simp only [TerminableThreadPool.stage, m.visit x hx]

theorem Move.live_eq (m : Move s s' t) {x : T} (hx : x ≠ t) : s'.live x = s.live x :=
  live_congr (m.run x hx) (m.visit x hx)

/-- **A step** keeps the invariant. -/
theorem Inv.move (h : Inv s) (m : Move s s' t) : Inv s' where
  owned x := by
    by_cases hx : x = t
    · exact hx ▸ m.owned
    · rw [m.live_eq hx, m.stage_eq hx, m.infoTasks x hx, m.asyncTasks x hx]
      exact (h.owned x).same (m.registry x hx)
  fits u v hv := by
    by_cases hu : u = t
    · subst hu
      exact m.fits v hv
    · rw [m.run u hu, m.op u hu]
      exact h.fits u v (m.visit u hu ▸ hv)
  body u r hop hr := by
    by_cases hu : u = t
    · subst hu
      exact m.body r hop hr
    · exact h.body u r (m.op u hu ▸ hop) (m.run u hu ▸ hr)
  stored := m.stored
  calling u k copy hop k' hk' := by
    by_cases hu : u = t
    · subst hu
      exact m.calling k copy hop k' hk'
    · rw [m.op u hu] at hop
      -- the copy is of another thread, or of the one that has moved
      by_cases hx : copy.1 = t
      · rw [hx] at hk'
        rcases m.live k' hk' with hlive | hnew
        · exact h.calling u k copy hop k' (hx ▸ hlive)
        · exact hnew u k ⟨copy.2, .inl (hx ▸ hop)⟩
      · exact h.calling u k copy hop k' (m.live_eq hx ▸ hk')
  waiting u k copy v hop hv := by
    by_cases hu : u = t
    · subst hu
      exact m.waiting k copy v hop hv
    · rw [m.op u hu] at hop
      rw [m.visit u hu] at hv
      have hfound := h.waiting u k copy v hop hv
      by_cases hx : copy.1 = t
      · rw [hx] at hfound ⊢
        refine hfound.mono (fun k' hk' => ?_) (fun i => m.infoTask i k) fun a => m.asyncTask a k
        refine (m.live k' hk').imp_right fun hnew hlooking => hnew u k ⟨copy.2, .inr ⟨?_, ?_⟩⟩
        · exact hx ▸ hop
        · exact ⟨v.stage, congrArg (Option.map Visit.stage) hv, hlooking⟩
      · rw [m.live_eq hx, m.infoTasks _ hx, m.asyncTasks _ hx]
        exact hfound
  hits := m.hits

variable [DecidableEq T]

/-- A thread that is in no call goes on, and makes one at most. What is
registered stays, and so does the task it is registered for. -/
theorem Inv.goOn (h : Inv s) (run : Option (Run K)) (op : Option (TaskOp T K))
    (visit : Option (Visit T)) (hvisit : s.manager.visit t = none)
    (hrun' : s'.run = Function.update s.run t run) (hop' : s'.op = Function.update s.op t op)
    (hvisit' : s'.manager.visit = Function.update s.manager.visit t visit)
    (hregistry : s'.manager.registry = s.manager.registry)
    (hinfo : s'.infoTasks = s.infoTasks) (hasync : s'.asyncTasks = s.asyncTasks)
    (hhits : s'.hits = s.hits)
    (hlive : liveOf run (visit.map Visit.stage) = liveOf (s.run t) none)
    (hfits : ∀ v, visit = some v → v.stage = .locked ∧ Fits run op v.call)
    (hbody : ∀ r, op ≠ none → run = some r → r.stage = .running)
    (hstored : ∀ k copy, (s'.task k).mThreadInfo = some copy →
      ∃ r, s'.run copy.1 = some r ∧ r.task = k ∧ (r.stage = .running ∨ r.stage = .clearing))
    (htarget : ∀ k copy, op = some (.cancel k (.calling copy)) ∨
      op = some (.cancel k (.waiting copy)) ∧ visit ≠ none →
        ∀ k', s.live copy.1 = some k' → k' = k) : Inv s' := by
  have hstage : s'.stage t = visit.map Visit.stage := by
    simp only [TerminableThreadPool.stage, hvisit', Function.update_self]
  have hnone : s.stage t = none := by
    simp only [TerminableThreadPool.stage, hvisit, Option.map_none]
  have hsame : ∀ x, s'.live x = s.live x := by
    intro x
    by_cases hx : x = t
    · subst hx
      simp only [TerminableThreadPool.live, hstage, hnone, hrun', Function.update_self]
      exact hlive
    · exact live_congr (by rw [hrun', Function.update_of_ne hx])
        (by rw [hvisit', Function.update_of_ne hx])
  refine h.move (t := t) {
    run := fun u hu => by rw [hrun', Function.update_of_ne hu]
    op := fun u hu => by rw [hop', Function.update_of_ne hu]
    visit := fun u hu => by rw [hvisit', Function.update_of_ne hu]
    registry := fun x _ => by rw [hregistry]; exact .refl _
    infoTasks := fun x _ => by rw [hinfo]
    asyncTasks := fun x _ => by rw [hasync]
    infoTask := fun i k hi => by rw [hinfo]; exact hi
    asyncTask := fun a k ha => by rw [hasync]; exact ha
    live := fun k' hk' => .inl (hsame t ▸ hk')
    owned := ?_
    fits := ?_
    body := ?_
    stored := hstored
    calling := ?_
    waiting := ?_
    hits := hhits ▸ h.hits }
  · rw [hsame, hregistry, hinfo, hasync, hstage]
    have howned := h.owned t
    refine ⟨howned.made, howned.registrations, fun i hi => ⟨fun hremoving => ?_, ?_⟩, howned.task⟩
    · obtain ⟨v, hv, hlocked⟩ := Option.map_eq_some_iff.mp hremoving
      rw [(hfits v hv).1] at hlocked
      cases hlocked
    · exact (howned.info i hi).2
  · intro v hv
    rw [hvisit', Function.update_self] at hv
    rw [hrun', hop', Function.update_self, Function.update_self, (hfits v hv).1]
    exact ⟨(hfits v hv).2, trivial⟩
  · rw [hrun', hop', Function.update_self, Function.update_self]
    exact hbody
  · intro k copy hop k' hk'
    rw [hop', Function.update_self] at hop
    exact htarget k copy (.inl hop) k' (hsame copy.1 ▸ hk')
  · intro k copy v hop hv
    rw [hop', Function.update_self] at hop
    rw [hvisit', Function.update_self] at hv
    rw [(hfits v hv).1, hsame]
    exact htarget k copy (.inr ⟨hop, by simp [hv]⟩)

/-- A call to the manager goes on, and nothing is put into or taken out of
the maps. -/
theorem Inv.goIn (h : Inv s) {v : Visit T} {stage : Option VisitStage}
    (hrun' : s'.run = s.run) (hop' : s'.op = s.op) (htask' : s'.task = s.task)
    (hinfo : s'.infoTasks = s.infoTasks) (hasync : s'.asyncTasks = s.asyncTasks)
    (hv : s.manager.visit t = some v)
    (hvisit' : s'.manager.visit =
      Function.update s.manager.visit t (stage.map fun stage => { v with stage }))
    (hregistry : ∀ x, Same (s.manager.registry x) (s'.manager.registry x))
    (hlive : liveOf (s.run t) stage = liveOf (s.run t) (some v.stage))
    (hof : ∀ stage', stage = some stage' → stage'.Of v.call ∧ stage' ≠ .removingTask)
    (hfound : ∀ k copy stage', s.op t = some (.cancel k (.waiting copy)) → stage = some stage' →
      Found (s.live copy.1) (s.infoTasks copy.1) (s.asyncTasks copy.1) k stage')
    (hhits : ∀ hit ∈ s'.hits, hit.madeFor = some hit.handedTo) : Inv s' := by
  have hstage : s'.stage t = stage := by
    simp only [TerminableThreadPool.stage, hvisit', Function.update_self, Option.map_map]
    cases stage <;> rfl
  have hbefore : s.stage t = some v.stage := by
    simp only [TerminableThreadPool.stage, hv, Option.map_some]
  have hsame : ∀ x, s'.live x = s.live x := by
    intro x
    by_cases hx : x = t
    · subst hx
      simp only [TerminableThreadPool.live, hstage, hbefore, hrun']
      exact hlive
    · exact live_congr (by rw [hrun']) (by rw [hvisit', Function.update_of_ne hx])
  refine h.move (t := t) {
    run := fun u _ => by rw [hrun']
    op := fun u _ => by rw [hop']
    visit := fun u hu => by rw [hvisit', Function.update_of_ne hu]
    registry := fun x _ => hregistry x
    infoTasks := fun x _ => by rw [hinfo]
    asyncTasks := fun x _ => by rw [hasync]
    infoTask := fun i k hi => by rw [hinfo]; exact hi
    asyncTask := fun a k ha => by rw [hasync]; exact ha
    live := fun k' hk' => .inl (hsame t ▸ hk')
    owned := ?_
    fits := ?_
    body := by rw [hop', hrun']; exact h.body t
    stored := by rw [htask', hrun']; exact h.stored
    calling := ?_
    waiting := ?_
    hits := hhits }
  · rw [hsame, hinfo, hasync, hstage]
    have howned := (h.owned t).same (hregistry t)
    refine ⟨howned.made, howned.registrations, fun i hi => ⟨fun hremoving => ?_, ?_⟩, howned.task⟩
    · exact (hof _ hremoving).2 rfl
    · exact (howned.info i hi).2
  · intro w hw
    rw [hvisit', Function.update_self] at hw
    obtain ⟨stage', hstage', rfl⟩ := Option.map_eq_some_iff.mp hw
    rw [hrun', hop']
    exact ⟨(h.fits t v hv).1, (hof _ hstage').1⟩
  · intro k copy hop k' hk'
    exact h.calling t k copy (hop' ▸ hop) k' (hsame copy.1 ▸ hk')
  · intro k copy w hop hw
    rw [hvisit', Function.update_self] at hw
    obtain ⟨stage', hstage', rfl⟩ := Option.map_eq_some_iff.mp hw
    rw [hsame, hinfo, hasync]
    exact hfound k copy stage' (hop' ▸ hop) hstage'

end TerminableThreadPool

end SambaProvider

import SambaProvider.Lib.Run
import SambaProvider.Thread.TaskSteps

/-!
# Whom a cancel hits

A cancel carries the id of a thread, and what it finds there is of the task
that the thread is running then. The steps of a call to the manager keep
what is registered with its task, and so does every step; what is done with
the copy that was handed to a task is then done to that task.
-/

namespace SambaProvider

open Lib

namespace TerminableThreadPool

variable {T K : Type} [DecidableEq T] {s s' : TerminableThreadPool T K} {t : T}

/-! ## In the manager -/

theorem nextVisit_next {v : Visit T} (hv : s.manager.visit t = some v)
    (hs : s.nextVisit t v (.next t) = some s') :
    ∃ manager, s' = { s.record t v with manager } ∧
      manager.registry = Function.update s.manager.registry (v.call.threadId t)
        ((s.manager.registry (v.call.threadId t)).next v.call v.stage).1 ∧
      manager.visit = Function.update s.manager.visit t
        (((s.manager.registry (v.call.threadId t)).next v.call v.stage).2.map fun stage =>
          { v with stage }) := by
  obtain ⟨manager, hmanager, rfl⟩ := Option.map_eq_some_iff.mp hs
  obtain ⟨hregistry, hvisit⟩ := AsyncTaskManage.step_next hv hmanager
  exact ⟨manager, rfl, hregistry, hvisit⟩

theorem same_update {registry : T → Registry} {x : T} {ρ : Registry} (h : Same (registry x) ρ)
    (y : T) : Same (registry y) (Function.update registry x ρ y) := by
  rw [Function.update_apply]
  split
  · rename_i hy
    exact hy ▸ h
  · exact .refl _

/-- The lock object and the monitor are nothing to the maps. -/
theorem Inv.nextLock (h : Inv s) {v : Visit T} (hv : s.manager.visit t = some v)
    (hstage : v.stage = .locked ∨ v.stage = .leaving ∨ v.stage = .unlocked)
    (hs : s.nextVisit t v (.next t) = some s') : Inv s' := by
  obtain ⟨manager, rfl, hregistry, hvisit⟩ := nextVisit_next hv hs
  obtain ⟨hfits, -⟩ := h.fits t v hv
  obtain ⟨call, o, stage⟩ := v
  have hrecord : s.record t ⟨call, o, stage⟩ = s := by
    rcases hstage with rfl | rfl | rfl <;> rfl
  rw [hrecord]
  have hsame (x : T) : Same (s.manager.registry x) (manager.registry x) := by
    rw [hregistry]
    refine same_update ?_ x
    rcases hstage with rfl | rfl | rfl <;> exact .refl _
  refine h.goIn rfl rfl rfl rfl rfl hv hvisit hsame ?_ ?_ ?_ h.hits
  · cases call with
    | registerThread hashCode =>
      obtain ⟨-, k, hr⟩ := hfits
      rw [hr]
      rcases hstage with rfl | rfl | rfl <;> rfl
    | unregisterThread =>
      obtain ⟨-, k, hashCode, hr⟩ := hfits
      rw [hr]
      rcases hstage with rfl | rfl | rfl <;> rfl
    | registerHttpTask hashCode =>
      obtain ⟨-, k, hashCode, hr⟩ := hfits
      rw [hr]
      rcases hstage with rfl | rfl | rfl <;> rfl
    | cancelAsyncTask threadId threadHashCode =>
      obtain ⟨k, hop⟩ := hfits
      exact h.liveOf_op (by simp [hop]) _ _
  · intro stage' hstage'
    rcases hstage with rfl | rfl | rfl <;> cases hstage' <;> exact ⟨trivial, by simp⟩
  · intro k copy stage' hop hstage'
    have hfound := h.waiting t k copy _ hop hv
    rcases hstage with rfl | rfl | rfl <;> cases hstage'
    · exact hfound
    · trivial

/-- A call goes on inside, and nothing is put into or taken out of the
maps. -/
theorem Inv.nextIn (h : Inv s) {v : Visit T} (hv : s.manager.visit t = some v)
    (hs : s.nextVisit t v (.next t) = some s') {hits : List (Hit K)}
    (hrecord : s.record t v = { s with hits })
    (hhits : ∀ hit ∈ hits, hit.madeFor = some hit.handedTo) {ρ : Registry} (stage : VisitStage)
    (hnext : (s.manager.registry (v.call.threadId t)).next v.call v.stage = (ρ, some stage))
    (hsame : Same (s.manager.registry (v.call.threadId t)) ρ)
    (hlive : liveOf (s.run t) (some stage) = liveOf (s.run t) (some v.stage))
    (hof : stage.Of v.call) (hne : stage ≠ .removingTask)
    (hfound : ∀ k copy, s.op t = some (.cancel k (.waiting copy)) →
      Found (s.live copy.1) (s.infoTasks copy.1) (s.asyncTasks copy.1) k stage) : Inv s' := by
  obtain ⟨manager, rfl, hregistry, hvisit⟩ := nextVisit_next hv hs
  rw [hnext] at hregistry hvisit
  rw [hrecord]
  refine h.goIn rfl rfl rfl rfl rfl hv hvisit (fun x => ?_) hlive ?_ ?_ hhits
  · rw [hregistry]
    exact same_update hsame x
  · rintro stage' ⟨⟩
    exact ⟨hof, hne⟩
  · rintro k copy stage' hop ⟨⟩
    exact hfound k copy hop

/-- And the thread is in no call on a task. -/
theorem Inv.nextQuiet (h : Inv s) {v : Visit T} (hv : s.manager.visit t = some v)
    (hs : s.nextVisit t v (.next t) = some s') (hop : s.op t = none)
    (hrecord : s.record t v = s) {ρ : Registry} (stage : VisitStage)
    (hnext : (s.manager.registry (v.call.threadId t)).next v.call v.stage = (ρ, some stage))
    (hsame : Same (s.manager.registry (v.call.threadId t)) ρ)
    (hlive : liveOf (s.run t) (some stage) = liveOf (s.run t) (some v.stage))
    (hof : stage.Of v.call) (hne : stage ≠ .removingTask) : Inv s' := by
  refine h.nextIn hv hs hrecord h.hits stage hnext hsame hlive hof hne ?_
  intro k copy hwaiting
  rw [hop] at hwaiting
  cases hwaiting

/-- A call for the thread itself goes on, and may put something into the
maps or take it out. -/
theorem Inv.nextOwn (h : Inv s) {v : Visit T} (hv : s.manager.visit t = some v)
    (hs : s.nextVisit t v (.next t) = some s') (hx : v.call.threadId t = t) (hop : s.op t = none)
    (infoTasks asyncTasks : List K)
    (hrecord : s.record t v = { s with
      infoTasks := Function.update s.infoTasks t infoTasks
      asyncTasks := Function.update s.asyncTasks t asyncTasks })
    (hinfo : ∀ (i : ℕ) k, (s.infoTasks t)[i]? = some k → infoTasks[i]? = some k)
    (hasync : ∀ (a : ℕ) k, (s.asyncTasks t)[a]? = some k → asyncTasks[a]? = some k)
    {ρ : Registry} {stage : VisitStage}
    (hnext : (s.manager.registry t).next v.call v.stage = (ρ, some stage))
    (hlive : ∀ k', liveOf (s.run t) (some stage) = some k' →
      s.live t = some k' ∨ ∀ u k, s.Looking u k t → k' = k)
    (howned : Owned (liveOf (s.run t) (some stage)) (some stage) ρ infoTasks asyncTasks)
    (hof : stage.Of v.call) : Inv s' := by
  obtain ⟨manager, hs', hregistry, hvisit⟩ := nextVisit_next hv hs
  rw [hx, hnext] at hregistry hvisit
  rw [hrecord] at hs'
  have hinfo' : s'.infoTasks = Function.update s.infoTasks t infoTasks := by rw [hs']
  have hasync' : s'.asyncTasks = Function.update s.asyncTasks t asyncTasks := by rw [hs']
  have hrun' : s'.run = s.run := by rw [hs']
  have hop' : s'.op = s.op := by rw [hs']
  have hvisit' : s'.manager.visit t = some { v with stage } := by
    rw [hs', hvisit, Function.update_self]
    rfl
  have hlive' : s'.live t = liveOf (s.run t) (some stage) := by
    rw [live, TerminableThreadPool.stage, hrun', hvisit']
    rfl
  refine h.move (t := t) {
    run := fun u _ => by rw [hrun']
    op := fun u _ => by rw [hop']
    visit := fun u hu => by rw [hs', hvisit, Function.update_of_ne hu]
    registry := fun x hne => by rw [hs', hregistry, Function.update_of_ne hne]; exact .refl _
    infoTasks := fun x hne => by rw [hinfo', Function.update_of_ne hne]
    asyncTasks := fun x hne => by rw [hasync', Function.update_of_ne hne]
    infoTask := fun i k hi => by rw [hinfo', Function.update_self]; exact hinfo i k hi
    asyncTask := fun a k ha => by rw [hasync', Function.update_self]; exact hasync a k ha
    live := fun k' hk' => hlive k' (hlive' ▸ hk')
    owned := ?_
    fits := ?_
    body := by rw [hop', hrun']; exact h.body t
    stored := by rw [hs']; exact h.stored
    calling := ?_
    waiting := ?_
    hits := by rw [hs']; exact h.hits }
  · have hstage' : s'.stage t = some stage := congrArg (Option.map Visit.stage) hvisit'
    have hregistry' : s'.manager.registry t = ρ := by rw [hs', hregistry, Function.update_self]
    rw [hlive', hstage', hregistry', hinfo', hasync', Function.update_self, Function.update_self]
    exact howned
  · intro w hw
    rw [hvisit'] at hw
    cases hw
    rw [hrun', hop']
    exact ⟨(h.fits t v hv).1, hof⟩
  · intro k copy hcalling
    rw [hop', hop] at hcalling
    cases hcalling
  · intro k copy w hwaiting
    rw [hop', hop] at hwaiting
    cases hwaiting

/-- `registerThread`. -/
theorem Inv.nextRegister (h : Inv s) {hashCode : ℤ} {o : ℕ} {stage : VisitStage}
    (hv : s.manager.visit t = some ⟨.registerThread hashCode, o, stage⟩)
    (hcareful : ∀ hashCode, stage = .creating hashCode →
      ∀ u k, s.Looking u k t → ∃ r, s.run t = some r ∧ r.task = k)
    (hs : s.nextVisit t ⟨.registerThread hashCode, o, stage⟩ (.next t) = some s') : Inv s' := by
  obtain ⟨⟨hop, k, hr⟩, hof⟩ := h.fits t _ hv
  have hstage : s.stage t = some stage := congrArg (Option.map Visit.stage) hv
  have hlive : s.live t = liveOf (some ⟨k, hashCode, .storing⟩) (some stage) := by
    rw [live, hr, hstage]
  cases stage with
  | locked => exact h.nextLock hv (.inl rfl) hs
  | leaving => exact h.nextLock hv (.inr (.inl rfl)) hs
  | unlocked => exact h.nextLock hv (.inr (.inr rfl)) hs
  | entered =>
    -- nothing is live yet, so no info is found, and a new one is made
    have hnone : (s.manager.registry t).info = none := by
      cases hinfo : (s.manager.registry t).info with
      | none => rfl
      | some i =>
        obtain ⟨-, k', hk', -⟩ := (h.owned t).info i hinfo
        rw [hlive] at hk'
        cases hk'
    have hnext : (s.manager.registry t).next (.registerThread hashCode : AsyncCall T) .entered =
        (s.manager.registry t, some (.creating hashCode)) := by
      simp [Registry.next, Registry.body, Registry.enter, hnone]
    exact h.nextQuiet hv hs hop rfl _ hnext (.refl _) (by rw [hr]; rfl) rfl (by simp)
  | creating hashCode' =>
    have howned := h.owned t
    have hlive : s.live t = none := hlive
    refine h.nextOwn hv hs rfl hop (s.infoTasks t ++ [k]) (s.asyncTasks t) ?_ (fun i k hi => ?_)
      (fun a k ha => ha) rfl ?_ ?_ ⟨hashCode, rfl⟩
    · rw [Function.update_eq_self]
      simp only [record, hr]
      rfl
    · exact List.getElem?_append_left (List.getElem?_eq_some_iff.mp hi).1 ▸ hi
    · rintro k' hk'
      rw [hr] at hk'
      cases hk'
      -- here the task becomes live: the guard says whom the cancels are of
      refine .inr fun u k' hlooking => ?_
      obtain ⟨r, hr', hk'⟩ := hcareful _ rfl u k' hlooking
      rw [hr] at hr'
      cases hr'
      exact hk'
    · rw [hlive] at howned
      rw [hr]
      exact howned.putInfo (by simp [Registry.body])
  | registering i =>
    exact h.nextQuiet hv hs hop rfl _ rfl ⟨rfl, rfl, rfl, rfl⟩ (by rw [hr]; rfl) trivial
      (by simp [Registry.body])
  | removingTask => cases hof
  | checking | puttingTask =>
    obtain ⟨_, hcall⟩ := hof
    cases hcall
  | _ =>
    obtain ⟨_, _, hcall⟩ := hof
    cases hcall

/-- `unregisterThread`. -/
theorem Inv.nextUnregister (h : Inv s) {o : ℕ} {stage : VisitStage}
    (hv : s.manager.visit t = some ⟨.unregisterThread, o, stage⟩)
    (hs : s.nextVisit t ⟨.unregisterThread, o, stage⟩ (.next t) = some s') : Inv s' := by
  obtain ⟨⟨hop, k, hashCode, hr⟩, hof⟩ := h.fits t _ hv
  have hstage : s.stage t = some stage := congrArg (Option.map Visit.stage) hv
  have hlive : s.live t = liveOf (some ⟨k, hashCode, .ending⟩) (some stage) := by
    rw [live, hr, hstage]
  have howned := h.owned t
  have hrecord : s = { s with
      infoTasks := Function.update s.infoTasks t (s.infoTasks t)
      asyncTasks := Function.update s.asyncTasks t (s.asyncTasks t) } := by
    rw [Function.update_eq_self, Function.update_eq_self]
  cases stage with
  | locked => exact h.nextLock hv (.inl rfl) hs
  | leaving => exact h.nextLock hv (.inr (.inl rfl)) hs
  | unlocked => exact h.nextLock hv (.inr (.inr rfl)) hs
  | entered =>
    refine h.nextOwn hv hs rfl hop _ _ hrecord (fun i k hi => hi) (fun a k ha => ha) rfl ?_ ?_ rfl
    · rw [hr, hlive]
      exact fun k' hk' => .inl hk'
    · rw [hr]
      rw [hlive] at howned
      exact ⟨howned.made, howned.registrations, (fun i hi => by cases hi), howned.task⟩
  | removingTask =>
    refine h.nextOwn hv hs rfl hop _ _ hrecord (fun i k hi => hi) (fun a k ha => ha) rfl ?_ ?_
      trivial
    · rw [hr]
      intro k' hk'
      cases hk'
    -- the info was taken out in the step before
    · refine ⟨howned.made, howned.registrations, fun i hi => ?_, fun a ha => by cases ha⟩
      exact absurd hstage (howned.info i hi).1
  | creating => cases hof
  | registering | checking | puttingTask =>
    obtain ⟨_, hcall⟩ := hof
    cases hcall
  | _ =>
    obtain ⟨_, _, hcall⟩ := hof
    cases hcall

/-- `registerHttpTask`. -/
theorem Inv.nextHttpTask (h : Inv s) {hashCode : ℤ} {o : ℕ} {stage : VisitStage}
    (hv : s.manager.visit t = some ⟨.registerHttpTask hashCode, o, stage⟩)
    (hs : s.nextVisit t ⟨.registerHttpTask hashCode, o, stage⟩ (.next t) = some s') : Inv s' := by
  obtain ⟨⟨hop, k, hashCode', hr⟩, hof⟩ := h.fits t _ hv
  have hstage : s.stage t = some stage := congrArg (Option.map Visit.stage) hv
  have hlive (stage : Option VisitStage) : liveOf (s.run t) stage = some k := by
    rw [hr]
    rfl
  cases stage with
  | locked => exact h.nextLock hv (.inl rfl) hs
  | leaving => exact h.nextLock hv (.inr (.inl rfl)) hs
  | unlocked => exact h.nextLock hv (.inr (.inr rfl)) hs
  | entered =>
    obtain ⟨stage, hnext, hof, hne⟩ : ∃ stage,
        (s.manager.registry t).next (.registerHttpTask hashCode : AsyncCall T) .entered =
          (s.manager.registry t, some stage) ∧
        stage.Of (.registerHttpTask hashCode : AsyncCall T) ∧ stage ≠ .removingTask := by
      simp only [Registry.next, Registry.body, Registry.enter]
      split
      · split
        · exact ⟨_, rfl, ⟨hashCode, rfl⟩, by simp⟩
        · exact ⟨_, rfl, trivial, by simp⟩
      · exact ⟨_, rfl, trivial, by simp⟩
    exact h.nextQuiet hv hs hop rfl _ hnext (.refl _) (by rw [hlive, hlive]) hof hne
  | checking i =>
    obtain ⟨stage, hnext, hof, hne⟩ : ∃ stage,
        (s.manager.registry t).next (.registerHttpTask hashCode : AsyncCall T) (.checking i) =
          (s.manager.registry t, some stage) ∧
        stage.Of (.registerHttpTask hashCode : AsyncCall T) ∧ stage ≠ .removingTask := by
      simp only [Registry.next, Registry.body]
      split
      · exact ⟨_, rfl, trivial, by simp⟩
      · exact ⟨_, rfl, ⟨hashCode, rfl⟩, by simp⟩
    exact h.nextQuiet hv hs hop rfl _ hnext (.refl _) (by rw [hlive, hlive]) hof hne
  | puttingTask =>
    have howned := h.owned t
    refine h.nextOwn hv hs rfl hop (s.infoTasks t) (s.asyncTasks t ++ [k]) ?_ (fun i k hi => hi)
      (fun a k ha => ?_) rfl (fun k' hk' => .inl ?_) ?_ trivial
    · rw [Function.update_eq_self]
      simp only [record, hr]
      rfl
    · exact List.getElem?_append_left (List.getElem?_eq_some_iff.mp ha).1 ▸ ha
    · rw [hlive] at hk'
      rw [live, hlive]
      exact hk'
    · rw [hlive]
      rw [live, hlive] at howned
      exact howned.putTask (by simp [Registry.body])
  | creating => cases hof
  | removingTask => cases hof
  | registering =>
    obtain ⟨_, hcall⟩ := hof
    cases hcall
  | _ =>
    obtain ⟨_, _, hcall⟩ := hof
    cases hcall

omit [DecidableEq T] in
/-- One more is done to a registration of the right task. -/
theorem Inv.hit (h : Inv s) {k : K} {madeFor : Option K} (hk : madeFor = some k) :
    ∀ hit ∈ s.hits ++ [⟨k, madeFor⟩], hit.madeFor = some hit.handedTo := by
  intro hit hhit
  rcases List.mem_append.mp hhit with hhit | hhit
  · exact h.hits hit hhit
  · obtain rfl := List.mem_singleton.mp hhit
    exact hk

/-- **`cancelAsyncTask`**: what it finds is of the task whose copy it
has. -/
theorem Inv.nextCancelAsyncTask (h : Inv s) {x : T} {hashCode : ℤ} {o : ℕ} {stage : VisitStage}
    (hv : s.manager.visit t = some ⟨.cancelAsyncTask x hashCode, o, stage⟩)
    (hs : s.nextVisit t ⟨.cancelAsyncTask x hashCode, o, stage⟩ (.next t) = some s') : Inv s' := by
  obtain ⟨⟨k, hop⟩, hof⟩ := h.fits t _ hv
  have howned := h.owned x
  have hfound : Found (s.live x) (s.infoTasks x) (s.asyncTasks x) k stage :=
    h.waiting t k _ _ hop hv
  have hlive := h.liveOf_op (t := t) (by simp [hop])
  have honly {stage : VisitStage}
      (hstage : Found (s.live x) (s.infoTasks x) (s.asyncTasks x) k stage) (k' : K) (copy : T × ℤ)
      (hop' : s.op t = some (.cancel k' (.waiting copy))) :
      Found (s.live copy.1) (s.infoTasks copy.1) (s.asyncTasks copy.1) k' stage := by
    rw [hop] at hop'
    cases hop'
    exact hstage
  have hcancel : ∃ threadId threadHashCode, (.cancelAsyncTask x hashCode : AsyncCall T) =
      .cancelAsyncTask threadId threadHashCode := ⟨x, hashCode, rfl⟩
  cases stage with
  | locked => exact h.nextLock hv (.inl rfl) hs
  | leaving => exact h.nextLock hv (.inr (.inl rfl)) hs
  | unlocked => exact h.nextLock hv (.inr (.inr rfl)) hs
  | entered =>
    cases hinfo : (s.manager.registry x).info with
    | none =>
      refine h.nextIn hv hs rfl h.hits .leaving ?_ (.refl _) (hlive _ _) trivial
        (by simp) (honly trivial)
      simp [Registry.next, Registry.body, Registry.enter, AsyncCall.threadId, hinfo]
    | some i =>
      -- the info is of the live task, and that is the task of the cancel
      obtain ⟨-, k', hk', hi⟩ := howned.info i hinfo
      obtain rfl := hfound k' hk'
      refine h.nextIn hv hs rfl h.hits (.testing i) ?_ (.refl _) (hlive _ _) hcancel
        (by simp) (honly ⟨hfound, hi⟩)
      simp [Registry.next, Registry.body, Registry.enter, AsyncCall.threadId, hinfo]
  | testing i =>
    have hnext : (s.manager.registry x).next (.cancelAsyncTask x hashCode) (.testing i) =
        (s.manager.registry x, some (if ((s.manager.registry x).infos i).isRegister
          then .testingCancel i else .stopping i)) := rfl
    refine h.nextIn hv hs rfl h.hits _ hnext (.refl _) (hlive _ _) ?_ ?_ (honly ?_) <;> split
    · exact hcancel
    · exact hcancel
    · simp
    · simp
    · exact hfound
    · exact hfound.2
  | testingCancel i =>
    have hnext : (s.manager.registry x).next (.cancelAsyncTask x hashCode) (.testingCancel i) =
        (s.manager.registry x, some (if ((s.manager.registry x).infos i).isCancel
          then .stopping i else .lookingUp i)) := rfl
    refine h.nextIn hv hs rfl h.hits _ hnext (.refl _) (hlive _ _) ?_ ?_ (honly ?_) <;> split
    · exact hcancel
    · exact hcancel
    · simp
    · simp
    · exact hfound.2
    · exact hfound
  | lookingUp i =>
    cases htask : (s.manager.registry x).task with
    | none =>
      refine h.nextIn hv hs rfl h.hits (.stopping i) ?_ (.refl _) (hlive _ _) hcancel
        (by simp) (honly hfound.2)
      simp [Registry.next, Registry.body, AsyncCall.threadId, htask]
    | some a =>
      -- and so is the registered task
      obtain ⟨k', hk', ha⟩ := howned.task a htask
      obtain rfl := hfound.1 k' hk'
      refine h.nextIn hv hs rfl h.hits (.cancelling i a) ?_ (.refl _) (hlive _ _) hcancel
        (by simp) (honly ⟨hfound.2, ha⟩)
      simp [Registry.next, Registry.body, AsyncCall.threadId, htask]
  | cancelling i a =>
    refine h.nextIn hv hs ?_ (h.hit hfound.2) (.settingCancel i) rfl ⟨rfl, rfl, rfl, rfl⟩
      (hlive _ _) hcancel (by simp) (honly hfound.1)
    simp only [record, hop]
    rfl
  | settingCancel i =>
    exact h.nextIn hv hs rfl h.hits (.stopping i) rfl ⟨rfl, rfl, rfl, rfl⟩ (hlive _ _) hcancel
      (by simp) (honly hfound)
  | stopping i =>
    refine h.nextIn hv hs ?_ (h.hit hfound) .leaving rfl ⟨rfl, rfl, rfl, rfl⟩ (hlive _ _) trivial
      (by simp) (honly trivial)
    simp only [record, hop]
    rfl
  | creating => cases hof
  | removingTask => cases hof
  | registering | checking | puttingTask =>
    obtain ⟨_, hcall⟩ := hof
    cases hcall

/-- An `onCancel` that throws was of the right task, too. -/
theorem Inv.throws (h : Inv s) {v : Visit T} (hv : s.manager.visit t = some v)
    (hs : s.nextVisit t v (.throws t) = some s') : Inv s' := by
  obtain ⟨manager, hmanager, rfl⟩ := Option.map_eq_some_iff.mp hs
  obtain ⟨i, a, hstage, hregistry, hvisit⟩ := AsyncTaskManage.step_throws hv hmanager
  obtain ⟨call, o, stage⟩ := v
  obtain rfl : stage = .cancelling i a := hstage
  obtain ⟨hfits, x, hashCode, rfl⟩ := h.fits t _ hv
  obtain ⟨k, hop⟩ := hfits
  have hfound : Found (s.live x) (s.infoTasks x) (s.asyncTasks x) k (.cancelling i a) :=
    h.waiting t k _ _ hop hv
  have hrecord : s.record t ⟨.cancelAsyncTask x hashCode, o, .cancelling i a⟩ =
      { s with hits := s.hits ++ [⟨k, (s.asyncTasks x)[a]?⟩] } := by
    simp only [record, hop]
    rfl
  rw [hrecord]
  have hvisit : manager.visit = Function.update s.manager.visit t
      ((some VisitStage.leaving).map fun stage => ⟨.cancelAsyncTask x hashCode, o, stage⟩) := hvisit
  refine h.goIn rfl rfl rfl rfl rfl hv hvisit (fun y => ?_) ?_ ?_ ?_ (h.hit hfound.2)
  · rw [hregistry]
    refine same_update ?_ y
    exact ⟨rfl, rfl, rfl, rfl⟩
  · exact h.liveOf_op (by simp [hop]) _ _
  · rintro stage' ⟨⟩
    exact ⟨trivial, by simp⟩
  · rintro k copy stage' - ⟨⟩
    trivial

/-! ## The run -/

/-- A call to the manager goes on. -/
theorem Inv.nextVisit (h : Inv s) {v : Visit T} (hv : s.manager.visit t = some v)
    (hok : s.Careful (.next t)) (hs : s.nextVisit t v (.next t) = some s') : Inv s' := by
  obtain ⟨call, o, stage⟩ := v
  cases call with
  | registerThread hashCode =>
    refine h.nextRegister hv (fun hashCode hstage => hok hashCode ?_) hs
    rw [TerminableThreadPool.stage, hv, ← hstage]
    rfl
  | unregisterThread => exact h.nextUnregister hv hs
  | registerHttpTask hashCode => exact h.nextHttpTask hv hs
  | cancelAsyncTask x hashCode => exact h.nextCancelAsyncTask hv hs

variable [DecidableEq K] {a : Act T K}

theorem Inv.nextStep (h : Inv s) (hok : s.Careful (.next t)) (hs : s.nextStep t = some s') :
    Inv s' := by
  unfold TerminableThreadPool.nextStep at hs
  split at hs
  · rename_i hv
    exact h.nextVisit hv hok hs
  · rename_i hvisit hop
    cases hs
    exact h.nextStart hvisit hop
  · rename_i hvisit hop
    cases hs
    exact h.nextCancel hvisit hop
  · rename_i hvisit hop hr
    exact h.nextRun hvisit hop hr hs
  · cases hs

/-- **Every careful step keeps the invariant.** -/
theorem Inv.step (h : Inv s) (hok : s.Careful a) (hs : s.step a = some s') : Inv s' := by
  cases a with
  | start t k =>
    simp only [TerminableThreadPool.step] at hs
    split at hs
    · rename_i hmay
      cases hs
      exact h.makeCall hmay (by simp) (by simp)
    · cases hs
  | cancel t k =>
    simp only [TerminableThreadPool.step] at hs
    split at hs
    · rename_i hmay
      cases hs
      exact h.makeCall hmay (by simp) (by simp)
    · cases hs
  | take t hashCode k =>
    simp only [TerminableThreadPool.step] at hs
    split at hs
    · rename_i hmay
      obtain ⟨hfree, hrun, -⟩ := hmay
      cases hs
      exact h.take hfree (Option.isNone_iff_eq_none.mp hrun)
    · cases hs
  | registerHttpTask t =>
    simp only [TerminableThreadPool.step] at hs
    split at hs
    · rename_i hmay
      obtain ⟨hfree, hbody⟩ := hmay
      obtain ⟨⟨k, hashCode, stage⟩, hr, rfl⟩ := hbody.run
      rw [hr] at hs
      cases hs
      exact h.callHttpTask hfree hr
    · cases hs
  | returns t =>
    simp only [TerminableThreadPool.step] at hs
    split at hs
    · rename_i hmay
      obtain ⟨hfree, hbody⟩ := hmay
      obtain ⟨⟨k, hashCode, stage⟩, hr, rfl⟩ := hbody.run
      rw [hr] at hs
      cases hs
      exact h.returns hfree hr
    · cases hs
  | fails t => exact hok.elim
  | next t => exact h.nextStep hok hs
  | throws t =>
    obtain ⟨v, hv, hs⟩ := Option.bind_eq_some_iff.mp hs
    exact h.throws hv hs

/-- **No task is hit by another's cancel**, in every state a careful run
reaches: of any tasks on any threads, and however their steps are
interleaved. -/
theorem separate_of_reached
    (h : Reached (fun s a s' => TerminableThreadPool.step s a = some s') Careful (· = {}) s) :
    s.Separate := by
  have hinit : ∀ s : TerminableThreadPool T K, s = {} → Inv s := by
    rintro s rfl
    exact Inv.init
  exact Inv.separate (Reached.inv hinit (fun _ _ _ hI hok hs => hI.step hok hs) h)

/-- A task is started, runs and registers an asynchronous task, and is
cancelled. -/
def cancelRunning : List (Act Bool Bool) :=
  .start false true :: List.replicate 4 (.next false) ++
    .take true 7 true :: List.replicate 9 (.next true) ++
    .registerHttpTask true :: List.replicate 6 (.next true) ++
    .cancel false true :: List.replicate 12 (.next false)

/-- No info is put into the map while there is a call on a task. -/
def uncalled (s : TerminableThreadPool Bool Bool) : Act Bool Bool → Bool
  | .fails _ => false
  | .next t =>
    match s.stage t with
    | some (.creating _) => (s.op false).isNone && (s.op true).isNone
    | _ => true
  | _ => true

/-- The cancel hits what the task has registered. -/
theorem separate_cancelRunning :
    ∃ s : TerminableThreadPool Bool Bool,
      s.hits.map (fun hit => (hit.handedTo, hit.madeFor)) =
        [(true, some true), (true, some true)] ∧ s.Separate := by
  have hcheck (s : TerminableThreadPool Bool Bool) (a : Act Bool Bool)
      (ha : uncalled s a = true) : s.Careful a := by
    cases a with
    | fails t => cases ha
    | next t =>
      intro hashCode hstage u k hlooking
      simp only [uncalled, hstage, Bool.and_eq_true, Option.isNone_iff_eq_none] at ha
      obtain ⟨_, hcalling | ⟨hwaiting, -⟩⟩ := hlooking <;> cases u <;> simp_all
    | _ => trivial
  have hrun : (cancelRunning.foldlM
      (fun s a => if uncalled s a then TerminableThreadPool.step s a else none) {}).map
        (fun s => s.hits.map fun hit => (hit.handedTo, hit.madeFor)) =
      some [(true, some true), (true, some true)] := by decide +kernel
  obtain ⟨s, hs, hhits⟩ := Option.map_eq_some_iff.mp hrun
  exact ⟨s, hhits, separate_of_reached (Reached.checked uncalled hcheck (.start rfl) hs)⟩

/-- The body of a task throws. -/
def throwingBody : List (Act Bool (Fin 21)) :=
  .start false 0 :: List.replicate 4 (.next false) ++
    .take true 7 0 :: List.replicate 9 (.next true) ++ [.fails true]

/-- As many tasks are started as the pool has threads, and one more. While
one is cancelled, its body returns, and its thread takes the last. -/
def staleCancel : List (Act Bool (Fin 21)) :=
  (List.finRange 21).flatMap (fun k => .start false k :: List.replicate 4 (.next false)) ++
    .take true 7 0 :: List.replicate 9 (.next true) ++
    .cancel false 0 :: List.replicate 3 (.next false) ++
    .returns true :: List.replicate 8 (.next true) ++
    .take true 7 20 :: List.replicate 9 (.next true) ++
    .registerHttpTask true :: List.replicate 6 (.next true) ++ List.replicate 9 (.next false)

/-- **The next task is hit**: its `onCancel` is invoked, and it is stopped, by
the cancel of the task that the thread ran before. And where a body throws,
its thread stays registered. -/
theorem not_separate_nextTask :
    (∃ s : TerminableThreadPool Bool (Fin 21),
      Reached (fun s a s' => TerminableThreadPool.step s a = some s') (fun _ _ => True) (· = {}) s ∧
      s.hits.map (fun hit => (hit.handedTo, hit.madeFor)) = [(0, some 20), (0, some 20)] ∧
      ¬ s.Separate) ∧
    (∃ s : TerminableThreadPool Bool (Fin 21),
      Reached (fun s a s' => TerminableThreadPool.step s a = some s') (fun _ _ => True) (· = {}) s ∧
      (s.manager.registry true).info = some 0 ∧ s.run true = none ∧ ¬ s.Separate) := by
  constructor
  · have hrun : (staleCancel.foldlM TerminableThreadPool.step {}).map
        (fun s => s.hits.map fun hit => (hit.handedTo, hit.madeFor)) =
        some [(0, some 20), (0, some 20)] := by decide +kernel
    obtain ⟨s, hs, hhits⟩ := Option.map_eq_some_iff.mp hrun
    refine ⟨s, Reached.foldlM (.start rfl) hs, hhits, fun hseparate => ?_⟩
    obtain ⟨hit, hmem, heq⟩ := List.mem_map.mp (hhits ▸ List.mem_cons_self :
      (0, some 20) ∈ s.hits.map fun hit => (hit.handedTo, hit.madeFor))
    have hmade := hseparate.hits hit hmem
    rw [Prod.mk.injEq] at heq
    rw [heq.1, heq.2] at hmade
    exact absurd hmade (by decide)
  · have hrun : (throwingBody.foldlM TerminableThreadPool.step {}).map
        (fun s => ((s.manager.registry true).info, (s.run true).isNone)) =
        some (some 0, true) := by decide +kernel
    obtain ⟨s, hs, heq⟩ := Option.map_eq_some_iff.mp hrun
    rw [Prod.mk.injEq, Option.isNone_iff_eq_none] at heq
    refine ⟨s, Reached.foldlM (.start rfl) hs, heq.1, heq.2, fun hseparate => ?_⟩
    obtain ⟨r, hr, -⟩ := hseparate.running true 0 heq.1
    rw [heq.2] at hr
    cases hr

end TerminableThreadPool

end SambaProvider

import SambaProvider.Thread.Ownership

/-!
# The steps outside the manager

`start`, `cancel` and `mRunnable`, between the calls to the manager. A copy
that `cancel` reads is of the thread that runs the task then; and what is
registered for a thread stays with its task from `registerThread` to
`unregisterThread`.
-/

namespace SambaProvider

namespace TerminableThreadPool

variable {T K : Type} [DecidableEq T] {s s' : TerminableThreadPool T K} {t : T}

/-- A copy of another thread stays. -/
theorem Inv.stored_other (h : Inv s) {k : K} {copy : T × ℤ}
    (hcopy : (s.task k).mThreadInfo = some copy) (hx : copy.1 ≠ t) (run : Option (Run K)) :
    ∃ r, Function.update s.run t run copy.1 = some r ∧ r.task = k ∧
      (r.stage = .running ∨ r.stage = .clearing) := by
  rw [Function.update_of_ne hx]
  exact h.stored k copy hcopy

/-- A thread goes on in what it does with a task. -/
theorem Inv.setOp (h : Inv s) (hvisit : s.manager.visit t = none)
    {task : K → TerminableThread T} {queue : List K} {op : Option (TaskOp T K)}
    (htask : ∀ k, (task k).mThreadInfo = (s.task k).mThreadInfo)
    (hbody : ∀ r, op ≠ none → s.run t = some r → r.stage = .running)
    (hwaiting : ∀ k copy, op ≠ some (.cancel k (.waiting copy)))
    (htarget : ∀ k copy, op = some (.cancel k (.calling copy)) →
      ∀ k', s.live copy.1 = some k' → k' = k) :
    Inv { s with task, queue, op := Function.update s.op t op } := by
  refine h.goOn (t := t) (s.run t) op none hvisit
    (Function.update_eq_self t s.run).symm rfl ?_ rfl rfl rfl rfl rfl (fun v hv => by cases hv)
    hbody (fun k copy hk => h.stored k copy (htask k ▸ hk)) ?_
  · rw [← hvisit, Function.update_eq_self]
  · rintro k copy (hop | ⟨hop, -⟩)
    · exact htarget k copy hop
    · exact absurd hop (hwaiting k copy)

omit [DecidableEq T] in
theorem task_setTask [DecidableEq K] {k k' : K}
    {set : TerminableThread T → TerminableThread T} :
    (s.setTask k set).task k' = if k' = k then set (s.task k) else s.task k' :=
  Function.update_apply ..

omit [DecidableEq T] in
/-- Fields other than `mThreadInfo` are set. -/
theorem mThreadInfo_setTask [DecidableEq K] {k : K}
    {set : TerminableThread T → TerminableThread T}
    (hset : ∀ task, (set task).mThreadInfo = task.mThreadInfo) (k' : K) :
    ((s.setTask k set).task k').mThreadInfo = (s.task k').mThreadInfo := by
  rw [task_setTask]
  split
  · rename_i hk
    rw [hset, hk]
  · rfl

/-- A thread goes on in what it runs, and may call the manager. -/
theorem Inv.setRun (h : Inv s) (hvisit : s.manager.visit t = none) (hop : s.op t = none)
    {task : K → TerminableThread T} {queue : List K} {run : Option (Run K)}
    (hlive : liveOf run none = liveOf (s.run t) none)
    (hstored : ∀ k copy, (task k).mThreadInfo = some copy →
      ∃ r, Function.update s.run t run copy.1 = some r ∧ r.task = k ∧
        (r.stage = .running ∨ r.stage = .clearing)) :
    Inv { s with task, queue, run := Function.update s.run t run } := by
  refine h.goOn (t := t) run none none hvisit rfl
    ?_ ?_ rfl rfl rfl rfl hlive (fun v hv => by cases hv) (fun _ hne => absurd rfl hne) hstored ?_
  · rw [← hop, Function.update_eq_self]
  · rw [← hvisit, Function.update_eq_self]
  · rintro k copy (hcalling | ⟨-, hne⟩)
    · cases hcalling
    · exact absurd rfl hne

/-- It calls the manager for itself. -/
theorem Inv.call (h : Inv s) (hvisit : s.manager.visit t = none) (hop : s.op t = none)
    {r : Run K} {call : AsyncCall T}
    (hlive : liveOf (some r) (some .locked) = liveOf (s.run t) none)
    (hfits : Fits (some r) none call)
    (hstored : ∀ k copy, (s.task k).mThreadInfo = some copy →
      ∃ r', Function.update s.run t (some r) copy.1 = some r' ∧ r'.task = k ∧
        (r'.stage = .running ∨ r'.stage = .clearing)) :
    Inv ((s.call t call).setRun t (some r)) := by
  obtain ⟨o, ho⟩ := AsyncTaskManage.visit_lock s.manager t call
  refine h.goOn (t := t) (some r) none _ hvisit rfl ?_ ho
    AsyncTaskManage.registry_lock rfl rfl rfl hlive ?_ (fun _ hne => absurd rfl hne) hstored ?_
  · rw [← hop, Function.update_eq_self]
    rfl
  · rintro v ⟨⟩
    exact ⟨rfl, hfits⟩
  · rintro k copy (hcalling | ⟨hcalling, -⟩)
    · cases hcalling
    · cases hcalling

/-- A call on a task is made. -/
theorem Inv.makeCall (h : Inv s) (hmay : s.MayCall t) {op : TaskOp T K}
    (hwaiting : ∀ k copy, some op ≠ some (.cancel k (.waiting copy)))
    (hcalling : ∀ k copy, some op ≠ some (.cancel k (.calling copy))) :
    Inv (s.setOp t (some op)) := by
  obtain ⟨hfree, hrun⟩ := hmay
  refine h.setOp hfree.visit (fun _ => rfl) (fun r _ hr => ?_) hwaiting
    fun k copy hop => absurd hop (hcalling k copy)
  rcases hrun with hnone | hbody
  · rw [hr] at hnone
    cases hnone
  · obtain ⟨r', hr', hstage⟩ := hbody.run
    rw [hr] at hr'
    cases hr'
    exact hstage

/-- A thread takes a task. -/
theorem Inv.take (h : Inv s) (hfree : s.Free t) (hrun : s.run t = none) {queue : List K} {k : K}
    {hashCode : ℤ} : Inv ({ s with queue }.setRun t (some ⟨k, hashCode, .checking⟩)) := by
  refine h.setRun hfree.visit hfree.op (by rw [hrun]; rfl) fun k' copy hcopy => ?_
  refine h.stored_other hcopy (fun hx => ?_) _
  obtain ⟨r, hr, -⟩ := h.stored k' copy hcopy
  rw [hx, hrun] at hr
  cases hr

/-- A body calls `registerHttpTask`. -/
theorem Inv.callHttpTask (h : Inv s) (hfree : s.Free t) {k : K} {hashCode : ℤ}
    (hr : s.run t = some ⟨k, hashCode, .running⟩) :
    Inv (s.call t (.registerHttpTask hashCode)) := by
  have hrun : Function.update s.run t (some ⟨k, hashCode, .running⟩) = s.run := by
    rw [← hr, Function.update_eq_self]
  have hsame : s.call t (.registerHttpTask hashCode) =
      (s.call t (.registerHttpTask hashCode)).setRun t (some ⟨k, hashCode, .running⟩) :=
    congrArg (fun run => { s.call t (.registerHttpTask hashCode) with run }) hrun.symm
  rw [hsame]
  refine h.call hfree.visit hfree.op (by rw [hr]; rfl) ⟨rfl, k, hashCode, rfl⟩ ?_
  rw [hrun]
  exact h.stored

/-- A body returns. -/
theorem Inv.returns (h : Inv s) (hfree : s.Free t) {k : K} {hashCode : ℤ}
    (hr : s.run t = some ⟨k, hashCode, .running⟩) :
    Inv (s.setRun t (some ⟨k, hashCode, .clearing⟩)) := by
  refine h.setRun hfree.visit hfree.op (by rw [hr]; rfl) fun k' copy hcopy => ?_
  by_cases hx : copy.1 = t
  · rw [hx, Function.update_self]
    exact ⟨_, rfl, (h.stored_self hcopy hx hr).1, .inr rfl⟩
  · exact h.stored_other hcopy hx _

variable [DecidableEq K] {k : K} {r : Run K}

/-- `start` goes on. -/
theorem Inv.nextStart (h : Inv s) (hvisit : s.manager.visit t = none) {stage : StartStage}
    (hop : s.op t = some (.start k stage)) : Inv (s.nextStart t k stage) := by
  have hbody (r : Run K) (hr : s.run t = some r) : r.stage = .running :=
    h.body t r (by simp [hop]) hr
  cases stage with
  | testing =>
    refine h.setOp hvisit (fun _ => rfl) (fun r _ => hbody r) ?_ ?_ <;> intro k' copy <;> split <;>
      simp
  | setting =>
    exact h.setOp hvisit (mThreadInfo_setTask fun _ => rfl) (fun r _ => hbody r)
      (by simp) (by simp)
  | clearing =>
    exact h.setOp hvisit (mThreadInfo_setTask fun _ => rfl) (fun r _ => hbody r)
      (by simp) (by simp)
  | adding => exact h.setOp hvisit (fun _ => rfl) (fun r _ => hbody r) (by simp) (by simp)

/-- `cancel` goes on: a copy that is read is of a thread that runs the
task. -/
theorem Inv.nextCancel (h : Inv s) (hvisit : s.manager.visit t = none) {stage : CancelStage T}
    (hop : s.op t = some (.cancel k stage)) : Inv (s.nextCancel t k stage) := by
  have hbody (r : Run K) (hr : s.run t = some r) : r.stage = .running :=
    h.body t r (by simp [hop]) hr
  cases stage with
  | setting =>
    exact h.setOp hvisit (mThreadInfo_setTask fun _ => rfl) (fun r _ => hbody r)
      (by simp) (by simp)
  | testing =>
    refine h.setOp hvisit (fun _ => rfl) (fun r _ => hbody r) ?_ ?_ <;> intro k' copy <;> split <;>
      simp
  | reading =>
    refine h.setOp hvisit (fun _ => rfl) (fun r _ => hbody r) (by simp) ?_
    intro k' copy hcopy k'' hlive
    obtain ⟨_, hstored, heq⟩ := Option.map_eq_some_iff.mp hcopy
    cases heq
    -- what is live on the thread of the copy is of the task it runs
    obtain ⟨r, hr, hk, -⟩ := h.stored k copy hstored
    rw [live, hr, liveOf_some] at hlive
    split at hlive
    · cases hlive
      exact hk
    · cases hlive
  | calling copy =>
    obtain ⟨o, ho⟩ := AsyncTaskManage.visit_lock s.manager t
      (.cancelAsyncTask copy.1 copy.2)
    refine h.goOn (t := t) (s.run t) _ _ hvisit (Function.update_eq_self t s.run).symm rfl ho
      AsyncTaskManage.registry_lock rfl rfl rfl ?_ ?_ (fun r _ => hbody r) h.stored ?_
    · exact h.liveOf_op (by simp [hop]) _ _
    · rintro v ⟨⟩
      exact ⟨rfl, k, rfl⟩
    · rintro k' copy' (hcalling | ⟨hcalling, -⟩)
      · cases hcalling
      · cases hcalling
        exact h.calling t k copy hop
  | waiting copy => exact h.setOp hvisit (fun _ => rfl) (fun r _ => hbody r) (by simp) (by simp)

/-- `mRunnable` goes on. -/
theorem Inv.nextRun (h : Inv s) (hvisit : s.manager.visit t = none) (hop : s.op t = none)
    (hr : s.run t = some r) (hs : s.nextRun t r = some s') : Inv s' := by
  obtain ⟨k, hashCode, stage⟩ := r
  have hkeep (hstage : stage ≠ .running ∧ stage ≠ .clearing) (run : Option (Run K)) :
      ∀ k' copy, (s.task k').mThreadInfo = some copy →
        ∃ r, Function.update s.run t run copy.1 = some r ∧ r.task = k' ∧
          (r.stage = .running ∨ r.stage = .clearing) := by
    intro k' copy hcopy
    refine h.stored_other hcopy (fun hx => ?_) run
    exact (h.stored_self hcopy hx hr).2.elim hstage.1 hstage.2
  cases stage with
  | checking =>
    cases hs
    refine h.setRun hvisit hop ?_ (hkeep (by simp) _)
    rw [hr]
    split <;> rfl
  | registering =>
    cases hs
    exact h.call hvisit hop (by rw [hr]; rfl) ⟨rfl, k, rfl⟩ (hkeep (by simp) _)
  | storing =>
    cases hs
    refine h.setRun hvisit hop (by rw [hr]; rfl) ?_
    intro k' copy hcopy
    rw [task_setTask] at hcopy
    split at hcopy
    · rename_i hk'
      cases hcopy
      exact ⟨_, Function.update_self .., hk'.symm, .inl rfl⟩
    · exact hkeep (by simp) _ k' copy hcopy
  | running => cases hs
  | clearing =>
    cases hs
    refine h.setRun hvisit hop (by rw [hr]; rfl) ?_
    intro k' copy hcopy
    rw [task_setTask] at hcopy
    split at hcopy
    · cases hcopy
    · rename_i hk'
      exact h.stored_other hcopy (fun hx => hk' (h.stored_self hcopy hx hr).1.symm) _
  | unregistering =>
    cases hs
    exact h.call hvisit hop (by rw [hr]; rfl) ⟨rfl, k, hashCode, rfl⟩ (hkeep (by simp) _)
  | ending =>
    cases hs
    refine h.setRun hvisit hop (by rw [hr]; rfl) fun k' copy hcopy => ?_
    exact hkeep (by simp) _ k' copy
      ((mThreadInfo_setTask (by intro _; rfl) k').symm.trans hcopy)

end TerminableThreadPool

end SambaProvider

import SambaProvider.Lib.Run
import SambaProvider.Loading.TaskManager

/-!
# A waiting cursor and its task

A cursor that waits relies on the task registered under its URI, its own
or another. It is let down where that task comes to an end without
telling it: because it is of a kind that notifies nobody, because it was
cancelled before it had a result, or because the notification came
before the cursor was there to hear it. Everywhere else somebody wakes
it.
-/

namespace SambaProvider

open Lib

namespace Loading

variable {s s' : Loading} {i : ℕ} {t u : LoadingTask} {c : LoadingCursor}

/-- A cursor is left loading with nobody to wake it. -/
def Stranded (s : Loading) : Prop :=
  (∃ c ∈ s.cursors, c.place = .returned ∧ c.loading = true ∧ c.notified = false) ∧ s.current = none

/-- What the steps must respect. A query does not leave its work to a
task that has already called back, and a task calls back only when every
cursor that waits can hear it: the task notifies the URI, and the query
has returned. -/
def Careful (s : Loading) : Act → Prop
  | .query found => found.loadingTask ≠ none → ∀ t, s.current = some t → t.work ≠ .calledBack
  | .callback i => ∀ t ok, s.tasks[i]? = some t → t.work = .posted ok →
      ∀ c ∈ s.cursors, c.waiting = true → t.notifies ok = true ∧ c.place = .returned
  | _ => True

/-- Somebody waits, so the registered task is at work and has not called
back. -/
def Attended (s : Loading) : Prop :=
  ∃ i t, s.registered = some i ∧ s.tasks[i]? = some t ∧ t.status = .running ∧ t.work ≠ .calledBack

/-- The invariant. -/
structure Inv (s : Loading) : Prop where
  /-- The registered task has been executed, -/
  executed : ∀ i, s.registered = some i → ∃ t, s.tasks[i]? = some t ∧ t.status ≠ .pending
  /-- and no other task runs. -/
  only : ∀ i t, s.tasks[i]? = some t → t.status = .running → s.registered = some i
  /-- A cursor waits for it to call back. -/
  waiting : ∀ c ∈ s.cursors, c.waiting = true → s.Attended

theorem Inv.init : Inv {} := by
  constructor <;> simp

/-! ## The registered task -/

theorem current_eq_some : s.current = some t ↔
    ∃ i, s.registered = some i ∧ s.tasks[i]? = some t ∧ t.status ≠ .finished := by
  unfold current
  rcases s.registered with _ | i
  · simp
  · simp [Option.filter_eq_some_iff]

theorem Inv.running_of_current (h : Inv s) (hc : s.current = some t) :
    ∃ i, s.registered = some i ∧ s.tasks[i]? = some t ∧ t.status = .running := by
  obtain ⟨i, hr, ht, hf⟩ := current_eq_some.mp hc
  obtain ⟨t', ht', hp⟩ := h.executed i hr
  have htt : t' = t := Option.some.inj (ht'.symm.trans ht)
  refine ⟨i, hr, ht, ?_⟩
  rw [htt] at hp
  cases hst : t.status with
  | pending => exact absurd hst hp
  | running => rfl
  | finished => exact absurd hst hf

theorem Attended.current_ne_none (h : s.Attended) : s.current ≠ none := by
  obtain ⟨i, t, hr, ht, hst, -⟩ := h
  have : s.current = some t := current_eq_some.mpr ⟨i, hr, ht, by simp [hst]⟩
  simp [this]

/-- **Nobody is stranded** as long as the invariant holds. -/
theorem Inv.not_stranded (h : Inv s) : ¬ Stranded s := by
  rintro ⟨⟨c, hc, hplace, hload, hnot⟩, hcur⟩
  exact (h.waiting c hc (by simp [LoadingCursor.waiting, hplace, hload, hnot])).current_ne_none hcur

/-! ## Steps of a task -/

theorem tasks_setTask {j : ℕ} (h : s.tasks[i]? = some t) :
    (s.setTask i u).tasks[j]? = if i = j then some u else s.tasks[j]? := by
  have hlt : i < s.tasks.length := (List.getElem?_eq_some_iff.mp h).1
  unfold setTask
  by_cases hij : i = j
  · simp [← hij, hlt]
  · simp [List.getElem?_set_ne hij, hij]

/-- A step of one task that leaves its status alone. -/
theorem Inv.setTask (h : Inv s) (ht : s.tasks[i]? = some t) (hst : u.status = t.status)
    (hw : u.work = .calledBack → t.work ≠ .calledBack → ∀ c ∈ s.cursors, c.waiting = false) :
    Inv (s.setTask i u) := by
  refine ⟨fun j hj => ?_, fun j t' ht' hrun => ?_, fun c hc hwait => ?_⟩
  · obtain ⟨t', ht', hp⟩ := h.executed j hj
    rw [tasks_setTask ht]
    split
    · rename_i hij
      have htt : t' = t := Option.some.inj (ht'.symm.trans (hij ▸ ht))
      exact ⟨u, rfl, by rw [hst, ← htt]; exact hp⟩
    · exact ⟨t', ht', hp⟩
  · rw [tasks_setTask ht] at ht'
    split at ht'
    · rename_i hij
      cases ht'
      exact hij ▸ h.only i t ht (by rw [← hst]; exact hrun)
    · exact h.only j t' ht' hrun
  · obtain ⟨j, t', hr, ht', hrun, hcb⟩ := h.waiting c hc hwait
    refine ⟨j, if i = j then u else t', hr, ?_, ?_, ?_⟩
    · rw [tasks_setTask ht]
      split
      · rfl
      · exact ht'
    · split
      · rename_i hij
        have htt : t' = t := Option.some.inj (ht'.symm.trans (hij ▸ ht))
        rw [hst, ← htt]
        exact hrun
      · exact hrun
    · split
      · rename_i hij
        have htt : t' = t := Option.some.inj (ht'.symm.trans (hij ▸ ht))
        rw [htt] at hcb
        intro hu
        simp [hw hu hcb c hc] at hwait
      · exact hcb

/-- A step of cursors alone. -/
theorem Inv.setCursors (h : Inv s) {cs : List LoadingCursor}
    (hcs : ∀ c ∈ cs, c.waiting = true → s.Attended) : Inv { s with cursors := cs } :=
  ⟨h.executed, h.only, hcs⟩

theorem getElem?_append_of_some {l : List LoadingTask} {x : LoadingTask} (h : l[i]? = some t) :
    (l ++ [x])[i]? = some t := by
  have hlt : i < l.length := (List.getElem?_eq_some_iff.mp h).1
  rw [List.getElem?_append_left hlt]
  exact h

theorem of_getElem?_append {l : List LoadingTask} {x : LoadingTask}
    (h : (l ++ [x])[i]? = some t) : l[i]? = some t ∨ (i = l.length ∧ t = x) := by
  rcases Nat.lt_or_ge i l.length with hlt | hge
  · rw [List.getElem?_append_left hlt] at h
    exact .inl h
  · rw [List.getElem?_append_right hge] at h
    have hi : i - l.length = 0 := by
      by_contra hne
      rw [List.getElem?_singleton, if_neg hne] at h
      cases h
    rw [hi] at h
    exact .inr ⟨by omega, (Option.some.inj h).symm⟩

/-- **`runTask`.** The new task is registered, or it is ignored in favour
of one that is not finished. -/
theorem Inv.runTask (h : Inv s) (kind : TaskKind) :
    Inv (s.runTask kind) ∧
      ((∀ t, s.current = some t → t.work ≠ .calledBack) → (s.runTask kind).Attended) := by
  unfold Loading.runTask
  rcases hc : s.current with _ | t
  · have hnone : ∀ (j : ℕ) (t' : LoadingTask), s.tasks[j]? = some t' → t'.status ≠ .running := by
      intro j t' ht' hrun
      have : s.current = some t' :=
        current_eq_some.mpr ⟨j, h.only j t' ht' hrun, ht', by simp [hrun]⟩
      rw [hc] at this
      cases this
    have hatt : Attended { s with
        tasks := s.tasks ++ [{ kind := kind, status := .running }]
        registered := some s.tasks.length } :=
      ⟨s.tasks.length, { kind := kind, status := .running }, rfl, by simp, rfl, by simp⟩
    refine ⟨⟨fun j hj => ?_, fun j t' ht' hrun => ?_, fun c hc' hwait => hatt⟩, fun _ => hatt⟩
    · cases hj
      exact ⟨{ kind := kind, status := .running }, by simp, by simp⟩
    · rcases of_getElem?_append ht' with ht' | ⟨rfl, -⟩
      · exact absurd hrun (hnone j t' ht')
      · rfl
  · obtain ⟨i, hr, ht, hrun⟩ := h.running_of_current hc
    have hkeep : s.Attended → Attended { s with tasks := s.tasks ++ [{ kind := kind }] } := by
      rintro ⟨j, t', hr', ht', hrun', hcb⟩
      exact ⟨j, t', hr', getElem?_append_of_some ht', hrun', hcb⟩
    refine ⟨⟨fun j hj => ?_, fun j t' ht' hrun' => ?_, fun c hc' hwait =>
      hkeep (h.waiting c hc' hwait)⟩, fun hcb => ?_⟩
    · obtain ⟨t', ht', hp⟩ := h.executed j hj
      exact ⟨t', getElem?_append_of_some ht', hp⟩
    · rcases of_getElem?_append ht' with ht' | ⟨-, rfl⟩
      · exact h.only j t' ht' hrun'
      · cases hrun'
    · exact ⟨i, t, hr, getElem?_append_of_some ht, hrun, hcb t rfl⟩

theorem waiting_set {l : List LoadingCursor} {c' : LoadingCursor} {P : Prop}
    (hl : ∀ c ∈ l, c.waiting = true → P) (hc' : c'.waiting = true → P) :
    ∀ c ∈ l.set i c', c.waiting = true → P := by
  intro c hc hwait
  rcases List.mem_or_eq_of_mem_set hc with hc | rfl
  · exact hl c hc hwait
  · exact hc' hwait

theorem cancel_status : t.cancel.status = t.status := by
  unfold LoadingTask.cancel
  split <;> rfl

theorem cancel_work : t.cancel.work = t.work := by
  unfold LoadingTask.cancel
  split <;> rfl

theorem Inv.cancel (h : Inv s) (ht : s.tasks[i]? = some t) : Inv (s.setTask i t.cancel) :=
  h.setTask ht cancel_status fun hu hne => absurd (cancel_work ▸ hu) hne

/-! ## The steps -/

theorem Inv.query (h : Inv s) {found : CacheView} (hok : s.Careful (.query found))
    (hs : s.step (.query found) = some s') : Inv s' := by
  simp only [step] at hs
  rcases hk : found.loadingTask with _ | kind
  · rw [hk] at hs
    cases hs
    refine h.setCursors fun c hc hwait => ?_
    rcases List.mem_append.mp hc with hc | hc
    · exact h.waiting c hc hwait
    · rw [List.mem_singleton.mp hc] at hwait
      cases hwait
  · rw [hk] at hs
    cases hs
    obtain ⟨hinv, hatt⟩ := h.runTask kind
    exact hinv.setCursors fun c hc hwait => hatt (hok (by simp [hk]))

theorem Inv.queryReturns (h : Inv s) (hs : s.step (.queryReturns i) = some s') : Inv s' := by
  simp only [step] at hs
  rcases hc : s.cursors[i]? with _ | c
  · rw [hc] at hs
    cases hs
  · rw [hc] at hs
    simp only at hs
    split at hs
    · rename_i hplace
      cases hs
      refine h.setCursors (waiting_set h.waiting fun hwait => ?_)
      refine h.waiting c (List.mem_of_getElem? hc) ?_
      simpa [LoadingCursor.waiting, hplace] using hwait
    · cases hs

theorem Inv.closeCursor (h : Inv s) (hs : s.step (.closeCursor i) = some s') : Inv s' := by
  simp only [step] at hs
  rcases hc : s.cursors[i]? with _ | c
  · rw [hc] at hs
    cases hs
  · rw [hc] at hs
    simp only at hs
    have h' : Inv (s.setCursor i { c with place := .closed }) :=
      h.setCursors (waiting_set h.waiting fun hwait => by simp [LoadingCursor.waiting] at hwait)
    split at hs
    · rcases hj : c.loadingTask.bind fun j => s.tasks[j]?.map fun t => (j, t) with _ | ⟨j, t⟩
      · rw [hj] at hs
        cases hs
        exact h'
      · rw [hj] at hs
        cases hs
        have ht : s.tasks[j]? = some t := by
          simp only [Option.bind_eq_some_iff, Option.map_eq_some_iff, Prod.mk.injEq] at hj
          obtain ⟨j', -, t', ht', rfl, rfl⟩ := hj
          exact ht'
        exact h'.cancel ht
    · cases hs

/-- A cursor that was returned does not wait after a notification. -/
theorem waiting_notify (h : c.waiting = true → c.place = .returned) : c.notify.waiting = false := by
  unfold LoadingCursor.notify
  split
  · simp [LoadingCursor.waiting]
  · rename_i hp
    by_contra hw
    exact hp (h (by simpa using hw))

theorem Inv.callback (h : Inv s) (hok : s.Careful (.callback i))
    (hs : s.step (.callback i) = some s') : Inv s' := by
  simp only [step] at hs
  rcases ht : s.tasks[i]? with _ | t
  · rw [ht] at hs
    cases hs
  · rw [ht] at hs
    rcases hw : t.work with _ | _ | ok | _ <;> simp only [hw] at hs <;> try cases hs
    have hcare := hok t ok ht hw
    split at hs
    · split at hs
      · cases hs
        have hnot : ∀ c ∈ s.cursors.map LoadingCursor.notify, c.waiting = false := by
          intro c hc
          obtain ⟨c', hc', rfl⟩ := List.mem_map.mp hc
          exact waiting_notify fun hwait => (hcare c' hc' hwait).2
        have h' : Inv { s with cursors := s.cursors.map LoadingCursor.notify } :=
          h.setCursors fun c hc hwait => by simp [hnot c hc] at hwait
        exact h'.setTask ht rfl fun _ _ => hnot
      · rename_i hn
        cases hs
        refine h.setTask ht rfl fun _ _ c hc => ?_
        by_contra hwait
        exact hn (hcare c hc (by simpa using hwait)).1
    · cases hs

theorem Inv.finish (h : Inv s) (hs : s.step (.finish i) = some s') : Inv s' := by
  simp only [step] at hs
  rcases ht : s.tasks[i]? with _ | t
  · rw [ht] at hs
    cases hs
  · rw [ht] at hs
    simp only at hs
    split at hs
    · rename_i hrun
      cases hs
      have hr : s.registered = some i := h.only i t ht hrun.1
      refine ⟨fun j hj => ?_, fun j t' ht' hrun' => ?_, fun c hc hwait => ?_⟩
      · have hij : i = j := Option.some.inj (hr.symm.trans hj)
        exact ⟨{ t with status := .finished }, by rw [tasks_setTask ht, if_pos hij], by simp⟩
      · rw [tasks_setTask ht] at ht'
        split at ht'
        · cases ht'
          cases hrun'
        · exact h.only j t' ht' hrun'
      · -- the task has called back, so nobody waits for it
        obtain ⟨j, t', hr', ht', -, hcb⟩ := h.waiting c hc hwait
        have hij : i = j := Option.some.inj (hr.symm.trans hr')
        rw [← hij, ht] at ht'
        exact absurd (Option.some.inj ht' ▸ hrun.2) hcb
    · cases hs

/-- A step that only changes how far a task is. -/
theorem Inv.work (h : Inv s) {p : LoadingTask → Prop} [DecidablePred p] {w : Work}
    (hw : w ≠ .calledBack)
    (hs : (match s.tasks[i]? with
      | some t => if p t then some (s.setTask i { t with work := w }) else none
      | none => none) = some s') : Inv s' := by
  rcases ht : s.tasks[i]? with _ | t
  · rw [ht] at hs
    cases hs
  · rw [ht] at hs
    simp only at hs
    split at hs
    · cases hs
      exact h.setTask ht rfl fun hu _ => absurd hu hw
    · cases hs

/-- **Every careful step keeps the invariant.** -/
theorem Inv.step {a : Act} (h : Inv s) (hok : s.Careful a) (hs : s.step a = some s') : Inv s' := by
  cases a with
  | query found => exact h.query hok hs
  | queryReturns c => exact h.queryReturns hs
  | closeCursor c => exact h.closeCursor hs
  | submit kind =>
    cases hs
    exact (h.runTask kind).1
  | start i => exact h.work (by simp) hs
  | skip i => exact h.work (by simp) hs
  | endBackground i ok => exact h.work (by simp) hs
  | callback i => exact h.callback hok hs
  | finish i => exact h.finish hs
  | cancel i =>
    simp only [Loading.step] at hs
    rcases ht : s.tasks[i]? with _ | t
    · rw [ht] at hs
      cases hs
    · rw [ht] at hs
      cases hs
      exact h.cancel ht

/-- **No cursor is left loading with nobody to wake it** in the runs
whose steps are careful. -/
theorem not_stranded_of_reached
    (h : Reached (fun s a s' => step s a = some s') Careful (· = {}) s) : ¬ Stranded s :=
  (h.inv (I := Inv) (by rintro s rfl; exact .init) fun _ _ _ hI hok hs =>
    hI.step hok hs).not_stranded

/-- A first query, whose task loads the document and finishes. -/
theorem not_stranded_firstQuery :
    ∃ s : Loading, s.cursors = [⟨true, some 0, .returned, true⟩] ∧ ¬ Stranded s := by
  have h : Reached (fun s a s' => step s a = some s') Careful (· = {}) {} := .start rfl
  have h := h.next (a := Act.query .miss) rfl fun _ t ht => by cases ht
  have h := h.next (a := Act.queryReturns 0) rfl trivial
  have h := h.next (a := Act.start 0) rfl trivial
  have h := h.next (a := Act.endBackground 0 true) rfl trivial
  have h := h.next (a := Act.callback 0) rfl fun t ok ht hw => by
    cases ht
    cases hw
    decide
  have h := h.next (a := Act.finish 0) rfl trivial
  exact ⟨_, rfl, not_stranded_of_reached h⟩

/-- **A cursor is stranded by a mount.** The query's task is ignored in
favour of the mount, which ends without a word. -/
theorem stranded_mount :
    ∃ s, Reached (fun s a s' => step s a = some s') (fun _ _ => True) (· = {}) s ∧ Stranded s := by
  have h : Reached (fun s a s' => step s a = some s') (fun _ _ => True) (· = {}) {} := .start rfl
  have h := h.next (a := Act.submit .mountServer) rfl trivial
  have h := h.next (a := Act.query (.entry false false false)) rfl trivial
  have h := h.next (a := Act.queryReturns 0) rfl trivial
  have h := h.next (a := Act.start 0) rfl trivial
  have h := h.next (a := Act.endBackground 0 true) rfl trivial
  have h := h.next (a := Act.callback 0) rfl trivial
  have h := h.next (a := Act.finish 0) rfl trivial
  exact ⟨_, h, ⟨_, List.mem_singleton_self _, rfl, rfl, rfl⟩, rfl⟩

end Loading

end SambaProvider

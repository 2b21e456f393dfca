import Mathlib.Data.List.Nodup
import SambaProvider.Lib.Run
import SambaProvider.Thread.AsyncTaskManage

/-!
# One call at a time

Whether the sections of `AsyncTaskManage` exclude one another depends on
which lock object each thread that waits has got. Where an object is made
only while no other call for the id is on its way, all have the same one; a
call inside is then alone, and what it finds in the maps stays as it was. An
`onCancel` may call the manager, but not for an id for which its thread is in
a call: it would enter the monitor again, and be inside twice.
-/

namespace SambaProvider

open Lib

namespace Registry

variable {T : Type}

/-! ### What a call that is alone inside keeps -/

/-- No task is cancelled twice. -/
structure Base (ρ : Registry) : Prop where
  task : ∀ r, ρ.task = some r → r < ρ.registrations
  cancelled : ∀ r ∈ ρ.cancelled, r < ρ.registrations
  once : ρ.cancelled.Nodup

/-- And where the task in the map was cancelled, the info says so. -/
structure Settled (ρ : Registry) : Prop extends Base ρ where
  known : ∀ r, ρ.task = some r → r ∈ ρ.cancelled →
    ∃ i, ρ.info = some i ∧ (ρ.infos i).isCancel = true

/-- What holds while a call is inside. -/
def Ok (ρ : Registry) : VisitStage → Prop
  | .removingTask => ρ.Base
  | .testing i | .testingCancel i => ρ.Settled ∧ ρ.info = some i
  | .lookingUp i => ρ.Settled ∧ ρ.info = some i ∧ (ρ.infos i).isCancel = false
  | .cancelling i r => ρ.Settled ∧ ρ.info = some i ∧ ρ.task = some r ∧ r ∉ ρ.cancelled
  | .settingCancel i => ρ.Base ∧ ρ.info = some i
  | _ => ρ.Settled

variable {ρ : Registry} {call : AsyncCall T} {stage : VisitStage}

/-- A field other than `isCancel` is set. -/
theorem Settled.setInfo (h : ρ.Settled) (i : ℕ) (set : ThreadInfo → ThreadInfo)
    (hcancel : ∀ info, (set info).isCancel = info.isCancel) : (ρ.setInfo i set).Settled where
  task := h.task
  cancelled := h.cancelled
  once := h.once
  known r hr hmem := by
    obtain ⟨j, hj, hknown⟩ := h.known r hr hmem
    refine ⟨j, hj, ?_⟩
    change (Function.update ρ.infos i _ j).isCancel = true
    rw [Function.update_apply]
    split
    · rename_i hji
      rw [hcancel, ← hji]
      exact hknown
    · exact hknown

/-- A task is put into the map: its number is that of no cancelled one. -/
theorem Settled.putTask (h : ρ.Settled) :
    { ρ with task := some ρ.registrations, registrations := ρ.registrations + 1 }.Settled where
  task r hr := by
    obtain rfl := Option.some.inj hr
    exact Nat.lt_succ_self _
  cancelled r hr := Nat.lt_succ_of_lt (h.cancelled r hr)
  once := h.once
  known r hr hmem := by
    obtain rfl := Option.some.inj hr
    exact absurd (h.cancelled _ hmem) (Nat.lt_irrefl _)

/-- A task that is looked up where the info is not cancelled was not
cancelled either. -/
theorem Settled.not_mem (h : ρ.Settled) {i r : ℕ} (hinfo : ρ.info = some i)
    (hcancel : (ρ.infos i).isCancel = false) (htask : ρ.task = some r) : r ∉ ρ.cancelled := by
  intro hmem
  obtain ⟨j, hj, hknown⟩ := h.known r htask hmem
  obtain rfl := Option.some.inj (hinfo.symm.trans hj)
  rw [hcancel] at hknown
  cases hknown

/-- So its `onCancel` is invoked for the first time. -/
theorem Settled.cancel (h : ρ.Settled) {r : ℕ} (htask : ρ.task = some r)
    (hnot : r ∉ ρ.cancelled) : (ρ.cancel r).Base where
  task := h.task
  cancelled q hq := by
    rcases List.mem_append.mp hq with hq | hq
    · exact h.cancelled q hq
    · rw [List.mem_singleton.mp hq]
      exact h.task r htask
  once := by
    refine List.nodup_append.mpr ⟨h.once, List.nodup_singleton r, ?_⟩
    rintro q hq _ hr rfl
    exact hnot (List.mem_singleton.mp hr ▸ hq)

/-- And the info is told. -/
theorem Base.setCancel (h : ρ.Base) {i : ℕ} (hinfo : ρ.info = some i) :
    (ρ.setInfo i fun info => { info with isCancel := true }).Settled where
  task := h.task
  cancelled := h.cancelled
  once := h.once
  known r _ _ := by
    refine ⟨i, hinfo, ?_⟩
    change (Function.update ρ.infos i _ i).isCancel = true
    rw [Function.update_self]

/-- The first access. -/
theorem Settled.enter (h : ρ.Settled) :
    (ρ.enter call).1.Ok (ρ.enter call).2 ∧ (ρ.enter call).2.Inside := by
  cases call with
  | registerThread hashCode =>
    simp only [Registry.enter]
    split
    · split <;> exact ⟨h, by simp [VisitStage.Inside]⟩
    · exact ⟨h, by simp [VisitStage.Inside]⟩
  | unregisterThread =>
    exact ⟨⟨h.task, h.cancelled, h.once⟩, by simp [Registry.enter, VisitStage.Inside]⟩
  | registerHttpTask hashCode =>
    simp only [Registry.enter]
    split
    · split <;> exact ⟨h, by simp [VisitStage.Inside]⟩
    · exact ⟨h, by simp [VisitStage.Inside]⟩
  | cancelAsyncTask threadId threadHashCode =>
    simp only [Registry.enter]
    cases hinfo : ρ.info with
    | none => exact ⟨h, by simp [VisitStage.Inside]⟩
    | some i => exact ⟨⟨h, hinfo⟩, by simp [VisitStage.Inside]⟩

/-- **What it does** keeps it so; an info is made only where there is
none. -/
theorem Ok.body (call : AsyncCall T) (h : ρ.Ok stage) (hin : stage.Inside)
    (hcreate : ∀ hashCode, stage = .creating hashCode → ρ.info = none) :
    (ρ.body call stage).1.Ok (ρ.body call stage).2 ∧ (ρ.body call stage).2.Inside := by
  cases stage with
  | locked => exact absurd rfl hin.1
  | unlocked => exact absurd rfl hin.2
  | leaving => exact ⟨h, hin⟩
  | entered => exact Settled.enter h
  | creating hashCode =>
    refine ⟨⟨⟨h.task, h.cancelled, h.once⟩, fun r hr hmem => ?_⟩,
      by simp [Registry.body, VisitStage.Inside]⟩
    obtain ⟨i, hi, -⟩ := h.known r hr hmem
    rw [hcreate hashCode rfl] at hi
    cases hi
  | registering i =>
    exact ⟨Settled.setInfo h i (fun info => { info with isRegister := true }) fun _ => rfl,
      by simp [Registry.body, VisitStage.Inside]⟩
  | removingTask =>
    refine ⟨⟨⟨fun r hr => ?_, h.cancelled, h.once⟩, fun r hr => ?_⟩,
      by simp [Registry.body, VisitStage.Inside]⟩
    all_goals cases hr
  | checking i =>
    simp only [Registry.body]
    split <;> exact ⟨h, by simp [VisitStage.Inside]⟩
  | puttingTask =>
    exact ⟨Settled.putTask h, by simp [Registry.body, VisitStage.Inside]⟩
  | testing i =>
    simp only [Registry.body]
    split
    · exact ⟨h, by simp [VisitStage.Inside]⟩
    · exact ⟨h.1, by simp [VisitStage.Inside]⟩
  | testingCancel i =>
    simp only [Registry.body]
    split
    · exact ⟨h.1, by simp [VisitStage.Inside]⟩
    · rename_i hcancel
      exact ⟨⟨h.1, h.2, by simpa using hcancel⟩, by simp [VisitStage.Inside]⟩
  | lookingUp i =>
    obtain ⟨hsettled, hinfo, hcancel⟩ := h
    simp only [Registry.body]
    cases htask : ρ.task with
    | none => exact ⟨hsettled, by simp [VisitStage.Inside]⟩
    | some r =>
      have hnot : r ∉ ρ.cancelled := hsettled.not_mem hinfo hcancel htask
      exact ⟨⟨hsettled, hinfo, htask, hnot⟩, by simp [VisitStage.Inside]⟩
  | cancelling i r =>
    obtain ⟨hsettled, hinfo, htask, hnot⟩ := h
    exact ⟨⟨hsettled.cancel htask hnot, hinfo⟩, by simp [Registry.body, VisitStage.Inside]⟩
  | settingCancel i =>
    obtain ⟨hbase, hinfo⟩ := h
    exact ⟨hbase.setCancel hinfo, by simp [Registry.body, VisitStage.Inside]⟩
  | stopping i =>
    exact ⟨Settled.setInfo h i (fun info => { info with mState := .stop }) fun _ => rfl,
      by simp [Registry.body, VisitStage.Inside]⟩

/-- Whatever the call has come to, no task was cancelled twice. -/
theorem Ok.once (h : ρ.Ok stage) : ρ.cancelled.Nodup := by
  cases stage with
  | removingTask => exact h.once
  | settingCancel => exact h.1.once
  | testing | testingCancel | lookingUp | cancelling => exact h.1.once
  | _ => exact Base.once (Settled.toBase h)

end Registry

namespace Slot

variable {T : Type}

/-! ### Calls for one id -/

/-- The invariant of a slot, and the calls for its id. -/
structure Inv (σ : Slot T) (calls : T → Option (Visit T)) : Prop where
  /-- The calls that have not left have the same lock object, -/
  alike : ∀ {t u v w}, calls t = some v → calls u = some w →
    v.stage ≠ .unlocked → w.stage ≠ .unlocked → v.lock = w.lock
  /-- the one in the map if there is one, -/
  current : ∀ {t v o}, calls t = some v → v.stage ≠ .unlocked → σ.lock = some o → v.lock = o
  /-- and a call that is past the monitor holds it, once, -/
  holds : ∀ {t v}, calls t = some v → v.stage ≠ .locked → σ.holder v.lock = some (t, 0)
  /-- as nothing else does. -/
  held : ∀ {o t n}, σ.holder o = some (t, n) →
    ∃ v, calls t = some v ∧ v.lock = o ∧ v.stage ≠ .locked
  ok : ∀ {t v}, calls t = some v → v.stage.Inside → σ.registry.Ok v.stage
  settled : (∀ t v, calls t = some v → ¬ v.stage.Inside) → σ.registry.Settled

variable {σ : Slot T} {calls : T → Option (Visit T)} {t u : T} {v w : Visit T}
  {v' : Option (Visit T)} {call : AsyncCall T} {stage : VisitStage}

theorem Inv.init : Inv ({} : Slot T) fun _ => none where
  alike h := by cases h
  current h := by cases h
  holds h := by cases h
  held h := by cases h
  ok h := by cases h
  settled _ := {
    task := by simp
    cancelled := by simp
    once := .nil
    known := by simp }

/-- **One call at a time** is inside. -/
theorem Inv.alone (h : σ.Inv calls) (ht : calls t = some v) (hu : calls u = some w)
    (hv : v.stage.Inside) (hw : w.stage.Inside) : t = u := by
  have hlock : v.lock = w.lock := h.alike ht hu hv.2 hw.2
  -- both threads hold the monitor of the one object
  have hheld : σ.holder v.lock = some (t, 0) := h.holds ht hv.1
  rw [hlock, h.holds hu hw.1] at hheld
  exact (Prod.mk.inj (Option.some.inj hheld)).1.symm

/-- So no task was cancelled twice. -/
theorem Inv.once (h : σ.Inv calls) : σ.registry.cancelled.Nodup := by
  by_cases hin : ∃ t v, calls t = some v ∧ v.stage.Inside
  · obtain ⟨t, v, ht, hv⟩ := hin
    exact (h.ok ht hv).once
  · exact (h.settled fun t v ht hv => hin ⟨t, v, ht, hv⟩).once

variable [DecidableEq T]

/-- The calls once that of `t` has changed. -/
theorem update_eq_some : Function.update calls t v' u = some w ↔
    u = t ∧ v' = some w ∨ u ≠ t ∧ calls u = some w := by
  rw [Function.update_apply]
  split <;> simp [*]

omit [DecidableEq T] in
theorem lockObject_eq : σ.lockObject.1 = { σ with
    lock := some σ.lockObject.2
    locks := σ.lockObject.1.locks } := by
  unfold Slot.lockObject
  split
  · rename_i o hlock
    rw [← hlock]
  · rfl

/-- A call comes, and gets its lock object: one is made only where the calls
for the id have all left. -/
theorem Inv.lockObject (h : σ.Inv calls) (ht : calls t = none)
    (hcareful : σ.lock = none → ∀ u v, calls u = some v → v.stage = .unlocked) :
    σ.lockObject.1.Inv (Function.update calls t (some ⟨call, σ.lockObject.2, .locked⟩)) := by
  have hother : ∀ u v, calls u = some v → v.stage ≠ .unlocked → v.lock = σ.lockObject.2 := by
    intro u v hu hv
    -- a new object is nobody's, as all who had one have left
    cases hlock : σ.lock with
    | none => exact absurd (hcareful hlock u v hu) hv
    | some o => simpa [Slot.lockObject, hlock] using h.current hu hv hlock
  rw [lockObject_eq]
  constructor
  · intro u₁ u₂ w₁ w₂ h₁ h₂ hw₁ hw₂
    rcases update_eq_some.mp h₁ with ⟨-, h₁⟩ | ⟨-, h₁⟩ <;>
      rcases update_eq_some.mp h₂ with ⟨-, h₂⟩ | ⟨-, h₂⟩
    · cases h₁
      cases h₂
      rfl
    · cases h₁
      exact (hother _ _ h₂ hw₂).symm
    · cases h₂
      exact hother _ _ h₁ hw₁
    · exact h.alike h₁ h₂ hw₁ hw₂
  · intro u w o hu hw ho
    obtain rfl := Option.some.inj ho
    rcases update_eq_some.mp hu with ⟨-, hu⟩ | ⟨-, hu⟩
    · cases hu
      rfl
    · exact hother u w hu hw
  · intro u w hu hw
    rcases update_eq_some.mp hu with ⟨-, hu⟩ | ⟨-, hu⟩
    · cases hu
      exact absurd rfl hw
    · exact h.holds hu hw
  · intro o u n ho
    obtain ⟨w, hu, hw⟩ := h.held ho
    refine ⟨w, update_eq_some.mpr (.inr ⟨?_, hu⟩), hw⟩
    rintro rfl
    rw [ht] at hu
    cases hu
  · intro u w hu hw
    rcases update_eq_some.mp hu with ⟨-, hu⟩ | ⟨-, hu⟩
    · cases hu
      exact absurd rfl hw.1
    · exact h.ok hu hw
  · intro hnone
    refine h.settled fun u w hu hw => hnone u w ?_ hw
    refine update_eq_some.mpr (.inr ⟨?_, hu⟩)
    rintro rfl
    rw [ht] at hu
    cases hu

/-- A call goes on to another stage with the lock object it has; the lock
object of the id may be taken away, and a monitor change hands. -/
theorem Inv.goTo (h : σ.Inv calls) (ht : calls t = some v) (hv : v.stage ≠ .unlocked)
    {σ' : Slot T} (hlock : ∀ o, σ'.lock = some o → σ.lock = some o)
    (hholds : stage ≠ .locked → σ'.holder v.lock = some (t, 0))
    (hothersHold : ∀ o u n, u ≠ t → σ.holder o = some (u, n) → σ'.holder o = some (u, n))
    (hheld : ∀ o u n, σ'.holder o = some (u, n) →
      u = t ∧ o = v.lock ∧ stage ≠ .locked ∨ u ≠ t ∧ σ.holder o = some (u, n))
    (hok : stage.Inside → σ'.registry.Ok stage)
    (hothers : ∀ u w, u ≠ t → calls u = some w → w.stage.Inside → σ'.registry.Ok w.stage)
    (hsettled : ¬ stage.Inside → (∀ u w, u ≠ t → calls u = some w → ¬ w.stage.Inside) →
      σ'.registry.Settled) :
    σ'.Inv (Function.update calls t (some { v with stage })) := by
  constructor
  · intro u₁ u₂ w₁ w₂ h₁ h₂ hw₁ hw₂
    rcases update_eq_some.mp h₁ with ⟨-, h₁⟩ | ⟨-, h₁⟩ <;>
      rcases update_eq_some.mp h₂ with ⟨-, h₂⟩ | ⟨-, h₂⟩
    · cases h₁
      cases h₂
      rfl
    · cases h₁
      change v.lock = w₂.lock
      exact h.alike ht h₂ hv hw₂
    · cases h₂
      change w₁.lock = v.lock
      exact h.alike h₁ ht hw₁ hv
    · exact h.alike h₁ h₂ hw₁ hw₂
  · intro u w o hu hw ho
    rcases update_eq_some.mp hu with ⟨-, hu⟩ | ⟨-, hu⟩
    · cases hu
      change v.lock = o
      exact h.current ht hv (hlock o ho)
    · exact h.current hu hw (hlock o ho)
  · intro u w hu hw
    rcases update_eq_some.mp hu with ⟨hut, hu⟩ | ⟨hut, hu⟩
    · cases hu
      rw [hut]
      exact hholds hw
    · exact hothersHold _ u 0 hut (h.holds hu hw)
  · intro o u n ho
    rcases hheld o u n ho with ⟨hut, rfl, hstage⟩ | ⟨hut, ho⟩
    · exact ⟨_, update_eq_some.mpr (.inl ⟨hut, rfl⟩), rfl, hstage⟩
    · obtain ⟨w, hu, hw⟩ := h.held ho
      exact ⟨w, update_eq_some.mpr (.inr ⟨hut, hu⟩), hw⟩
  · intro u w hu hw
    rcases update_eq_some.mp hu with ⟨-, hu⟩ | ⟨hut, hu⟩
    · cases hu
      exact hok hw
    · exact hothers u w hut hu hw
  · intro hnone
    refine hsettled (hnone t _ (update_eq_some.mpr (.inl ⟨rfl, rfl⟩))) fun u w hut hu => ?_
    exact hnone u w (update_eq_some.mpr (.inr ⟨hut, hu⟩))

omit [DecidableEq T] in
/-- What the thread of a call holds is the monitor of its lock object. -/
theorem Inv.held_self (h : σ.Inv calls) (ht : calls t = some v) {o n : ℕ}
    (ho : σ.holder o = some (t, n)) : o = v.lock ∧ v.stage ≠ .locked := by
  obtain ⟨w, hw, hlock, hstage⟩ := h.held ho
  rw [ht] at hw
  cases hw
  exact ⟨hlock.symm, hstage⟩

/-- A call that waits gets the monitor: nobody is inside. -/
theorem Inv.enter (h : σ.Inv calls) (ht : calls t = some v) (hv : v.stage = .locked)
    {σ' : Slot T} (hσ : σ.enter v.lock t = some σ') :
    σ'.Inv (Function.update calls t (some { v with stage := .entered })) := by
  obtain ⟨hfree, rfl⟩ : σ.holder v.lock = none ∧
      σ' = { σ with holder := Function.update σ.holder v.lock (some (t, 0)) } := by
    unfold Slot.enter at hσ
    split at hσ
    · rename_i hfree
      exact ⟨hfree, (Option.some.inj hσ).symm⟩
    · -- the thread has no other call, so it is not its own monitor
      rename_i u n hholder
      split at hσ
      · rename_i hut
        exact absurd hv (h.held_self ht (hut ▸ hholder)).2
      · cases hσ
  have hnobody : ∀ u w, calls u = some w → ¬ w.stage.Inside := by
    intro u w hu hw
    -- a call inside has the same lock object, and holds the monitor
    have hlock : w.lock = v.lock := h.alike hu ht hw.2 (by simp [hv])
    have hheld := h.holds hu hw.1
    rw [hlock, hfree] at hheld
    cases hheld
  refine h.goTo ht (by simp [hv]) (fun o ho => ho) (fun _ => Function.update_self ..) ?_ ?_
    (fun _ => h.settled hnobody) (fun u w _ hu hw => absurd hw (hnobody u w hu))
    fun _ _ => h.settled hnobody
  · intro o u n hut hu
    refine (Function.update_of_ne ?_ ..).trans hu
    rintro rfl
    rw [hfree] at hu
    cases hu
  · intro o u n ho
    change Function.update σ.holder v.lock (some (t, 0)) o = some (u, n) at ho
    rw [Function.update_apply] at ho
    split at ho
    · rename_i hlock
      cases ho
      exact .inl ⟨rfl, hlock, by simp⟩
    · rename_i hlock
      refine .inr ⟨?_, ho⟩
      rintro rfl
      exact hlock (h.held_self ht ho).1

omit [DecidableEq T] in
/-- Where no monitor changes hands. -/
theorem Inv.keepHeld (h : σ.Inv calls) (ht : calls t = some v) (hstage : stage ≠ .locked)
    {o n : ℕ} (ho : σ.holder o = some (u, n)) :
    u = t ∧ o = v.lock ∧ stage ≠ .locked ∨ u ≠ t ∧ σ.holder o = some (u, n) := by
  by_cases hut : u = t
  · exact .inl ⟨hut, (h.held_self ht (hut ▸ ho)).1, hstage⟩
  · exact .inr ⟨hut, ho⟩

/-- A call inside goes on: nobody else is there. -/
theorem Inv.body (h : σ.Inv calls) (ht : calls t = some v) (hv : v.stage.Inside)
    (hstage : stage.Inside) {ρ : Registry} (hok : ρ.Ok stage) :
    ({ σ with registry := ρ } : Slot T).Inv
      (Function.update calls t (some { v with stage })) :=
  h.goTo ht hv.2 (fun _ ho => ho) (fun _ => h.holds ht hv.1) (fun _ _ _ _ hu => hu)
    (fun _ _ _ => h.keepHeld ht hstage.1) (fun _ => hok)
    (fun _ _ hut hu hw => absurd (h.alone hu ht hw hv) hut)
    fun hnot => absurd hstage hnot

/-- `unlock`: the lock object is taken out of the map. -/
theorem Inv.unlock (h : σ.Inv calls) (ht : calls t = some v) (hv : v.stage = .leaving) :
    ({ σ with lock := none } : Slot T).Inv
      (Function.update calls t (some { v with stage := .unlocked })) := by
  have hin : v.stage.Inside := by simp [hv, VisitStage.Inside]
  -- the object is in no map any more, so `current` has nothing to say
  refine h.goTo ht hin.2 (fun o ho => by cases ho) (fun _ => h.holds ht hin.1)
    (fun _ _ _ _ hu => hu) (fun _ _ _ => h.keepHeld ht (by simp)) (fun hnot => absurd rfl hnot.2)
    (fun u w hut hu hw => absurd (h.alone hu ht hw hin) hut) fun _ _ => ?_
  have hok := h.ok ht hin
  rw [hv] at hok
  exact hok

/-- A call that has left gives up the monitor. -/
theorem Inv.exit (h : σ.Inv calls) (ht : calls t = some v) (hv : v.stage = .unlocked) :
    (σ.exit v.lock).Inv (Function.update calls t none) := by
  have hheld : σ.holder v.lock = some (t, 0) := h.holds ht (by simp [hv])
  -- the thread was in once, so the monitor is free
  have hexit : σ.exit v.lock = { σ with holder := Function.update σ.holder v.lock none } := by
    simp only [Slot.exit, hheld]
  have hother : ∀ {u w}, Function.update calls t none u = some w → u ≠ t ∧ calls u = some w := by
    intro u w hu
    rcases update_eq_some.mp hu with ⟨-, hu⟩ | hu
    · cases hu
    · exact hu
  rw [hexit]
  constructor
  · intro u₁ u₂ w₁ w₂ h₁ h₂ hw₁ hw₂
    exact h.alike (hother h₁).2 (hother h₂).2 hw₁ hw₂
  · intro u w o hu hw ho
    exact h.current (hother hu).2 hw ho
  · intro u w hu hw
    have hholds := h.holds (hother hu).2 hw
    refine (Function.update_of_ne (fun hlock => (hother hu).1 ?_) ..).trans hholds
    rw [hlock, hheld] at hholds
    exact (Prod.mk.inj (Option.some.inj hholds)).1.symm
  · intro o u n ho
    change Function.update σ.holder v.lock none o = some (u, n) at ho
    rw [Function.update_apply] at ho
    split at ho
    · cases ho
    · rename_i hlock
      obtain ⟨w, hu, hw⟩ := h.held ho
      refine ⟨w, update_eq_some.mpr (.inr ⟨?_, hu⟩), hw⟩
      rintro rfl
      exact hlock (h.held_self ht ho).1
  · intro u w hu hw
    exact h.ok (hother hu).2 hw
  · intro hnone
    refine h.settled fun u w hu hw => ?_
    by_cases hut : u = t
    · subst hut
      rw [ht] at hu
      cases hu
      exact hw.2 hv
    · exact hnone u w (update_eq_some.mpr (.inr ⟨hut, hu⟩)) hw

/-- **A call goes on.** -/
theorem Inv.next (h : σ.Inv calls) (ht : calls t = some v)
    (hcreate : ∀ hashCode, v.stage = .creating hashCode → σ.registry.info = none)
    {r : Slot T × Option (Visit T)} (hr : σ.next t v = some r) :
    r.1.Inv (Function.update calls t r.2) := by
  unfold Slot.next at hr
  split at hr
  · rename_i hv
    obtain ⟨σ', hσ, rfl⟩ := Option.map_eq_some_iff.mp hr
    exact h.enter ht hv hσ
  · rename_i hv
    cases hr
    exact h.unlock ht hv
  · rename_i hv
    cases hr
    exact h.exit ht hv
  · rename_i hlocked hleaving hunlocked
    cases hr
    have hin : v.stage.Inside := ⟨hlocked, hunlocked⟩
    have hbody := Registry.Ok.body v.call (h.ok ht hin) hin hcreate
    exact h.body ht hin hbody.2 hbody.1

/-- It is the same call afterwards. -/
theorem call_of_next {r : Slot T × Option (Visit T)} (hr : σ.next t v = some r)
    (hw : r.2 = some w) : w.call = v.call := by
  unfold Slot.next at hr
  split at hr
  · obtain ⟨σ', -, rfl⟩ := Option.map_eq_some_iff.mp hr
    cases hw
    rfl
  all_goals
    cases hr
    cases hw
  · rfl
  · rfl

end Slot

namespace AsyncTaskManage

variable {T : Type} [DecidableEq T]

/-- **The sections are exclusive**: for no id are two threads between
entering the block and `unlock`, and no registered task is cancelled
twice. -/
structure Exclusive (s : AsyncTaskManage T) : Prop where
  alone : ∀ {x t u v w}, v ∈ s.calls x t → w ∈ s.calls x u →
    v.stage.Inside → w.stage.Inside → t = u
  once : ∀ x, (s.slot x).registry.cancelled.Nodup

/-- A lock object is made only where no other call for the id is between its
`lock` and its `unlock`; `registerThread` does not find the info of another
thread that had the id; no `onCancel` throws, and none makes a call for an id
for which its thread is in a call. -/
def Careful (s : AsyncTaskManage T) : Act T → Prop
  | .lock t call =>
    ((s.slot (call.threadId t)).lock = none →
      ∀ u, ∀ v ∈ s.calls (call.threadId t) u, v.stage = .unlocked) ∧
      ∀ v ∈ s.outer t, v.call.threadId t ≠ call.threadId t
  | .next t =>
    ∀ v hashCode, s.visit t = some v → v.stage = .creating hashCode →
      (s.slot (v.call.threadId t)).registry.info = none
  | .throws _ => False
  | _ => True

/-! ## The run -/

/-- The invariant: that of each slot, and a thread has one call for an id at
most. -/
structure Inv (s : AsyncTaskManage T) : Prop where
  slots : ∀ x, (s.slot x).Inv fun t => (s.calls x t).head?
  single : ∀ x t, (s.calls x t).length ≤ 1

variable {s s' : AsyncTaskManage T} {t x : T} {v : Visit T} {a : Act T}
  {p q : Option (Visit T)} {rest : List (Visit T)}

theorem mem_calls : v ∈ s.calls x t ↔ v ∈ s.stack t ∧ v.call.threadId t = x := by
  simp [calls]

theorem Inv.head_calls (h : Inv s) (hv : v ∈ s.calls x t) : (s.calls x t).head? = some v := by
  have hlen := h.single x t
  rcases hcalls : s.calls x t with _ | ⟨w, _ | _⟩
  · rw [hcalls] at hv
    cases hv
  · rw [hcalls, List.mem_singleton] at hv
    rw [hv]
    rfl
  · rw [hcalls, List.length_cons, List.length_cons] at hlen
    omega

theorem stack_of_visit (hv : s.visit t = some v) : s.stack t = v :: s.outer t := by
  rw [stack, hv]
  rfl

/-- The call that runs is the one call of its thread for its id. -/
theorem Inv.head_visit (h : Inv s) (hv : s.visit t = some v) :
    (s.calls (v.call.threadId t) t).head? = some v := by
  have hstack := stack_of_visit hv
  exact h.head_calls (mem_calls.mpr ⟨hstack ▸ List.mem_cons_self, rfl⟩)

theorem Inv.exclusive (h : Inv s) : s.Exclusive where
  alone hv hw := (h.slots _).alone (h.head_calls hv) (h.head_calls hw)
  once x := (h.slots x).once

/-- The calls below one are for other ids. -/
theorem Inv.below (h : Inv s) (hstack : s.stack t = v :: rest) :
    ∀ w ∈ rest, w.call.threadId t ≠ v.call.threadId t := by
  intro w hw heq
  have hlen := h.single (v.call.threadId t) t
  have hmem : w ∈ rest.filter fun w => w.call.threadId t = v.call.threadId t := by simp [hw, heq]
  rw [calls, hstack, List.filter_cons_of_pos (by simp), List.length_cons] at hlen
  have hpos := List.length_pos_of_mem hmem
  omega

theorem filter_stack (hafter : ∀ w, q = some w → w.call.threadId t = x)
    (hrest : ∀ w ∈ rest, w.call.threadId t ≠ x) (y : T) :
    (q.toList ++ rest).filter (fun w => w.call.threadId t = y) =
      if y = x then q.toList else rest.filter fun w => w.call.threadId t = y := by
  rw [List.filter_append]
  split
  · rename_i hy
    have hnone : (rest.filter fun w => w.call.threadId t = y) = [] := by
      simpa [List.filter_eq_nil_iff, hy] using hrest
    rw [hnone, List.append_nil, List.filter_eq_self]
    intro w hw
    simpa [hy] using hafter w (Option.mem_toList.mp hw)
  · rename_i hy
    have hnone : (q.toList.filter fun w => w.call.threadId t = y) = [] := by
      rw [List.filter_eq_nil_iff]
      intro w hw heq
      exact hy ((of_decide_eq_true heq).symm.trans (hafter w (Option.mem_toList.mp hw)))
    rw [hnone, List.nil_append]

/-- The innermost call of a thread changes, and what there is for its id. -/
theorem Inv.put (h : Inv s) {σ : Slot T}
    (hstack : s.stack t = p.toList ++ rest) (hstack' : s'.stack t = q.toList ++ rest)
    (hbefore : ∀ w, p = some w → w.call.threadId t = x)
    (hafter : ∀ w, q = some w → w.call.threadId t = x)
    (hrest : ∀ w ∈ rest, w.call.threadId t ≠ x)
    (hslot : s'.slot = Function.update s.slot x σ) (hother : ∀ u, u ≠ t → s'.stack u = s.stack u)
    (hσ : σ.Inv (Function.update (fun u => (s.calls x u).head?) t q)) : Inv s' := by
  have hcalls (y u : T) : s'.calls y u =
      if u = t ∧ y = x then q.toList else s.calls y u := by
    by_cases hu : u = t
    · subst hu
      rw [calls, hstack', filter_stack hafter hrest, calls, hstack, filter_stack hbefore hrest]
      by_cases hy : y = x <;> simp [hy]
    · simp [calls, hother u hu, hu]
  constructor
  · intro y
    have hfun : (fun u => (s'.calls y u).head?) =
        if y = x then Function.update (fun u => (s.calls x u).head?) t q
        else fun u => (s.calls y u).head? := by
      funext u
      rw [hcalls]
      by_cases hy : y = x <;> by_cases hu : u = t <;> simp [hy, hu, Function.update_apply]
    rw [hfun, hslot]
    by_cases hy : y = x
    · subst hy
      simpa using hσ
    · simpa [hy] using h.slots y
  · intro y u
    rw [hcalls]
    split
    · cases q <;> simp
    · exact h.single y u

theorem stack_put {r : Slot T × Option (Visit T)} {u : T} :
    (s.put t x r).stack u = if u = t then r.2.toList ++ s.outer t else s.stack u := by
  by_cases hu : u = t
  · subst hu
    simp [stack, AsyncTaskManage.put]
  · simp [stack, AsyncTaskManage.put, hu]

/-- **A step.** -/
theorem Inv.step (h : Inv s) (hok : s.Careful a) (hs : s.step a = some s') : Inv s' := by
  cases a with
  | lock t call =>
    simp only [AsyncTaskManage.step] at hs
    split at hs
    · rename_i hnone
      have hvisit : s.visit t = none := Option.isNone_iff_eq_none.mp hnone
      have hstack : s.stack t = s.outer t := by rw [stack, hvisit]; rfl
      -- the calls that `t` is in are for other ids, by `Careful`
      have hempty : s.calls (call.threadId t) t = [] := by
        rw [calls, hstack, List.filter_eq_nil_iff]
        simpa using hok.2
      cases hs
      refine h.put (p := none) (q := some _) hstack (stack_put.trans (if_pos rfl))
        (fun w hw => by cases hw) (by rintro w ⟨⟩; rfl) hok.2 rfl
        (fun u hu => stack_put.trans (if_neg hu))
        ((h.slots _).lockObject (by rw [hempty]; rfl) fun hlock u v hv => ?_)
      exact hok.1 hlock u v (List.mem_of_mem_head? hv)
    · cases hs
  | next t =>
    obtain ⟨v, hv, hs⟩ := Option.bind_eq_some_iff.mp hs
    obtain ⟨r, hr, rfl⟩ := Option.map_eq_some_iff.mp hs
    have hstack := stack_of_visit hv
    have ht := h.head_visit hv
    refine h.put (p := some v) hstack (stack_put.trans (if_pos rfl)) (by rintro w ⟨⟩; rfl)
      (fun w hw => ?_) (h.below hstack) rfl (fun u hu => stack_put.trans (if_neg hu))
      ((h.slots _).next ht (fun hashCode => hok v hashCode hv) hr)
    rw [Slot.call_of_next hr hw]
  | invoke t =>
    obtain ⟨v, hv, hs⟩ := Option.bind_eq_some_iff.mp hs
    split at hs
    · rename_i i r hstage
      cases hs
      have hstack := stack_of_visit hv
      have ht := h.head_visit hv
      -- what `onCancel` does comes later, in calls of its own
      have hin : v.stage.Inside := by simp [hstage, VisitStage.Inside]
      have hbody := Registry.Ok.body v.call ((h.slots _).ok ht hin) hin (by simp [hstage])
      rw [hstage] at hbody
      refine h.put (p := some v) (q := some { v with stage := .settingCancel i })
        hstack ?_ (by rintro w ⟨⟩; rfl) (by rintro w ⟨⟩; rfl) (h.below hstack) rfl (fun u hu => ?_)
        ((h.slots _).body ht hin hbody.2 hbody.1)
      · simp [stack, AsyncTaskManage.invoke, AsyncTaskManage.put]
      · simp [stack, AsyncTaskManage.invoke, AsyncTaskManage.put, hu]
    · cases hs
  | returns t =>
    simp only [AsyncTaskManage.step] at hs
    split at hs
    · rename_i v outer hvisit houter
      cases hs
      -- the call that invoked `onCancel` is the innermost one again
      have hstack : (s.resume t v outer).stack = s.stack := by
        funext u
        by_cases hu : u = t
        · subst hu
          simp [stack, AsyncTaskManage.resume, hvisit, houter]
        · simp [stack, AsyncTaskManage.resume, hu]
      have hcalls : (s.resume t v outer).calls = s.calls := by
        funext x u
        rw [calls, hstack, calls]
      refine ⟨fun x => ?_, fun x u => ?_⟩
      · rw [hcalls]
        exact h.slots x
      · rw [hcalls]
        exact h.single x u
    · cases hs
  | throws t => exact hok.elim

/-- **Sections are exclusive** in every state a careful run reaches: of any
threads, and however their steps are interleaved. -/
theorem exclusive_of_reached
    (h : Reached (fun s a s' => AsyncTaskManage.step s a = some s') Careful (· = {}) s) :
    s.Exclusive := by
  have hinit : ∀ s : AsyncTaskManage T, s = {} → Inv s := by
    rintro s rfl
    exact ⟨fun _ => Slot.Inv.init, fun _ _ => Nat.zero_le 1⟩
  exact Inv.exclusive (Reached.inv hinit (fun _ _ _ hI hok hs => hI.step hok hs) h)

/-- Thread 0 registers a task, and thread 1 that waits for it cancels the
task; its `onCancel` makes a call for thread 1. -/
def waitingCancel : List (Act (Fin 2)) :=
  .lock 0 (.registerThread 7) :: List.replicate 6 (.next 0) ++
    .lock 0 (.registerHttpTask 7) :: List.replicate 2 (.next 0) ++
    .lock 1 (.cancelAsyncTask 0 7) :: List.replicate 4 (.next 0) ++ List.replicate 5 (.next 1) ++
    .invoke 1 :: .lock 1 (.registerThread 8) :: List.replicate 6 (.next 1) ++
    .returns 1 :: List.replicate 4 (.next 1)

/-- Whether a step is careful, for two threads. -/
def orderly (s : AsyncTaskManage (Fin 2)) : Act (Fin 2) → Bool
  | .lock t call =>
    let x := call.threadId t
    ((s.slot x).lock.isSome || decide (∀ u, ∀ v ∈ s.calls x u, v.stage = .unlocked)) &&
      decide (∀ v ∈ s.outer t, v.call.threadId t ≠ x)
  | .next t =>
    match s.visit t with
    | some ⟨call, _, .creating _⟩ => (s.slot (call.threadId t)).registry.info.isNone
    | _ => true
  | .throws _ => false
  | _ => true

/-- The task is cancelled, once. -/
theorem exclusive_waiting :
    ∃ s : AsyncTaskManage (Fin 2), (s.slot 0).registry.cancelled = [0] ∧
      (s.slot 1).registry.made = 1 ∧ (∀ t, s.stack t = []) ∧ s.Exclusive := by
  have hcheck (s : AsyncTaskManage (Fin 2)) (a : Act (Fin 2))
      (ha : orderly s a = true) : s.Careful a := by
    cases a with
    | lock t call =>
      simp only [orderly, Bool.and_eq_true, Bool.or_eq_true, decide_eq_true_eq] at ha
      refine ⟨fun hlock => ha.1.resolve_left ?_, ha.2⟩
      rw [hlock]
      exact Bool.false_ne_true
    | next t =>
      rintro ⟨call, o, stage⟩ hashCode hv rfl
      simpa [orderly, hv] using ha
    | throws t => cases ha
    | _ => trivial
  have hrun : (waitingCancel.foldlM
      (fun s a => if orderly s a then AsyncTaskManage.step s a else none) {}).map
        (fun s => ((s.slot 0).registry.cancelled, (s.slot 1).registry.made,
          decide (∀ t, (s.stack t).isEmpty))) = some ([0], 1, true) := by decide +kernel
  obtain ⟨s, hs, heq⟩ := Option.map_eq_some_iff.mp hrun
  simp only [Prod.mk.injEq, decide_eq_true_eq] at heq
  obtain ⟨hcancelled, hmade, hidle⟩ := heq
  exact ⟨s, hcancelled, hmade, fun t => List.isEmpty_iff.mp (hidle t),
    exclusive_of_reached (Reached.checked orderly hcheck (.start rfl) hs)⟩

/-- While thread 0 registers a task, thread 1 waits for it to cancel the
task; thread 2 comes after `unlock`, and gets another lock object. -/
def twoCancels : List (Act (Fin 3)) :=
  .lock 0 (.registerThread 7) :: List.replicate 6 (.next 0) ++
    .lock 0 (.registerHttpTask 7) :: List.replicate 3 (.next 0) ++
    .lock 1 (.cancelAsyncTask 0 7) :: List.replicate 3 (.next 0) ++
    .lock 2 (.cancelAsyncTask 0 7) :: List.replicate 6 (.next 1) ++ List.replicate 6 (.next 2)

/-- One call after the other, and the first `onCancel` throws. -/
def throwingCancel : List (Act (Fin 3)) :=
  .lock 0 (.registerThread 7) :: List.replicate 6 (.next 0) ++
    .lock 0 (.registerHttpTask 7) :: List.replicate 6 (.next 0) ++
    .lock 1 (.cancelAsyncTask 0 7) :: List.replicate 5 (.next 1) ++
    .throws 1 :: List.replicate 2 (.next 1) ++
    .lock 1 (.cancelAsyncTask 0 7) :: List.replicate 10 (.next 1)

/-- One call after the other, and the `onCancel` cancels the task again. -/
def cancelInOnCancel : List (Act (Fin 3)) :=
  .lock 0 (.registerThread 7) :: List.replicate 6 (.next 0) ++
    .lock 0 (.registerHttpTask 7) :: List.replicate 6 (.next 0) ++
    .lock 1 (.cancelAsyncTask 0 7) :: List.replicate 5 (.next 1) ++
    .invoke 1 :: .lock 1 (.cancelAsyncTask 0 7) :: List.replicate 10 (.next 1) ++
    .returns 1 :: List.replicate 4 (.next 1)

/-- **Three threads**: two are inside, and `onCancel` is invoked twice; and
it is where it throws, or cancels its task itself, though one thread comes
after the other. -/
theorem not_exclusive_threeThreads :
    (∃ s : AsyncTaskManage (Fin 3),
      Reached (fun s a s' => AsyncTaskManage.step s a = some s') (fun _ _ => True) (· = {}) s ∧
      (s.slot 0).registry.cancelled = [0, 0] ∧
      (s.calls 0 1).map Visit.stage = [.settingCancel 0] ∧
      (s.calls 0 2).map Visit.stage = [.settingCancel 0] ∧ ¬ s.Exclusive) ∧
    ∀ as ∈ [throwingCancel, cancelInOnCancel], ∃ s : AsyncTaskManage (Fin 3),
      as.foldlM AsyncTaskManage.step {} = some s ∧
      (s.slot 0).registry.cancelled = [0, 0] ∧ (∀ t, s.stack t = []) ∧ ¬ s.Exclusive := by
  have htwice : ∀ {s : AsyncTaskManage (Fin 3)}, (s.slot 0).registry.cancelled = [0, 0] →
      ¬ s.Exclusive := by
    intro s hs hexclusive
    have honce := hexclusive.once 0
    rw [hs] at honce
    exact absurd honce (by decide)
  constructor
  · have hrun : (twoCancels.foldlM AsyncTaskManage.step {}).map (fun s =>
        ((s.slot 0).registry.cancelled, (s.calls 0 1).map Visit.stage,
          (s.calls 0 2).map Visit.stage)) =
        some ([0, 0], [.settingCancel 0], [.settingCancel 0]) := by decide +kernel
    obtain ⟨s, hs, heq⟩ := Option.map_eq_some_iff.mp hrun
    simp only [Prod.mk.injEq] at heq
    obtain ⟨hcancelled, h₁, h₂⟩ := heq
    exact ⟨s, Reached.foldlM (.start rfl) hs, hcancelled, h₁, h₂, htwice hcancelled⟩
  · intro as has
    have hrun : (as.foldlM AsyncTaskManage.step {}).map (fun s : AsyncTaskManage (Fin 3) =>
        ((s.slot 0).registry.cancelled, decide (∀ t, (s.stack t).isEmpty))) =
        some ([0, 0], true) := by
      rcases List.mem_cons.mp has with rfl | has
      · decide +kernel
      · rw [List.mem_singleton.mp has]
        decide +kernel
    obtain ⟨s, hs, heq⟩ := Option.map_eq_some_iff.mp hrun
    simp only [Prod.mk.injEq, decide_eq_true_eq] at heq
    obtain ⟨hcancelled, hidle⟩ := heq
    exact ⟨s, hs, hcancelled, fun t => List.isEmpty_iff.mp (hidle t), htwice hcancelled⟩

end AsyncTaskManage

end SambaProvider

import SambaProvider.Loading.Waiting

/-!
# Mount requests

`tryMount` shows a dialog and hands a `MountServerTask` to the task
manager, where it shares the slot of the URI with the tasks of the
queries. A task that finds the slot taken is dropped: it is never
executed, and the callback that dismisses the dialog never comes.
-/

namespace SambaProvider

open Lib

/-- The steps of queries, cursors, mount requests and tasks. Nobody
cancels a task but a cursor that is closed. -/
inductive MountAct
  | queryChildDocuments (found : CacheView)
  | queryReturns (cursor : ℕ)
  | closeCursor (cursor : ℕ)
  | tryMount
  | start (task : ℕ)
  | skip (task : ℕ)
  | endBackground (task : ℕ) (ok : Bool)
  | callback (task : ℕ)
  | finish (task : ℕ)
deriving DecidableEq, Repr

/-- The step of the slot. -/
def MountAct.act : MountAct → Loading.Act
  | .queryChildDocuments found => .query found
  | .queryReturns c => .queryReturns c
  | .closeCursor c => .closeCursor c
  | .tryMount => .submit .mountServer
  | .start i => .start i
  | .skip i => .skip i
  | .endBackground i ok => .endBackground i ok
  | .callback i => .callback i
  | .finish i => .finish i

/-- The tasks and cursors of a URI, and how often the completion callback
of each mount has been invoked. -/
structure Mounting where
  loading : Loading := {}
  callbacks : ℕ → ℕ := fun _ => 0

namespace Mounting

/-- The step invokes the completion callback of the mount: `onCancelled`
does not. -/
def completes (l : Loading) (a : MountAct) (i : ℕ) : Bool :=
  a == .callback i && l.tasks[i]?.any fun t => t.kind == .mountServer && !t.cancelled

/-- One step; an impossible one changes nothing. -/
def step (s : Mounting) (a : MountAct) : Mounting :=
  match s.loading.step a.act with
  | none => s
  | some l =>
    { loading := l
      callbacks := fun i => if completes s.loading a i then s.callbacks i + 1 else s.callbacks i }

/-- A task that is registered or running, and not finished. -/
def Active (l : Loading) (i : ℕ) : Prop :=
  ∃ t, l.tasks[i]? = some t ∧ t.status ≠ .finished ∧
    (t.status = .running ∨ l.registered = some i)

/-- **No mount request is lost.** Every mount has been executed; its
callback was invoked once if it has called back, and not before; until
then its life goes on; and one task at most is at work. -/
structure NoneLost (s : Mounting) : Prop where
  executed : ∀ (i : ℕ) (t : LoadingTask), s.loading.tasks[i]? = some t → t.kind = .mountServer →
    t.status ≠ .pending
  once : ∀ (i : ℕ) (t : LoadingTask), s.loading.tasks[i]? = some t → t.kind = .mountServer →
    s.callbacks i = if t.work = .calledBack then 1 else 0
  lively : ∀ (i : ℕ) (t : LoadingTask), s.loading.tasks[i]? = some t → t.kind = .mountServer →
    t.work ≠ .calledBack → ∃ a ∈ [MountAct.start i, .endBackground i true, .callback i],
      s.loading.step a.act ≠ none
  single : ∀ i j, Active s.loading i → Active s.loading j → i = j

/-- A mount is requested only while the slot of the URI is free. -/
def SlotFree (s : Mounting) : MountAct → Prop
  | .tryMount => s.loading.current = none
  | _ => True

variable {s : Mounting} {l l' : Loading} {a : MountAct} {i : ℕ} {t u : LoadingTask}

/-! ## What a step does -/

/-- A move of a task through its life. -/
inductive Move (i : ℕ) : MountAct → LoadingTask → LoadingTask → Prop
  | start {t : LoadingTask} : t.status = .running → t.work = .notStarted → t.cancelled = false →
      Move i (.start i) t { t with work := .background }
  | skip {t : LoadingTask} : t.status = .running → t.work = .notStarted → t.cancelled = true →
      Move i (.skip i) t { t with work := .posted false }
  | endBackground {t : LoadingTask} {ok : Bool} : t.status = .running → t.work = .background →
      Move i (.endBackground i ok) t { t with work := .posted ok }
  | callback {t : LoadingTask} {ok : Bool} : t.status = .running → t.work = .posted ok →
      Move i (.callback i) t { t with work := .calledBack }
  | finish {t : LoadingTask} : t.status = .running → t.work = .calledBack →
      Move i (.finish i) t { t with status := .finished }

/-- The cursors wait for no tasks but those they waited for. -/
def SameTasks (cs cs' : List LoadingCursor) : Prop :=
  ∀ c' ∈ cs', c'.loadingTask = none ∨ ∃ c ∈ cs, c'.loadingTask = c.loadingTask

/-- **What a step can do**: submit a task, change a cursor, close one and
cancel its task, or move a task. -/
inductive Did (l : Loading) (a : MountAct) : Loading → Prop
  | mount : a = .tryMount → Did l a (l.runTask .mountServer)
  | query {kind : TaskKind} {c : LoadingCursor} : kind ≠ .mountServer → a ≠ .tryMount →
      (∀ i, a ≠ .callback i) → c.loadingTask = some l.tasks.length →
      Did l a { l.runTask kind with cursors := l.cursors ++ [c] }
  | cursors {cs : List LoadingCursor} : a ≠ .tryMount → (∀ i, a ≠ .callback i) →
      SameTasks l.cursors cs → Did l a { l with cursors := cs }
  | cancel {cs : List LoadingCursor} {i : ℕ} {t : LoadingTask} {c : LoadingCursor} :
      a ≠ .tryMount → (∀ i, a ≠ .callback i) → SameTasks l.cursors cs → c ∈ l.cursors →
      c.loadingTask = some i → l.tasks[i]? = some t →
      Did l a { l.setTask i t.cancel with cursors := cs }
  | move {cs : List LoadingCursor} {i : ℕ} {t u : LoadingTask} : SameTasks l.cursors cs →
      l.tasks[i]? = some t → Move i a t u → Did l a { l.setTask i u with cursors := cs }

theorem sameTasks_refl (cs : List LoadingCursor) : SameTasks cs cs :=
  fun c hc => .inr ⟨c, hc, rfl⟩

theorem sameTasks_set {cs : List LoadingCursor} {c c' : LoadingCursor} (hc : cs[i]? = some c)
    (hc' : c'.loadingTask = c.loadingTask) : SameTasks cs (cs.set i c') := by
  intro x hx
  rcases List.mem_or_eq_of_mem_set hx with hx | rfl
  · exact .inr ⟨x, hx, rfl⟩
  · exact .inr ⟨c, List.mem_of_getElem? hc, hc'⟩

theorem sameTasks_notify (cs : List LoadingCursor) :
    SameTasks cs (cs.map LoadingCursor.notify) := by
  intro x hx
  obtain ⟨c, hc, rfl⟩ := List.mem_map.mp hx
  refine .inr ⟨c, hc, ?_⟩
  unfold LoadingCursor.notify
  split <;> rfl

/-- A cursor that closes. -/
theorem did_closeCursor (h : l.step (.closeCursor i) = some l') : Did l (.closeCursor i) l' := by
  simp only [Loading.step] at h
  cases hc : l.cursors[i]? with
  | none =>
    rw [hc] at h
    cases h
  | some c =>
    rw [hc] at h
    dsimp only at h
    have hsame : SameTasks l.cursors (l.cursors.set i { c with place := .closed }) :=
      sameTasks_set hc rfl
    split at h
    · split at h
      · rename_i j t hj
        cases h
        simp only [Option.bind_eq_some_iff, Option.map_eq_some_iff, Prod.mk.injEq] at hj
        obtain ⟨j', hj', t', ht', rfl, rfl⟩ := hj
        exact .cancel (by simp) (by simp) hsame (List.mem_of_getElem? hc) hj' ht'
      · cases h
        exact .cursors (by simp) (by simp) hsame
    · cases h

/-- A step of one task. -/
theorem did_move {p : LoadingTask → Prop} [DecidablePred p] {f : LoadingTask → LoadingTask}
    (hmove : ∀ t, p t → Move i a t (f t))
    (h : (match l.tasks[i]? with
      | some t => if p t then some (l.setTask i (f t)) else none
      | none => none) = some l') : Did l a l' := by
  cases ht : l.tasks[i]? with
  | none =>
    rw [ht] at h
    cases h
  | some t =>
    rw [ht] at h
    dsimp only at h
    split at h
    · rename_i hp
      cases h
      exact .move (sameTasks_refl l.cursors) ht (hmove t hp)
    · cases h

theorem did_callback (h : l.step (.callback i) = some l') : Did l (.callback i) l' := by
  simp only [Loading.step] at h
  cases ht : l.tasks[i]? with
  | none =>
    rw [ht] at h
    cases h
  | some t =>
    rw [ht] at h
    dsimp only at h
    split at h
    · rename_i ok hwork
      split at h
      · rename_i hrunning
        split at h <;> cases h
        · exact .move (sameTasks_notify l.cursors) ht (.callback hrunning hwork)
        · exact .move (sameTasks_refl l.cursors) ht (.callback hrunning hwork)
      · cases h
    · cases h

theorem did_of_step (h : l.step a.act = some l') : Did l a l' := by
  cases a with
  | queryChildDocuments found =>
    simp only [MountAct.act, Loading.step] at h
    cases hk : found.loadingTask with
    | none =>
      rw [hk] at h
      cases h
      refine .cursors (by simp) (by simp) fun c hc => ?_
      rcases List.mem_append.mp hc with hc | hc
      · exact .inr ⟨c, hc, rfl⟩
      · rw [List.mem_singleton.mp hc]
        exact .inl rfl
    | some kind =>
      rw [hk] at h
      cases h
      refine .query ?_ (by simp) (by simp) rfl
      rintro rfl
      unfold CacheView.loadingTask at hk
      split at hk
      · cases hk
      · split at hk
        · cases hk
        · split at hk <;> cases hk
  | queryReturns i =>
    simp only [MountAct.act, Loading.step] at h
    cases hc : l.cursors[i]? with
    | none =>
      rw [hc] at h
      cases h
    | some c =>
      rw [hc] at h
      dsimp only at h
      split at h
      · cases h
        exact .cursors (by simp) (by simp) (sameTasks_set hc rfl)
      · cases h
  | closeCursor i => exact did_closeCursor h
  | tryMount =>
    cases h
    exact .mount rfl
  | start i => exact did_move (fun t ht => .start ht.1 ht.2.1 ht.2.2) h
  | skip i => exact did_move (fun t ht => .skip ht.1 ht.2.1 ht.2.2) h
  | endBackground i ok => exact did_move (fun t ht => .endBackground ht.1 ht.2) h
  | callback i => exact did_callback h
  | finish i => exact did_move (fun t ht => .finish ht.1 ht.2) h

/-! ## The slot -/

/-- The tasks without the cursors. -/
def slot (l : Loading) : Loading := { l with cursors := [] }

theorem slot_runTask (l : Loading) (kind : TaskKind) (cs : List LoadingCursor) :
    slot { l.runTask kind with cursors := cs } = (slot l).runTask kind := by
  have hcurrent : (slot l).current = l.current := rfl
  unfold Loading.runTask
  rw [hcurrent]
  cases l.current <;> rfl

/-- **The slot is kept**: what is registered has been executed, and nothing
else runs. -/
theorem inv_slot_of_did (h : Loading.Inv (slot l)) (hd : Did l a l') :
    Loading.Inv (slot l') := by
  cases hd with
  | mount => exact slot_runTask l _ _ ▸ (h.runTask _).1
  | query => exact slot_runTask l _ _ ▸ (h.runTask _).1
  | cursors => exact h
  | cancel _ _ _ _ _ ht => exact h.cancel ht
  | @move cs i t u _ ht hm =>
    have hwork : ∀ u : LoadingTask, u.status = t.status → Loading.Inv ((slot l).setTask i u) :=
      fun u hst => h.setTask ht hst fun _ _ c hc => absurd hc List.not_mem_nil
    cases hm with
    | finish hrunning hwork =>
      refine h.finish (i := i) ?_
      have ht' : (slot l).tasks[i]? = some t := ht
      simp only [Loading.step, ht', hrunning, hwork, and_self, if_true]
      rfl
    | _ => exact hwork _ rfl

/-! ## The life of a mount -/

/-- A mount that was executed, with the number of its callbacks. -/
structure MountLife (n : ℕ) (t : LoadingTask) : Prop where
  executed : t.status ≠ .pending
  notCancelled : t.cancelled = false
  once : n = if t.work = .calledBack then 1 else 0
  finished : t.status = .finished → t.work = .calledBack

/-- A move of a mount: the callback is invoked when it calls back. -/
theorem MountLife.move {n : ℕ} (h : MountLife n t) (hkind : t.kind = .mountServer)
    (ht : l.tasks[i]? = some t) (hm : Move i a t u) :
    MountLife (if completes l a i then n + 1 else n) u := by
  obtain ⟨hexecuted, hnot, honce, hfinished⟩ := h
  cases hm with
  | callback hrunning hwork =>
    have hcompletes : completes l (.callback i) i = true := by
      simp [completes, ht, hkind, hnot]
    refine ⟨hexecuted, hnot, ?_, fun hfin => ?_⟩
    · rw [if_pos hcompletes, honce, hwork]
      rfl
    · cases hrunning.symm.trans hfin
  | skip _ _ hcancelled => cases hnot.symm.trans hcancelled
  | start hrunning hwork _ =>
    refine ⟨hexecuted, hnot, ?_, fun hfin => ?_⟩
    · rw [honce, hwork]
      rfl
    · cases hrunning.symm.trans hfin
  | endBackground hrunning hwork =>
    refine ⟨hexecuted, hnot, ?_, fun hfin => ?_⟩
    · rw [honce, hwork]
      rfl
    · cases hrunning.symm.trans hfin
  | finish _ hwork => exact ⟨by simp, hnot, honce, fun _ => hwork⟩

theorem Move.kind_eq (h : Move i a t u) : u.kind = t.kind := by
  cases h <;> rfl

/-! ## The invariant -/

/-- **The invariant**: the slot, the life of every mount, and that no
cursor waits for a mount of its own. -/
structure Kept (s : Mounting) : Prop where
  slot : Loading.Inv (slot s.loading)
  mounts : ∀ (i : ℕ) (t : LoadingTask), s.loading.tasks[i]? = some t → t.kind = .mountServer →
    MountLife (s.callbacks i) t
  fresh : ∀ i, s.loading.tasks.length ≤ i → s.callbacks i = 0
  cursors : ∀ c ∈ s.loading.cursors, ∀ i, c.loadingTask = some i →
    ∃ t, s.loading.tasks[i]? = some t ∧ t.kind ≠ .mountServer

theorem kept_init : Kept {} := by
  refine ⟨.init, ?_, ?_, ?_⟩ <;> simp

/-- **No request is lost** where the invariant holds. -/
theorem Kept.noneLost (h : Kept s) : NoneLost s where
  executed i t ht hkind := (h.mounts i t ht hkind).executed
  once i t ht hkind := (h.mounts i t ht hkind).once
  lively i t ht hkind hwork := by
    obtain ⟨hexecuted, hnot, -, hfinished⟩ := h.mounts i t ht hkind
    have hrunning : t.status = .running := by
      cases hst : t.status with
      | pending => exact absurd hst hexecuted
      | running => rfl
      | finished => exact absurd (hfinished hst) hwork
    cases hw : t.work with
    | notStarted =>
      exact ⟨.start i, by simp, by simp [MountAct.act, Loading.step, ht, hrunning, hw, hnot]⟩
    | background =>
      exact ⟨.endBackground i true, by simp,
        by simp [MountAct.act, Loading.step, ht, hrunning, hw]⟩
    | posted ok =>
      refine ⟨.callback i, by simp, ?_⟩
      simp only [MountAct.act, Loading.step, ht, hw, hrunning, if_true]
      split <;> simp
    | calledBack => exact absurd hw hwork
  single i j hi hj := by
    have hregistered (k : ℕ) (hk : Active s.loading k) : s.loading.registered = some k := by
      obtain ⟨t, ht, -, hrunning | hregistered⟩ := hk
      · exact h.slot.only k t ht hrunning
      · exact hregistered
    exact Option.some.inj ((hregistered i hi).symm.trans (hregistered j hj))

/-! ## The steps -/

theorem completes_of_ne (h : ∀ i, a ≠ .callback i) (i : ℕ) : completes l a i = false := by
  unfold completes
  rw [beq_false_of_ne (h i), Bool.false_and]

/-- What the callbacks are after a step. -/
def called (s : Mounting) (a : MountAct) (i : ℕ) : ℕ :=
  if completes s.loading a i then s.callbacks i + 1 else s.callbacks i

theorem called_of_ne (h : ∀ i, a ≠ .callback i) : called s a = s.callbacks := by
  funext i
  rw [called, completes_of_ne h, if_neg Bool.false_ne_true]

/-- A task that is submitted is behind the others. -/
theorem tasks_runTask (l : Loading) (kind : TaskKind) : ∃ t : LoadingTask,
    (l.runTask kind).tasks = l.tasks ++ [t] ∧ t.kind = kind ∧ t.cancelled = false ∧
      t.work = .notStarted ∧ (t.status = .running ↔ l.current = none) ∧ t.status ≠ .finished := by
  unfold Loading.runTask
  cases hc : l.current with
  | none => exact ⟨_, rfl, rfl, rfl, rfl, by simp, by simp⟩
  | some t => exact ⟨_, rfl, rfl, rfl, rfl, by simp, by simp⟩

/-- The invariant, where a task is submitted. -/
theorem Kept.append (h : Kept s) {x : LoadingTask} (hslot : Loading.Inv (Mounting.slot l))
    (htasks : l.tasks = s.loading.tasks ++ [x]) (hx : x.kind = .mountServer → MountLife 0 x)
    (hcursors : ∀ c ∈ l.cursors, c ∈ s.loading.cursors ∨
      c.loadingTask = some s.loading.tasks.length ∧ x.kind ≠ .mountServer) :
    Kept ⟨l, s.callbacks⟩ := by
  refine ⟨hslot, fun i t ht hkind => ?_, fun i hi => ?_, fun c hc i hi => ?_⟩
  · rw [htasks] at ht
    rcases Loading.of_getElem?_append ht with ht | ⟨rfl, rfl⟩
    · exact h.mounts i t ht hkind
    · rw [h.fresh _ (Nat.le_refl _)]
      exact hx hkind
  · rw [htasks, List.length_append] at hi
    exact h.fresh i (by simp at hi; omega)
  · rw [htasks]
    rcases hcursors c hc with hc | ⟨hlength, hkind⟩
    · obtain ⟨t, ht, hkind⟩ := h.cursors c hc i hi
      exact ⟨t, Loading.getElem?_append_of_some ht, hkind⟩
    · obtain rfl := Option.some.inj (hlength.symm.trans hi)
      exact ⟨x, by simp, hkind⟩

/-- The invariant, where a task is changed. -/
theorem Kept.setTask (h : Kept s) (hslot : Loading.Inv (Mounting.slot l))
    (ht : s.loading.tasks[i]? = some t) (htasks : l.tasks = (s.loading.setTask i u).tasks)
    (hkind : u.kind = t.kind) (hcs : SameTasks s.loading.cursors l.cursors) {n : ℕ → ℕ}
    (hn : ∀ j, j ≠ i → n j = s.callbacks j) (hlife : t.kind = .mountServer → MountLife (n i) u) :
    Kept ⟨l, n⟩ := by
  have hlength : i < s.loading.tasks.length := (List.getElem?_eq_some_iff.mp ht).1
  refine ⟨hslot, fun j t' ht' hkind' => ?_, fun j hj => ?_, fun c hc j hj => ?_⟩
  · rw [htasks, Loading.tasks_setTask ht] at ht'
    split at ht'
    · rename_i hij
      cases ht'
      subst hij
      exact hlife (hkind ▸ hkind')
    · rename_i hij
      change MountLife (n j) t'
      rw [hn j (Ne.symm hij)]
      exact h.mounts j t' ht' hkind'
  · rw [htasks] at hj
    have hj' : s.loading.tasks.length ≤ j := by simpa [Loading.setTask] using hj
    exact (hn j (by omega)).trans (h.fresh j hj')
  · obtain ⟨t', ht', hkind'⟩ : ∃ t', s.loading.tasks[j]? = some t' ∧ t'.kind ≠ .mountServer := by
      rcases hcs c hc with hnone | ⟨c', hc', heq⟩
      · cases hnone.symm.trans hj
      · exact h.cursors c' hc' j (heq.symm.trans hj)
    rw [htasks, Loading.tasks_setTask ht]
    split
    · rename_i hij
      subst hij
      obtain rfl := Option.some.inj (ht.symm.trans ht')
      exact ⟨u, rfl, hkind ▸ hkind'⟩
    · exact ⟨t', ht', hkind'⟩

/-- **The step lemma.** -/
theorem Kept.step (h : Kept s) (hok : SlotFree s a) : Kept (s.step a) := by
  unfold Mounting.step
  cases hl : s.loading.step a.act with
  | none => exact h
  | some l' =>
    change Kept ⟨l', called s a⟩
    have hd := did_of_step hl
    have hslot := inv_slot_of_did h.slot hd
    cases hd with
    | mount ha =>
      subst ha
      obtain ⟨x, htasks, hkind, hnot, hwork, hrunning, hfinished⟩ :=
        tasks_runTask s.loading .mountServer
      have hne : ∀ i, MountAct.tryMount ≠ .callback i := by simp
      rw [called_of_ne hne]
      have hcursors : (s.loading.runTask .mountServer).cursors = s.loading.cursors := by
        unfold Loading.runTask
        split <;> rfl
      refine h.append hslot htasks (fun _ => ⟨?_, hnot, by rw [hwork]; rfl, fun hf => ?_⟩)
        fun c hc => .inl (hcursors ▸ hc)
      · rw [hrunning.mpr hok]
        simp
      · exact absurd hf hfinished
    | @query kind c hkind _ hne hc =>
      obtain ⟨x, htasks, hxkind, -⟩ := tasks_runTask s.loading kind
      rw [called_of_ne hne]
      refine h.append hslot htasks (fun hx => absurd (hxkind ▸ hx) hkind) fun c' hc' => ?_
      rcases List.mem_append.mp hc' with hc' | hc'
      · exact .inl hc'
      · rw [List.mem_singleton.mp hc']
        exact .inr ⟨hc, hxkind ▸ hkind⟩
    | @cursors cs _ hne hcs =>
      rw [called_of_ne hne]
      refine ⟨hslot, h.mounts, h.fresh, fun c hc i hi => ?_⟩
      rcases hcs c hc with hnone | ⟨c', hc', heq⟩
      · cases hnone.symm.trans hi
      · exact h.cursors c' hc' i (heq.symm.trans hi)
    | @cancel cs i t c _ hne hcs hc hi ht =>
      rw [called_of_ne hne]
      obtain ⟨t', ht', hkind⟩ := h.cursors c hc i hi
      obtain rfl := Option.some.inj (ht.symm.trans ht')
      refine h.setTask hslot ht rfl ?_ hcs (fun _ _ => rfl) fun hmount => absurd hmount hkind
      unfold LoadingTask.cancel
      split <;> rfl
    | @move cs i t u hcs ht hm =>
      refine h.setTask hslot ht rfl hm.kind_eq hcs (fun j hj => ?_) fun hmount => ?_
      · have hnot : completes s.loading a j = false := by
          unfold completes
          cases hm <;> simp [Ne.symm hj]
        rw [called, hnot, if_neg Bool.false_ne_true]
      · exact (h.mounts i t ht hmount).move hmount ht hm

/-- A mount that finds the slot taken is lost. -/
theorem slotFree_of_noneLost (h : NoneLost (s.step a)) : SlotFree s a := by
  cases a with
  | tryMount =>
    change s.loading.current = none
    by_contra hne
    obtain ⟨x, htasks, hkind, -, -, hrunning, hfinished⟩ :=
      tasks_runTask s.loading .mountServer
    have hstep : (s.step .tryMount).loading = s.loading.runTask .mountServer := rfl
    have hx : (s.step .tryMount).loading.tasks[s.loading.tasks.length]? = some x := by
      rw [hstep, htasks]
      simp
    have hexecuted := h.executed _ x hx hkind
    cases hst : x.status with
    | pending => exact hexecuted hst
    | running => exact hne (hrunning.mp hst)
    | finished => exact hfinished hst
  | _ => exact trivial

/-- **No mount request is lost** in any state of a run exactly where each
is made while the slot of the URI is free. -/
theorem noneLost_iff (as : List MountAct) :
    EveryState step NoneLost {} as ↔ EveryStep step SlotFree {} as :=
  everyState_iff_everyStep (fun _ _ h hok => h.step hok) (fun _ h => h.noneLost)
    (fun _ _ _ h => slotFree_of_noneLost h) kept_init

/-- A mount is requested while the first query of the share loads its
document: it is dropped. -/
theorem not_noneLost_query :
    ¬ EveryState step NoneLost {} [.queryChildDocuments .miss, .tryMount] := by
  intro h
  exact h.last.executed 1 { kind := .mountServer } rfl rfl rfl

end Mounting

end SambaProvider

import SambaProvider.Lib.Run
import SambaProvider.Native.Looper

/-!
# Calls do not get into each other's way

A waiting thread that is woken up before its message was handled takes
the instance away from the handler. Where that does not happen, an
instance belongs to one call from the moment it is obtained to the
moment it is back in the pool, and the handler only writes into it in
between.
-/

namespace SambaProvider

open Lib

namespace LooperState

variable {T : Type}
variable {s s' : LooperState T} {t : T} {c : LooperCall} {st : Stage}

/-- **Isolation.** A finished call has given its caller what the
implementation produced for its message, from the arguments the caller
passed; no two calls hold one instance; and the handler has not written
into an instance that its call had released. -/
structure Isolated (s : LooperState T) : Prop where
  outcome : ∀ id r out, s.results id = some (r, out) →
    s.asked id = some r ∧ s.produced id = some out
  exclusive : ∀ t t' c c' st st', s.clients t = some (c, st) → s.clients t' = some (c', st') →
    c.values = c'.values → t = t'
  onTime : s.lateWrite = false

/-- The step does not let a thread go on that was woken up without a
notification before its message was handled. -/
def NoEarlyResume (s : LooperState T) : Act T → Prop
  | .resume t => ∀ c, s.clients t = some (c, .woken true) → s.produced c.id ≠ none
  | _ => True

/-! ## The invariant -/

/-- The handler is done with the message of a call: the values hold what
it produced. -/
def Handled (s : LooperState T) (c : LooperCall) : Prop :=
  ∃ out, c.request.CanEnd out ∧ s.asked c.id = some c.request ∧ s.produced c.id = some out ∧
    s.values c.values = c.request.store out (c.request.prepare {})

/-- The handler has not begun with the message of a call: the values
hold the arguments. -/
def Unhandled (s : LooperState T) (c : LooperCall) : Prop :=
  s.produced c.id = none ∧ s.values c.values = c.request.prepare {}

/-- What a thread may rely on at each stage of its call. -/
def StageOk (s : LooperState T) (t : T) (c : LooperCall) : Stage → Prop
  | .obtained => s.produced c.id = none ∧ s.values c.values = {}
  | .prepared => s.Unhandled c
  | .entered | .sent => s.Unhandled c ∧ s.monitor c.values = some (.client t)
  | .waiting | .woken true => s.Unhandled c ∨ s.Handled c
  | .woken false | .returned => s.Handled c
  | .answered out => s.asked c.id = some c.request ∧ s.produced c.id = some out
  | .cleared out => s.asked c.id = some c.request ∧ s.produced c.id = some out ∧
      s.values c.values = {}

/-- The call a message belongs to is in progress, at a stage of the given
kind. -/
def At (s : LooperState T) (c : LooperCall) (p : Stage → Prop) : Prop :=
  ∃ t st, s.clients t = some (c, st) ∧ p st

/-- The thread still has to wait for the handler. -/
def Waits (st : Stage) : Prop := st = .waiting ∨ st = .woken true

/-- The message is on its way to the handler. -/
def OnItsWay (st : Stage) : Prop := st = .sent ∨ Waits st

/-- `enqueue` has not returned since the handler had the monitor. -/
def NotResumed (st : Stage) : Prop := Waits st ∨ st = .woken false

/-- What the handler may rely on. -/
def HandlerOk (s : LooperState T) : LooperCall × HandlerStage → Prop
  | (c, .taken) => s.Unhandled c ∧ c ∉ s.queue ∧ s.At c OnItsWay
  | (c, .entered) => s.Unhandled c ∧ c ∉ s.queue ∧ s.At c Waits ∧
      s.monitor c.values = some .looper
  | (c, .processed) => s.Handled c ∧ s.At c Waits ∧ s.monitor c.values = some .looper
  | (c, .notified) => s.At c NotResumed ∧ s.monitor c.values = some .looper

/-- The invariant. -/
structure Inv (s : LooperState T) : Prop where
  /-- Every call is at a stage its values agree with. -/
  stage : ∀ t c st, s.clients t = some (c, st) → s.StageOk t c st
  /-- Instances and numbers of calls in progress are in use, -/
  inUse : ∀ t c st, s.clients t = some (c, st) →
    c.values < s.fresh ∧ c.values ∉ s.pool ∧ c.id < s.calls
  /-- and by one call only. -/
  distinct : ∀ t t' c c' st st', s.clients t = some (c, st) → s.clients t' = some (c', st') →
    t ≠ t' → c.values ≠ c'.values ∧ c.id ≠ c'.id
  /-- The pool holds cleared instances, each once. -/
  nodup : s.pool.Nodup
  pooled : ∀ i ∈ s.pool, i < s.fresh ∧ s.values i = {}
  /-- A new instance is cleared, too. -/
  fresh : ∀ i, s.fresh ≤ i → s.values i = {}
  /-- Nothing has been produced for a call that does not exist. -/
  calls : ∀ id, s.calls ≤ id → s.produced id = none
  /-- A queued message waits to be handled. -/
  queueNodup : s.queue.Nodup
  queued : ∀ c ∈ s.queue, s.Unhandled c ∧ s.At c OnItsWay
  handled : ∀ x, s.handler = some x → s.HandlerOk x
  results : ∀ id r out, s.results id = some (r, out) →
    s.asked id = some r ∧ s.produced id = some out
  lateWrite : s.lateWrite = false

theorem Inv.isolated (h : Inv s) : Isolated s where
  outcome := h.results
  exclusive := fun t t' c c' st st' ht ht' hv =>
    by_contra fun hne => (h.distinct t t' c c' st st' ht ht' hne).1 hv
  onTime := h.lateWrite

theorem Inv.init : Inv (init : LooperState T) := by
  constructor <;> simp [LooperState.init]

/-! ## What is not touched -/

/-- Two states agree on what concerns a call. -/
structure Agree (s s' : LooperState T) (c : LooperCall) : Prop where
  values : s'.values c.values = s.values c.values
  monitor : s'.monitor c.values = s.monitor c.values
  asked : s'.asked c.id = s.asked c.id
  produced : s'.produced c.id = s.produced c.id

theorem Agree.unhandled (h : Agree s s' c) : s'.Unhandled c ↔ s.Unhandled c := by
  simp only [Unhandled, h.values, h.produced]

theorem Agree.handled (h : Agree s s' c) : s'.Handled c ↔ s.Handled c := by
  simp only [Handled, h.values, h.produced, h.asked]

theorem Agree.stageOk (h : Agree s s' c) (hst : s.StageOk t c st) : s'.StageOk t c st := by
  unfold StageOk at hst ⊢
  split <;> simp only [h.values, h.produced, h.asked, h.monitor, h.unhandled, h.handled] <;>
    exact hst

theorem At.mono {p q : Stage → Prop} (h : s.At c p) (hpq : ∀ st, p st → q st) : s.At c q := by
  obtain ⟨t, st, hc, hp⟩ := h
  exact ⟨t, st, hc, hpq st hp⟩

/-- A message and its thread are at the same stage of the call. -/
theorem Inv.at_iff (h : Inv s) {p : Stage → Prop} (hc : s.clients t = some (c, st)) :
    s.At c p ↔ p st := by
  refine ⟨?_, fun hp => ⟨t, st, hc, hp⟩⟩
  rintro ⟨t', st', hc', hp⟩
  have ht : t = t' := by_contra fun hne => (h.distinct t t' c c st st' hc hc' hne).1 rfl
  rw [← ht, hc] at hc'
  cases hc'
  exact hp

theorem Inv.onItsWay_of_queue (h : Inv s) (hc : s.clients t = some (c, st)) (hq : c ∈ s.queue) :
    OnItsWay st := (h.at_iff hc).mp (h.queued c hq).2

/-- The call the handler is at is in progress. -/
theorem Inv.at_handler (h : Inv s) {hst : HandlerStage} (hh : s.handler = some (c, hst)) :
    s.At c fun st => OnItsWay st ∨ NotResumed st := by
  have hok := h.handled _ hh
  cases hst with
  | taken => exact hok.2.2.mono fun _ => .inl
  | entered => exact hok.2.2.1.mono fun _ hw => .inr (.inl hw)
  | processed => exact hok.2.1.mono fun _ hw => .inr (.inl hw)
  | notified => exact hok.1.mono fun _ => .inr

theorem Agree.handlerOk {hst : HandlerStage} (h : Agree s s' c)
    (hat : ∀ p, s.At c p → s'.At c p) (hq : c ∉ s.queue → c ∉ s'.queue)
    (hok : s.HandlerOk (c, hst)) : s'.HandlerOk (c, hst) := by
  cases hst with
  | taken => exact ⟨h.unhandled.mpr hok.1, hq hok.2.1, hat _ hok.2.2⟩
  | entered => exact ⟨h.unhandled.mpr hok.1, hq hok.2.1, hat _ hok.2.2.1, h.monitor ▸ hok.2.2.2⟩
  | processed => exact ⟨h.handled.mpr hok.1, hat _ hok.2.1, h.monitor ▸ hok.2.2⟩
  | notified => exact ⟨hat _ hok.1, h.monitor ▸ hok.2⟩

/-- The call is no concern of the looper's. -/
def Private (st : Stage) : Prop := ¬ OnItsWay st ∧ ¬ NotResumed st

theorem Inv.not_queued (h : Inv s) (hc : s.clients t = some (c, st)) (hp : ¬ OnItsWay st) :
    c ∉ s.queue := fun hq => hp (h.onItsWay_of_queue hc hq)

theorem Inv.not_handled (h : Inv s) (hc : s.clients t = some (c, st)) (hp : Private st)
    (hst : HandlerStage) : s.handler ≠ some (c, hst) := by
  intro hh
  rcases (h.at_iff hc).mp (h.at_handler hh) with hw | hn
  · exact hp.1 hw
  · exact hp.2 hn

variable [DecidableEq T]

/-- Thread `t` goes on with its call `c`, where the values of the call
and their monitor may change. -/
def advance (s : LooperState T) (t : T) (c : LooperCall) (st : Stage) (v : MessageValues)
    (m : Option (Holder T)) : LooperState T :=
  ((s.goTo t (some (c, st))).write c.values v).hold c.values m

theorem advance_self (s : LooperState T) (t : T) (c : LooperCall) (st : Stage) :
    s.goTo t (some (c, st)) = s.advance t c st (s.values c.values) (s.monitor c.values) := by
  simp [advance, goTo, write, hold]

variable {v : MessageValues} {m : Option (Holder T)} {u : Stage}

/-- A step of one call leaves the others alone. -/
theorem Inv.agree_advance (h : Inv s) (hc : s.clients t = some (c, st)) {t' : T}
    {c' : LooperCall} {st₁ : Stage} (hc' : s.clients t' = some (c', st₁)) (hne : t' ≠ t) :
    Agree s (s.advance t c u v m) c' := by
  have hv := (h.distinct t' t c' c _ _ hc' hc hne).1
  constructor <;> simp [advance, goTo, write, hold, Function.update_of_ne hv]

theorem Inv.at_advance (h : Inv s) (hc : s.clients t = some (c, st)) {c' : LooperCall}
    {p : Stage → Prop} (hne : c' ≠ c) (hat : s.At c' p) :
    (s.advance t c u v m).At c' p ∧ Agree s (s.advance t c u v m) c' := by
  obtain ⟨t', st₁, hc', hp⟩ := hat
  have ht : t' ≠ t := by
    rintro rfl
    rw [hc] at hc'
    cases hc'
    exact hne rfl
  refine ⟨⟨t', st₁, ?_, hp⟩, h.agree_advance hc hc' ht⟩
  simpa [advance, goTo, write, hold, Function.update_of_ne ht] using hc'

/-- **A client's step within its call**, from what it means for the call
itself. -/
theorem Inv.advance (h : Inv s) (hc : s.clients t = some (c, st))
    (hst : (s.advance t c u v m).StageOk t c u)
    (hq : c ∈ s.queue → (s.advance t c u v m).Unhandled c ∧ OnItsWay u)
    (hh : ∀ hst, s.handler = some (c, hst) → (s.advance t c u v m).HandlerOk (c, hst)) :
    Inv (s.advance t c u v m) := by
  have hin := h.inUse t c st hc
  have hclients : ∀ t' c' st₁, (s.advance t c u v m).clients t' = some (c', st₁) →
      (t' = t ∧ c' = c ∧ st₁ = u) ∨ (t' ≠ t ∧ s.clients t' = some (c', st₁)) := by
    intro t' c' st₁ hc'
    simp only [LooperState.advance, goTo, write, hold, Function.update_apply] at hc'
    split at hc'
    · rename_i ht
      cases hc'
      exact .inl ⟨ht, rfl, rfl⟩
    · rename_i ht
      exact .inr ⟨ht, hc'⟩
  constructor
  · intro t' c' st₁ hc'
    rcases hclients t' c' st₁ hc' with ⟨rfl, rfl, rfl⟩ | ⟨hne, hc'⟩
    · exact hst
    · exact (h.agree_advance hc hc' hne).stageOk (h.stage t' c' st₁ hc')
  · intro t' c' st₁ hc'
    rcases hclients t' c' st₁ hc' with ⟨rfl, rfl, rfl⟩ | ⟨hne, hc'⟩
    · exact hin
    · exact h.inUse t' c' st₁ hc'
  · intro t₁ t₂ c₁ c₂ st₁ st₂ h₁ h₂ hne
    rcases hclients t₁ c₁ st₁ h₁ with ⟨ht₁, hc₁, -⟩ | ⟨-, h₁⟩ <;>
      rcases hclients t₂ c₂ st₂ h₂ with ⟨ht₂, hc₂, -⟩ | ⟨-, h₂⟩
    · exact absurd (ht₁.trans ht₂.symm) hne
    · rw [hc₁]
      exact h.distinct _ _ _ _ _ _ hc h₂ (ht₁ ▸ hne)
    · rw [hc₂]
      exact h.distinct _ _ _ _ _ _ h₁ hc (ht₂ ▸ hne)
    · exact h.distinct _ _ _ _ _ _ h₁ h₂ hne
  · exact h.nodup
  · intro i hi
    have hne : i ≠ c.values := fun hi' => hin.2.1 (hi' ▸ hi)
    simpa [LooperState.advance, goTo, write, hold, Function.update_of_ne hne] using h.pooled i hi
  · intro i hi
    have hne : i ≠ c.values := by
      rintro rfl
      exact absurd hin.1 (Nat.not_lt.mpr hi)
    simpa [LooperState.advance, goTo, write, hold, Function.update_of_ne hne] using h.fresh i hi
  · exact h.calls
  · exact h.queueNodup
  · intro c' hc'
    by_cases hcc : c' = c
    · subst hcc
      exact ⟨(hq hc').1, t, u, by simp [LooperState.advance, goTo, write, hold], (hq hc').2⟩
    · obtain ⟨hat, hagree⟩ := h.at_advance hc hcc (h.queued c' hc').2
      exact ⟨hagree.unhandled.mpr (h.queued c' hc').1, hat⟩
  · rintro ⟨c', hst'⟩ hx
    by_cases hcc : c' = c
    · subst hcc
      exact hh hst' hx
    · have hagree := (h.at_advance (u := u) (v := v) (m := m) hc hcc (h.at_handler hx)).2
      exact hagree.handlerOk (fun p hp => (h.at_advance hc hcc hp).1) id (h.handled _ hx)
  · exact h.results
  · exact h.lateWrite

/-! ## The steps of a client -/

/-- A step from such a stage concerns the call alone. -/
theorem Inv.advance_private (h : Inv s) (hc : s.clients t = some (c, st)) (hp : Private st)
    (hst : (s.advance t c u v m).StageOk t c u) : Inv (s.advance t c u v m) :=
  h.advance hc hst (fun hq => absurd hq (h.not_queued hc hp.1))
    fun hst hh => absurd hh (h.not_handled hc hp hst)

theorem private_obtained : Private .obtained := by simp [Private, OnItsWay, NotResumed, Waits]

theorem private_prepared : Private .prepared := by simp [Private, OnItsWay, NotResumed, Waits]

theorem private_entered : Private .entered := by simp [Private, OnItsWay, NotResumed, Waits]

theorem private_returned : Private .returned := by simp [Private, OnItsWay, NotResumed, Waits]

theorem private_answered {out : Outcome} : Private (.answered out) := by
  simp [Private, OnItsWay, NotResumed, Waits]

theorem private_cleared {out : Outcome} : Private (.cleared out) := by
  simp [Private, OnItsWay, NotResumed, Waits]

theorem Inv.prepare (h : Inv s) (hc : s.clients t = some (c, .obtained)) :
    Inv ((s.goTo t (some (c, .prepared))).write c.values
      (c.request.prepare (s.values c.values))) := by
  obtain ⟨hprod, hval⟩ := h.stage t c _ hc
  have := h.advance_private (u := .prepared) (v := c.request.prepare (s.values c.values))
    (m := s.monitor c.values) hc private_obtained
    ⟨hprod, by simp [LooperState.advance, write, hold, hval]⟩
  simpa [LooperState.advance, hold, goTo, write] using this

theorem Inv.enter (h : Inv s) (hc : s.clients t = some (c, .prepared)) :
    Inv ((s.goTo t (some (c, .entered))).hold c.values (some (.client t))) := by
  have hun := h.stage t c _ hc
  have := h.advance_private (u := .entered) (v := s.values c.values)
    (m := some (.client t)) hc private_prepared
    ⟨⟨hun.1, by simp [LooperState.advance, goTo, write, hold, hun.2]⟩,
      by simp [LooperState.advance, hold]⟩
  simpa [LooperState.advance, hold, goTo, write] using this

theorem Inv.read (h : Inv s) (hc : s.clients t = some (c, .returned)) :
    Inv (s.goTo t (some (c, .answered (c.request.result (s.values c.values))))) := by
  obtain ⟨out, hend, hasked, hprod, hval⟩ := h.stage t c _ hc
  rw [hval, Request.result_store hend, advance_self]
  exact h.advance_private hc private_returned ⟨hasked, hprod⟩

theorem Inv.clear (h : Inv s) {out : Outcome} (hc : s.clients t = some (c, .answered out)) :
    Inv ((s.goTo t (some (c, .cleared out))).write c.values {}) := by
  obtain ⟨hasked, hprod⟩ := h.stage t c _ hc
  have := h.advance_private (u := .cleared out) (v := {}) (m := s.monitor c.values) hc
    private_answered ⟨hasked, hprod, by simp [LooperState.advance, write, hold]⟩
  simpa [LooperState.advance, hold, goTo, write] using this

theorem Inv.wait (h : Inv s) (hc : s.clients t = some (c, .sent)) :
    Inv ((s.goTo t (some (c, .waiting))).hold c.values none) := by
  obtain ⟨hun, -⟩ := h.stage t c _ hc
  have hun' : (s.advance t c .waiting (s.values c.values) none).Unhandled c :=
    ⟨hun.1, by simp [LooperState.advance, goTo, write, hold, hun.2]⟩
  have := h.advance (u := .waiting) (v := s.values c.values) (m := none) hc (.inl hun')
    (fun _ => ⟨hun', .inr (.inl rfl)⟩) (by
      intro hst hh
      have hok := h.handled _ hh
      cases hst with
      | taken =>
        exact ⟨hun', hok.2.1, t, .waiting, by simp [LooperState.advance, goTo, write, hold],
          .inr (.inl rfl)⟩
      | entered =>
        have := (h.at_iff hc).mp hok.2.2.1
        simp [Waits] at this
      | processed =>
        have := (h.at_iff hc).mp hok.2.1
        simp [Waits] at this
      | notified =>
        have := (h.at_iff hc).mp hok.1
        simp [NotResumed, Waits] at this)
  simpa [LooperState.advance, hold, goTo, write] using this

theorem Inv.wakeSpuriously (h : Inv s) (hc : s.clients t = some (c, .waiting)) :
    Inv (s.goTo t (some (c, .woken true))) := by
  rw [advance_self]
  have hat : ∀ p : Stage → Prop, p (.woken true) →
      (s.advance t c (.woken true) (s.values c.values) (s.monitor c.values)).At c p :=
    fun p hp => ⟨t, _, by simp [LooperState.advance, goTo, write, hold], hp⟩
  have hagree : Agree s
      (s.advance t c (.woken true) (s.values c.values) (s.monitor c.values)) c := by
    constructor <;> simp [LooperState.advance, goTo, write, hold]
  refine h.advance hc ?_ ?_ ?_
  · rcases h.stage t c _ hc with hun | hha
    · exact .inl (hagree.unhandled.mpr hun)
    · exact .inr (hagree.handled.mpr hha)
  · exact fun hq => ⟨hagree.unhandled.mpr (h.queued c hq).1, .inr (.inr rfl)⟩
  · intro hst hh
    have hok := h.handled _ hh
    cases hst with
    | taken => exact ⟨hagree.unhandled.mpr hok.1, hok.2.1, hat _ (.inr (.inr rfl))⟩
    | entered =>
      exact ⟨hagree.unhandled.mpr hok.1, hok.2.1, hat _ (.inr rfl), hagree.monitor.trans hok.2.2.2⟩
    | processed =>
      exact ⟨hagree.handled.mpr hok.1, hat _ (.inr rfl), hagree.monitor.trans hok.2.2⟩
    | notified => exact ⟨hat _ (.inl (.inr rfl)), hagree.monitor.trans hok.2⟩

/-- **The one step that can go wrong.** A thread leaves `wait` when the
monitor is free; its message must have been handled by then. -/
theorem Inv.resume (h : Inv s) {spurious : Bool} (hc : s.clients t = some (c, .woken spurious))
    (hm : s.monitor c.values = none) (hok : s.NoEarlyResume (.resume t)) :
    Inv (s.goTo t (some (c, .returned))) := by
  have hha : s.Handled c := by
    have hst := h.stage t c _ hc
    cases spurious with
    | false => exact hst
    | true =>
      rcases hst with hun | hha
      · exact absurd hun.1 (hok c hc)
      · exact hha
  have hprod : s.produced c.id ≠ none := by
    obtain ⟨out, -, -, hp, -⟩ := hha
    simp [hp]
  rw [advance_self]
  have hagree : Agree s (s.advance t c .returned (s.values c.values) (s.monitor c.values)) c := by
    constructor <;> simp [LooperState.advance, goTo, write, hold]
  refine h.advance hc (hagree.handled.mpr hha) ?_ ?_
  · exact fun hq => absurd (h.queued c hq).1.1 hprod
  · intro hst hh
    have hok := h.handled _ hh
    cases hst with
    | taken => exact absurd hok.1.1 hprod
    | entered => exact absurd hok.1.1 hprod
    | processed =>
      have hheld := hm.symm.trans hok.2.2
      cases hheld
    | notified =>
      have hheld := hm.symm.trans hok.2
      cases hheld

/-! ## A call begins and ends -/

theorem goTo_clients {x : Option (LooperCall × Stage)} {t' : T} {y : LooperCall × Stage}
    (h : (s.goTo t x).clients t' = some y) :
    (t' = t ∧ x = some y) ∨ (t' ≠ t ∧ s.clients t' = some y) := by
  simp only [goTo, Function.update_apply] at h
  split at h
  · rename_i ht
    exact .inl ⟨ht, h⟩
  · rename_i ht
    exact .inr ⟨ht, h⟩

/-- What is at some stage stays there when another call begins or
ends. -/
theorem At.goTo {x : Option (LooperCall × Stage)} {p : Stage → Prop} (hat : s.At c p)
    (hx : ∀ st, s.clients t = some (c, st) → ¬ p st) : (s.goTo t x).At c p := by
  obtain ⟨t', st, hc, hp⟩ := hat
  have ht : t' ≠ t := by
    rintro rfl
    exact hx st hc hp
  exact ⟨t', st, by simpa [LooperState.goTo, Function.update_of_ne ht] using hc, hp⟩

/-- `obtain`, of an instance that is free. -/
theorem Inv.obtain (h : Inv s) {i fresh : ℕ} {pool : List ℕ} {r : Request}
    (hc : s.clients t = none) (hi : i < fresh) (hfresh : s.fresh ≤ fresh)
    (hsub : ∀ j ∈ pool, j ∈ s.pool) (hnodup : pool.Nodup) (hfree : i ∉ pool)
    (hval : s.values i = {}) (hother : ∀ t c st, s.clients t = some (c, st) → c.values ≠ i) :
    Inv { s.goTo t (some (⟨i, r, s.calls⟩, .obtained)) with
      pool := pool, fresh := fresh, calls := s.calls + 1 } := by
  have hold : ∀ c p, s.At c p → (s.goTo t (some (⟨i, r, s.calls⟩, .obtained))).At c p :=
    fun c p hat => hat.goTo fun st hc' => by simp [hc] at hc'
  constructor
  · intro t' c' st' hc'
    rcases goTo_clients hc' with ⟨-, hx⟩ | ⟨-, hc'⟩
    · cases hx
      exact ⟨h.calls _ (Nat.le_refl _), hval⟩
    · exact h.stage t' c' st' hc'
  · intro t' c' st' hc'
    rcases goTo_clients hc' with ⟨-, hx⟩ | ⟨-, hc'⟩
    · cases hx
      exact ⟨hi, hfree, Nat.lt_succ_self _⟩
    · obtain ⟨hv, hp, hid⟩ := h.inUse t' c' st' hc'
      exact ⟨Nat.lt_of_lt_of_le hv hfresh, fun hm => hp (hsub _ hm), Nat.lt_succ_of_lt hid⟩
  · intro t₁ t₂ c₁ c₂ st₁ st₂ h₁ h₂ hne
    rcases goTo_clients h₁ with ⟨ht₁, hx₁⟩ | ⟨-, h₁⟩ <;>
      rcases goTo_clients h₂ with ⟨ht₂, hx₂⟩ | ⟨-, h₂⟩
    · exact absurd (ht₁.trans ht₂.symm) hne
    · cases hx₁
      exact ⟨(hother t₂ c₂ st₂ h₂).symm, (Nat.ne_of_lt (h.inUse t₂ c₂ st₂ h₂).2.2).symm⟩
    · cases hx₂
      exact ⟨hother t₁ c₁ st₁ h₁, Nat.ne_of_lt (h.inUse t₁ c₁ st₁ h₁).2.2⟩
    · exact h.distinct t₁ t₂ c₁ c₂ st₁ st₂ h₁ h₂ hne
  · exact hnodup
  · exact fun j hj => ⟨Nat.lt_of_lt_of_le (h.pooled j (hsub j hj)).1 hfresh,
      (h.pooled j (hsub j hj)).2⟩
  · exact fun j hj => h.fresh j (Nat.le_trans hfresh hj)
  · exact fun id hid => h.calls id (Nat.le_of_succ_le hid)
  · exact h.queueNodup
  · exact fun c' hc' => ⟨(h.queued c' hc').1, hold c' _ (h.queued c' hc').2⟩
  · rintro ⟨c', hst⟩ hx
    exact Agree.handlerOk (s := s) ⟨rfl, rfl, rfl, rfl⟩ (hold c') id (h.handled _ hx)
  · exact h.results
  · exact h.lateWrite

/-- `close` has cleared the instance and gives it back. -/
theorem Inv.release (h : Inv s) {out : Outcome} (hc : s.clients t = some (c, .cleared out)) :
    Inv { s.goTo t none with
      pool := if s.pool.length < poolSize then c.values :: s.pool else s.pool
      results := Function.update s.results c.id (some (c.request, out)) } := by
  obtain ⟨hasked, hprod, hval⟩ := h.stage t c _ hc
  obtain ⟨hv, hp, hid⟩ := h.inUse t c _ hc
  have hsub : ∀ j ∈ (if s.pool.length < poolSize then c.values :: s.pool else s.pool),
      j = c.values ∨ j ∈ s.pool := by
    intro j hj
    split at hj
    · exact List.mem_cons.mp hj
    · exact .inr hj
  have hold : ∀ c' p, (∀ st, p st → OnItsWay st ∨ NotResumed st) → s.At c' p →
      (s.goTo t none).At c' p := by
    intro c' p hp hat
    refine hat.goTo fun st hc' hpst => ?_
    rw [hc] at hc'
    cases hc'
    rcases hp _ hpst with hw | hn
    · exact private_cleared.1 hw
    · exact private_cleared.2 hn
  constructor
  · intro t' c' st' hc'
    rcases goTo_clients hc' with ⟨-, hx⟩ | ⟨-, hc'⟩
    · cases hx
    · exact h.stage t' c' st' hc'
  · intro t' c' st' hc'
    rcases goTo_clients hc' with ⟨-, hx⟩ | ⟨hne, hc'⟩
    · cases hx
    · obtain ⟨hv', hp', hid'⟩ := h.inUse t' c' st' hc'
      refine ⟨hv', fun hm => ?_, hid'⟩
      rcases hsub _ hm with hm | hm
      · exact (h.distinct t' t c' c _ _ hc' hc hne).1 hm
      · exact hp' hm
  · intro t₁ t₂ c₁ c₂ st₁ st₂ h₁ h₂ hne
    rcases goTo_clients h₁ with ⟨-, hx⟩ | ⟨-, h₁⟩
    · cases hx
    · rcases goTo_clients h₂ with ⟨-, hx⟩ | ⟨-, h₂⟩
      · cases hx
      · exact h.distinct t₁ t₂ c₁ c₂ st₁ st₂ h₁ h₂ hne
  · change (if s.pool.length < poolSize then c.values :: s.pool else s.pool).Nodup
    split
    · exact List.nodup_cons.mpr ⟨hp, h.nodup⟩
    · exact h.nodup
  · intro j hj
    rcases hsub j hj with rfl | hj
    · exact ⟨hv, hval⟩
    · exact h.pooled j hj
  · exact h.fresh
  · exact h.calls
  · exact h.queueNodup
  · exact fun c' hc' => ⟨(h.queued c' hc').1, hold c' _ (fun _ => .inl) (h.queued c' hc').2⟩
  · rintro ⟨c', hst⟩ hx
    have hok := h.handled _ hx
    cases hst with
    | taken => exact ⟨hok.1, hok.2.1, hold c' _ (fun _ => .inl) hok.2.2⟩
    | entered =>
      exact ⟨hok.1, hok.2.1, hold c' _ (fun _ hw => .inr (.inl hw)) hok.2.2.1, hok.2.2.2⟩
    | processed => exact ⟨hok.1, hold c' _ (fun _ hw => .inr (.inl hw)) hok.2.1, hok.2.2⟩
    | notified => exact ⟨hold c' _ (fun _ => .inr) hok.1, hok.2⟩
  · intro id r out' hres
    simp only [Function.update_apply] at hres
    split at hres
    · rename_i hid'
      cases hres
      rw [hid']
      exact ⟨hasked, hprod⟩
    · exact h.results id r out' hres
  · exact h.lateWrite

/-! ## The steps of the looper -/

theorem Inv.send (h : Inv s) (hc : s.clients t = some (c, .entered)) :
    Inv { s.goTo t (some (c, .sent)) with queue := s.queue ++ [c] } := by
  have hst := h.stage t c _ hc
  have hnq := h.not_queued hc private_entered.1
  have hnh := h.not_handled hc private_entered
  -- the thread first goes on, then the message is there
  have h' : Inv (s.goTo t (some (c, .sent))) := by
    rw [advance_self]
    have hagree : Agree s (s.advance t c .sent (s.values c.values) (s.monitor c.values)) c := by
      constructor <;> simp [LooperState.advance, goTo, write, hold]
    exact h.advance_private hc private_entered
      ⟨hagree.unhandled.mpr hst.1, hagree.monitor.trans hst.2⟩
  refine ⟨h'.stage, h'.inUse, h'.distinct, h'.nodup, h'.pooled, h'.fresh, h'.calls, ?_, ?_, ?_,
    h'.results, h'.lateWrite⟩
  · exact List.nodup_append.mpr ⟨h.queueNodup, by simp, by
      rintro a ha b hb rfl
      exact hnq (List.mem_singleton.mp hb ▸ ha)⟩
  · intro c' hc'
    rcases List.mem_append.mp hc' with hc' | hc'
    · exact h'.queued c' hc'
    · rw [List.mem_singleton.mp hc']
      exact ⟨hst.1, t, .sent, by simp [goTo], .inl rfl⟩
  · rintro ⟨c', hst'⟩ hx
    refine Agree.handlerOk (s := s.goTo t (some (c, .sent))) ⟨rfl, rfl, rfl, rfl⟩ (fun _ => id)
      (fun hq hq' => ?_) (h'.handled _ hx)
    rcases List.mem_append.mp hq' with hq' | hq'
    · exact hq hq'
    · rw [List.mem_singleton.mp hq'] at hx
      exact hnh hst' hx

omit [DecidableEq T] in
theorem Inv.take (h : Inv s) {queue : List LooperCall} (hq : s.queue = c :: queue) :
    Inv { s with handler := some (c, .taken), queue := queue } := by
  have hsub : ∀ c' ∈ queue, c' ∈ s.queue := fun c' hc' => by simp [hq, hc']
  have hnodup := h.queueNodup
  rw [hq, List.nodup_cons] at hnodup
  obtain ⟨hun, hat⟩ := h.queued c (by simp [hq])
  refine ⟨h.stage, h.inUse, h.distinct, h.nodup, h.pooled, h.fresh, h.calls, hnodup.2,
    fun c' hc' => h.queued c' (hsub c' hc'), ?_, h.results, h.lateWrite⟩
  rintro x hx
  cases hx
  exact ⟨hun, hnodup.1, hat⟩

/-- The handler goes on, and takes or leaves the monitor. -/
theorem Inv.handlerStep (h : Inv s) (hat : s.At c NotResumed)
    {y : Option (LooperCall × HandlerStage)}
    (hok : ∀ x, y = some x → ({ s with handler := y }.hold c.values m).HandlerOk x) :
    Inv ({ s with handler := y }.hold c.values m) := by
  obtain ⟨t, st, hc, hst⟩ := hat
  refine ⟨?_, h.inUse, h.distinct, h.nodup, h.pooled, h.fresh, h.calls, h.queueNodup, h.queued,
    hok, h.results, h.lateWrite⟩
  intro t' c' st' hc'
  change s.clients t' = some (c', st') at hc'
  have hok' := h.stage t' c' st' hc'
  by_cases ht : t' = t
  · -- the thread itself sleeps, and does not look at the monitor
    subst ht
    rw [hc] at hc'
    cases hc'
    rcases hst with (rfl | rfl) | rfl <;> exact hok'
  · have hv := (h.distinct t' t c' c _ _ hc' hc ht).1
    exact Agree.stageOk (s := s) ⟨rfl, Function.update_of_ne hv _ _, rfl, rfl⟩ hok'

theorem Inv.enterHandler (h : Inv s) (hh : s.handler = some (c, .taken))
    (hm : s.monitor c.values = none) :
    Inv ({ s with handler := some (c, .entered) }.hold c.values (some .looper)) := by
  obtain ⟨hun, hq, hat⟩ := h.handled _ hh
  have hwaits : s.At c Waits := by
    obtain ⟨t, st, hc, rfl | hw⟩ := hat
    · -- the sender still holds the monitor
      have hheld := hm.symm.trans (h.stage t c _ hc).2
      cases hheld
    · exact ⟨t, st, hc, hw⟩
  refine h.handlerStep (hwaits.mono fun _ => .inl) fun x hx => ?_
  cases hx
  exact ⟨hun, hq, hwaits, by simp [hold]⟩

theorem Inv.notifyNone (h : Inv s) (hh : s.handler = some (c, .processed)) :
    Inv { s with handler := some (c, .notified) } := by
  obtain ⟨-, hat, hm⟩ := h.handled _ hh
  have hn := hat.mono (q := NotResumed) fun _ => .inl
  have := h.handlerStep (m := s.monitor c.values) (y := some (c, .notified)) hn fun x hx => by
    cases hx
    exact ⟨hn, by simpa [hold] using hm⟩
  simpa [hold] using this

theorem Inv.notifyOne (h : Inv s) {c' : LooperCall} (hh : s.handler = some (c, .processed))
    (hc' : s.clients t = some (c', .waiting)) (hv : c'.values = c.values) :
    Inv { s.goTo t (some (c', .woken false)) with handler := some (c, .notified) } := by
  obtain ⟨hha, ⟨t₀, st₀, hc₀, -⟩, hm⟩ := h.handled _ hh
  -- only the sender of the message can wait at this monitor
  have ht : t = t₀ := by_contra fun hne => (h.distinct t t₀ c' c _ _ hc' hc₀ hne).1 hv
  subst ht
  rw [hc'] at hc₀
  cases hc₀
  have h' := h.notifyNone hh
  have hagree : Agree s ({ s with handler := some (c, .notified) }.advance t c (.woken false)
      (s.values c.values) (s.monitor c.values)) c := by
    constructor <;> simp [LooperState.advance, goTo, write, hold]
  have := h'.advance (u := .woken false) (v := s.values c.values) (m := s.monitor c.values) hc'
    (hagree.handled.mpr hha)
    (fun hq => by
      obtain ⟨out, -, -, hp, -⟩ := hha
      rw [(h.queued c hq).1.1] at hp
      cases hp)
    (fun hst hx => by
      cases hx
      exact ⟨⟨t, _, by simp [LooperState.advance, goTo, write, hold], .inr rfl⟩,
        hagree.monitor.trans hm⟩)
  simpa [LooperState.advance, goTo, write, hold] using this

theorem Inv.leaveHandler (h : Inv s) (hh : s.handler = some (c, .notified)) :
    Inv ({ s with handler := none }.hold c.values none) :=
  h.handlerStep (h.handled _ hh).1 fun x hx => by cases hx

omit [DecidableEq T] in
/-- **The handler writes into the instance of the call it handles**, and
only there. -/
theorem Inv.process (h : Inv s) {r : Request} {out : Outcome} {late : Bool}
    (hh : s.handler = some (c, .entered))
    (hr : c.request.arguments (s.values c.values) = .ok r) (hend : r.CanEnd out)
    (hlate : late = true ↔ ¬ s.InCall c) :
    Inv { s.write c.values (c.request.process out (s.values c.values)) with
      handler := some (c, .processed)
      asked := Function.update s.asked c.id (some r)
      produced := Function.update s.produced c.id (some out)
      lateWrite := s.lateWrite || late } := by
  obtain ⟨⟨hprod, hval⟩, hcq, ⟨t, st, hc, hst⟩, hm⟩ := h.handled _ hh
  obtain ⟨hlt, hpool, hid⟩ := h.inUse t c st hc
  rw [hval, Request.arguments_prepare] at hr
  cases hr
  have hlate' : late = false := by
    rcases late with _ | _
    · rfl
    · exact absurd ⟨t, st, hc⟩ (hlate.mp rfl)
  have hproc : c.request.process out (s.values c.values) =
      c.request.store out (c.request.prepare {}) := by
    rw [hval, Request.process, Request.arguments_prepare]
  rw [hproc, hlate']
  have hother : ∀ t' c' st', s.clients t' = some (c', st') → c' ≠ c →
      c'.values ≠ c.values ∧ c'.id ≠ c.id := by
    intro t' c' st' hc' hne
    refine h.distinct t' t c' c _ _ hc' hc ?_
    rintro rfl
    rw [hc] at hc'
    cases hc'
    exact hne rfl
  refine ⟨?_, h.inUse, h.distinct, h.nodup, ?_, ?_, ?_, h.queueNodup, ?_, ?_, ?_, ?_⟩
  · intro t' c' st' hc'
    change s.clients t' = some (c', st') at hc'
    by_cases hcc : c' = c
    · subst hcc
      have hst' : st' = st := by
        have ht : t' = t := by_contra fun hne => (h.distinct _ _ _ _ _ _ hc' hc hne).1 rfl
        rw [ht, hc] at hc'
        cases hc'
        rfl
      rw [hst']
      have hha : Handled { s.write c'.values (c'.request.store out (c'.request.prepare {})) with
          handler := some (c', .processed)
          asked := Function.update s.asked c'.id (some c'.request)
          produced := Function.update s.produced c'.id (some out)
          lateWrite := s.lateWrite || false } c' :=
        ⟨out, hend, by simp, by simp, by simp [write]⟩
      rcases hst with rfl | rfl <;> exact .inr hha
    · obtain ⟨hv, hi⟩ := hother t' c' st' hc' hcc
      exact Agree.stageOk (s := s) ⟨Function.update_of_ne hv _ _, rfl, Function.update_of_ne hi _ _,
        Function.update_of_ne hi _ _⟩ (h.stage t' c' st' hc')
  · intro j hj
    have hne : j ≠ c.values := fun hj' => hpool (hj' ▸ hj)
    simpa [write, Function.update_of_ne hne] using h.pooled j hj
  · intro j hj
    have hne : j ≠ c.values := by
      rintro rfl
      exact absurd hlt (Nat.not_lt.mpr hj)
    simpa [write, Function.update_of_ne hne] using h.fresh j hj
  · intro id hid'
    have hne : id ≠ c.id := by
      rintro rfl
      exact absurd hid (Nat.not_lt.mpr hid')
    simpa [Function.update_of_ne hne] using h.calls id hid'
  · intro c' hc'
    obtain ⟨hun, hat⟩ := h.queued c' hc'
    obtain ⟨t', st', hcl, -⟩ := hat
    obtain ⟨hv, hi⟩ := hother t' c' st' hcl fun hcc => hcq (hcc ▸ hc')
    refine ⟨(Agree.unhandled (s := s) ?_).mpr hun, (h.queued c' hc').2⟩
    exact ⟨Function.update_of_ne hv _ _, rfl, Function.update_of_ne hi _ _,
      Function.update_of_ne hi _ _⟩
  · intro x hx
    cases hx
    exact ⟨⟨out, hend, by simp, by simp, by simp [write]⟩, ⟨t, st, hc, hst⟩, hm⟩
  · intro id r' out' hres
    obtain ⟨ha, hp⟩ := h.results id r' out' hres
    have hne : id ≠ c.id := by
      rintro rfl
      rw [hprod] at hp
      cases hp
    exact ⟨by simpa [Function.update_of_ne hne] using ha,
      by simpa [Function.update_of_ne hne] using hp⟩
  · simp [h.lateWrite]

/-! ## Runs -/

/-- **Every step keeps the invariant**, an early `resume` apart. -/
theorem Inv.step {a : Act T} (h : Inv s) (hok : s.NoEarlyResume a) (hs : Step s a s') :
    Inv s' := by
  cases hs with
  | obtainPooled hc hpool =>
    have hnodup := h.nodup
    rw [hpool, List.nodup_cons] at hnodup
    obtain ⟨hlt, hval⟩ := h.pooled _ (by rw [hpool]; exact List.mem_cons_self)
    refine h.obtain hc hlt (Nat.le_refl _) (fun j hj => by simp [hpool, hj]) hnodup.2 hnodup.1
      hval fun t c st hc' hv => ?_
    exact (h.inUse t c st hc').2.1 (by rw [hpool, hv]; exact List.mem_cons_self)
  | @obtainNew _ r hc hpool =>
    have := h.obtain (r := r) hc (Nat.lt_succ_self s.fresh) (Nat.le_succ _) (fun j hj => hj) h.nodup
      (by simp [hpool]) (h.fresh _ (Nat.le_refl _)) fun t c st hc' hv =>
        absurd (h.inUse t c st hc').1 (by omega)
    exact this
  | prepare hc => exact h.prepare hc
  | enter hc _ => exact h.enter hc
  | send hc => exact h.send hc
  | wait hc => exact h.wait hc
  | wakeSpuriously hc => exact h.wakeSpuriously hc
  | resume hc hm => exact h.resume hc hm hok
  | read hc => exact h.read hc
  | clear hc => exact h.clear hc
  | release hc => exact h.release hc
  | take _ hq => exact h.take hq
  | enterHandler hh hm => exact h.enterHandler hh hm
  | process hh hr hend hlate => exact h.process hh hr hend hlate
  | processThrown hh hr _ =>
    rw [(h.handled _ hh).1.2, Request.arguments_prepare] at hr
    cases hr
  | notifyOne hh hc hv => exact h.notifyOne hh hc hv
  | notifyNone hh _ => exact h.notifyNone hh
  | leaveHandler hh => exact h.leaveHandler hh

/-- **Calls through the looper are isolated** in every run in which no
thread that woke up spuriously goes on before its message was handled. -/
theorem isolated_of_reached (h : Reached Step NoEarlyResume (· = init) s) : Isolated s :=
  (h.inv (I := Inv) (by rintro s rfl; exact .init) fun _ _ _ hI hok hs => hI.step hok hs).isolated

omit [DecidableEq T] in
/-- A write for a call in progress is not late. -/
theorem late_iff (t : T) (hc : s.clients t = some (c, st)) : false = true ↔ ¬ s.InCall c :=
  ⟨fun h => (by cases h), fun h => absurd ⟨t, st, hc⟩ h⟩

/-- Two threads call at once, and the one that wakes up spuriously waits for
its message. -/
theorem isolated_twoCalls : ∃ s : LooperState ℕ,
    s.results 0 = some (.read none 5, .ok (.int 3)) ∧
      s.results 1 = some (.seek 7, .ok (.long 7)) ∧ Isolated s := by
  have h : Reached Step NoEarlyResume (· = init) (init : LooperState ℕ) := .start rfl
  have h := h.next (.obtainNew (t := 0) (r := .read none 5) rfl rfl) trivial
  have h := h.next (.obtainNew (t := 1) (r := .seek 7) rfl rfl) trivial
  have h := h.next (.prepare (t := 1) rfl) trivial
  have h := h.next (.prepare (t := 0) rfl) trivial
  have h := h.next (.enter (t := 0) rfl rfl) trivial
  have h := h.next (.enter (t := 1) rfl rfl) trivial
  have h := h.next (.send (t := 0) rfl) trivial
  have h := h.next (.send (t := 1) rfl) trivial
  have h := h.next (.wait (t := 1) rfl) trivial
  have h := h.next (.wakeSpuriously (t := 1) rfl) trivial
  have h := h.next (.wait (t := 0) rfl) trivial
  -- The message of thread 0.
  have h := h.next (.take rfl rfl) trivial
  have h := h.next (.enterHandler rfl rfl) trivial
  have hend : Request.CanEnd (.read none 5) (.ok (.int 3)) := ⟨3, rfl⟩
  have h := h.next (.process rfl rfl hend (late_iff 0 rfl)) trivial
  have h := h.next (.notifyOne (t := 0) rfl rfl rfl) trivial
  have h := h.next (.leaveHandler rfl) trivial
  -- The message of thread 1, which is awake and nobody notifies.
  have h := h.next (.take rfl rfl) trivial
  have h := h.next (.enterHandler rfl rfl) trivial
  have h := h.next (.resume (t := 0) rfl rfl) (fun c hc => by cases hc)
  have hend : Request.CanEnd (.seek 7) (.ok (.long 7)) := ⟨7, rfl⟩
  have h := h.next (.process rfl rfl hend (late_iff 1 rfl)) trivial
  have h := h.next (.notifyNone rfl fun t c hc => by rcases t with _ | _ | t <;> cases hc) trivial
  have h := h.next (.leaveHandler rfl) trivial
  have h := h.next (.resume (t := 1) rfl rfl) (fun c hc => by cases hc; exact Option.some_ne_none _)
  have h := h.next (.read (t := 0) rfl) trivial
  have h := h.next (.read (t := 1) rfl) trivial
  have h := h.next (.clear (t := 0) rfl) trivial
  have h := h.next (.release (t := 0) rfl) trivial
  have h := h.next (.clear (t := 1) rfl) trivial
  have h := h.next (.release (t := 1) rfl) trivial
  exact ⟨_, rfl, rfl, isolated_of_reached h⟩

/-- **A spurious wake-up breaks the isolation.** The thread takes its own
argument for the result. -/
theorem not_isolated_spurious :
    ∃ s : LooperState ℕ, Reached Step (fun _ _ => True) (· = init) s ∧ ¬ Isolated s := by
  have h : Reached Step (fun _ _ => True) (· = init) (init : LooperState ℕ) := .start rfl
  have h := h.next (.obtainNew (t := 0) (r := .read none 5) rfl rfl) trivial
  have h := h.next (.prepare (t := 0) rfl) trivial
  have h := h.next (.enter (t := 0) rfl rfl) trivial
  have h := h.next (.send (t := 0) rfl) trivial
  have h := h.next (.wait (t := 0) rfl) trivial
  have h := h.next (.wakeSpuriously (t := 0) rfl) trivial
  have h := h.next (.resume (t := 0) rfl rfl) trivial
  have h := h.next (.read (t := 0) rfl) trivial
  have h := h.next (.clear (t := 0) rfl) trivial
  have h := h.next (.release (t := 0) rfl) trivial
  refine ⟨_, h, fun hiso => ?_⟩
  obtain ⟨-, hprod⟩ := hiso.outcome 0 (.read none 5) (.ok (.int 5)) rfl
  cases hprod

end LooperState

end SambaProvider

import Mathlib.Logic.Basic

/-!
# Runs of a state machine

Two forms of the same induction. A deterministic machine is a step
function, and a run is a list of actions; a nondeterministic one is a
step relation, and a run is a derivation. In both a *guard* says which
steps are allowed, and an invariant the guarded steps preserve holds in
every state a guarded run reaches.
-/

namespace SambaProvider

namespace Lib

variable {σ α : Type*}

/-! ## Deterministic machines -/

section Function

variable {step : σ → α → σ} {P I : σ → Prop} {ok : σ → α → Prop}

/-- `P` holds in every state of the run of the actions from `s`, the
first and the last included. -/
def EveryState (step : σ → α → σ) (P : σ → Prop) : σ → List α → Prop
  | s, [] => P s
  | s, a :: as => P s ∧ EveryState step P (step s a) as

/-- Every step of the run is allowed by the guard in the state it is
taken from. -/
def EveryStep (step : σ → α → σ) (ok : σ → α → Prop) : σ → List α → Prop
  | _, [] => True
  | s, a :: as => ok s a ∧ EveryStep step ok (step s a) as

/-- **A guarded run keeps the invariant**, so it satisfies whatever the
invariant implies. -/
theorem everyState_of_everyStep (hstep : ∀ s a, I s → ok s a → I (step s a))
    (hP : ∀ s, I s → P s) {s : σ} {as : List α} (hI : I s)
    (h : EveryStep step ok s as) : EveryState step P s as := by
  induction as generalizing s with
  | nil => exact hP s hI
  | cons a as ih => exact ⟨hP s hI, ih (hstep s a hI h.1) h.2⟩

theorem EveryState.head {s : σ} {as : List α} (h : EveryState step P s as) : P s := by
  cases as with
  | nil => exact h
  | cons a as => exact h.1

theorem EveryState.last {s : σ} {as : List α} (h : EveryState step P s as) :
    P (as.foldl step s) := by
  induction as generalizing s with
  | nil => exact h
  | cons a as ih => exact ih h.2

/-- **The guard is exact**: where a step the guard forbids leads out of
`P`, the runs that stay in `P` are the guarded ones. -/
theorem everyState_iff_everyStep (hstep : ∀ s a, I s → ok s a → I (step s a))
    (hP : ∀ s, I s → P s) (hok : ∀ s a, I s → P (step s a) → ok s a)
    {s : σ} {as : List α} (hI : I s) :
    EveryState step P s as ↔ EveryStep step ok s as := by
  refine ⟨fun h => ?_, everyState_of_everyStep hstep hP hI⟩
  induction as generalizing s with
  | nil => exact trivial
  | cons a as ih =>
    have ha : ok s a := hok s a hI h.2.head
    exact ⟨ha, ih (hstep s a hI ha) h.2⟩

end Function

/-! ## Nondeterministic machines -/

section Relation

variable {step : σ → α → σ → Prop} {init : σ → Prop} {I : σ → Prop} {ok : σ → α → Prop}

/-- The states reached from an initial one by steps the guard allows. -/
inductive Reached (step : σ → α → σ → Prop) (ok : σ → α → Prop) (init : σ → Prop) : σ → Prop
  /-- The run that has not started. -/
  | start {s : σ} : init s → Reached step ok init s
  /-- One more step of a guarded run. -/
  | next {s s' : σ} {a : α} :
      Reached step ok init s → step s a s' → ok s a → Reached step ok init s'

/-- **The invariant rule.** What holds initially and is kept by every
guarded step holds in every reached state. -/
theorem Reached.inv (hinit : ∀ s, init s → I s)
    (hstep : ∀ s a s', I s → ok s a → step s a s' → I s')
    {s : σ} (h : Reached step ok init s) : I s := by
  induction h with
  | start h => exact hinit _ h
  | next _ hs hok ih => exact hstep _ _ _ ih hok hs

section Partial

variable {step : σ → α → Option σ} {s s' : σ} {as : List α}

/-- Where the steps are those of a partial function, a list of actions that
pass a check is a run, guarded by what the check implies. -/
theorem Reached.checked (check : σ → α → Bool) (hcheck : ∀ s a, check s a = true → ok s a)
    (h : Reached (fun s a s' => step s a = some s') ok init s)
    (hrun : as.foldlM (fun s a => if check s a then step s a else none) s = some s') :
    Reached (fun s a s' => step s a = some s') ok init s' := by
  induction as generalizing s with
  | nil =>
    cases hrun
    exact h
  | cons a as ih =>
    obtain ⟨u, hu, hrun⟩ := Option.bind_eq_some_iff.mp hrun
    simp only at hu
    split at hu
    · rename_i ha
      exact ih (h.next hu (hcheck s a ha)) hrun
    · cases hu

/-- And any list of actions is a run without a guard. -/
theorem Reached.foldlM (h : Reached (fun s a s' => step s a = some s') (fun _ _ => True) init s)
    (hrun : as.foldlM step s = some s') :
    Reached (fun s a s' => step s a = some s') (fun _ _ => True) init s' :=
  h.checked (fun _ _ => true) (fun _ _ _ => trivial) hrun

end Partial

end Relation

end Lib

end SambaProvider

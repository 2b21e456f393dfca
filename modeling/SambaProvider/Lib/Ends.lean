import Mathlib.Data.List.Basic
import SambaProvider.Lib.Prog

/-!
# What a program can do

A handler that leaves some effects open: `step e s a t` says that the
effect `e` may answer `a` in `s` and leave `t`. `Ends step p s r t` is
then the set of all ways in which a program can end. One rule for each
control structure says how its end comes about from those of its parts;
a deterministic handler is the special case that has exactly one way.
-/

namespace SambaProvider

namespace Lib

namespace Prog

variable {E : Type} {R : E → Type} {ε α β γ σ : Type}

/-- `p`, started in `s`, can end as `r` in `t`. -/
def Ends (step : (e : E) → σ → R e → σ → Prop) :
    Prog E R ε α → σ → Result ε α → σ → Prop
  | .pure a, s, r, t => r = .returned a ∧ t = s
  | .throw x, s, r, t => r = .threw x ∧ t = s
  | .outOfFuel, s, r, t => r = .outOfFuel ∧ t = s
  | .act e k, s, r, t => ∃ a s', step e s a s' ∧ (k a).Ends step s' r t

/-- How the rest of a sequence ends, given how its first part did. -/
def Follows (step : (e : E) → σ → R e → σ → Prop) (f : α → Prog E R ε β) :
    Result ε α → σ → Result ε β → σ → Prop
  | .returned a, s, r, t => (f a).Ends step s r t
  | .threw x, s, r, t => r = .threw x ∧ t = s
  | .outOfFuel, s, r, t => r = .outOfFuel ∧ t = s

variable {step : (e : E) → σ → R e → σ → Prop} {p : Prog E R ε α}
  {f : α → Prog E R ε β} {s t : σ} {r : Result ε α}

@[simp] theorem ends_pure {a : α} :
    (Pure.pure a : Prog E R ε α).Ends step s r t ↔ r = .returned a ∧ t = s := Iff.rfl

@[simp] theorem ends_ctorPure {a : α} :
    (Prog.pure a : Prog E R ε α).Ends step s r t ↔ r = .returned a ∧ t = s := Iff.rfl

@[simp] theorem ends_throw {x : ε} :
    (Prog.throw x : Prog E R ε α).Ends step s r t ↔ r = .threw x ∧ t = s := Iff.rfl

@[simp] theorem ends_outOfFuel :
    (Prog.outOfFuel : Prog E R ε α).Ends step s r t ↔ r = .outOfFuel ∧ t = s := Iff.rfl

@[simp] theorem follows_returned {a : α} {r : Result ε β} :
    Follows step f (.returned a) s r t ↔ (f a).Ends step s r t := Iff.rfl

@[simp] theorem follows_threw {x : ε} {r : Result ε β} :
    Follows step f (.threw x) s r t ↔ r = .threw x ∧ t = s := Iff.rfl

@[simp] theorem follows_outOfFuel {r : Result ε β} :
    Follows step f .outOfFuel s r t ↔ r = .outOfFuel ∧ t = s := Iff.rfl

/-! ## Sequencing

Where a program starts is found by reassociating; the rules are for
`simp`, which brings the first effect of a sequence to the front. -/

@[simp] theorem pure_bind {a : α} :
    ((Pure.pure a : Prog E R ε α) >>= f) = f a := rfl

@[simp] theorem ctorPure_bind {a : α} :
    ((Prog.pure a : Prog E R ε α) >>= f) = f a := rfl

@[simp] theorem throw_bind {x : ε} :
    ((Prog.throw x : Prog E R ε α) >>= f) = Prog.throw x := rfl

@[simp] theorem act_bind {e : E} {k : R e → Prog E R ε α} :
    (Prog.act e k >>= f) = Prog.act e fun a => k a >>= f := rfl

@[simp] theorem bind_assoc {g : β → Prog E R ε γ} :
    (p >>= f >>= g) = p >>= fun a => f a >>= g := by
  change (p.bind f).bind g = p.bind fun a => (f a).bind g
  induction p with
  | pure a => rfl
  | throw x => rfl
  | outOfFuel => rfl
  | act e k ih => exact congrArg (Prog.act e) (funext ih)

/-! ## The control structures -/

/-- **A sequence ends as its second part does**, from where the first one
has returned; where the first one does not return, neither does the
sequence. -/
theorem ends_bind {r : Result ε β} :
    (p >>= f).Ends step s r t ↔ ∃ r' s', p.Ends step s r' s' ∧ Follows step f r' s' r t := by
  change (p.bind f).Ends step s r t ↔ _
  induction p generalizing s with
  | pure a =>
    constructor
    · intro h
      exact ⟨.returned a, s, ⟨rfl, rfl⟩, h⟩
    · rintro ⟨_, _, ⟨rfl, rfl⟩, h⟩
      exact h
  | throw x =>
    constructor
    · intro h
      exact ⟨.threw x, s, ⟨rfl, rfl⟩, h⟩
    · rintro ⟨_, _, ⟨rfl, rfl⟩, h⟩
      exact h
  | outOfFuel =>
    constructor
    · intro h
      exact ⟨.outOfFuel, s, ⟨rfl, rfl⟩, h⟩
    · rintro ⟨_, _, ⟨rfl, rfl⟩, h⟩
      exact h
  | act e k ih =>
    constructor
    · rintro ⟨a, s', hstep, h⟩
      obtain ⟨r', s'', hk, hf⟩ := (ih a).mp h
      exact ⟨r', s'', ⟨a, s', hstep, hk⟩, hf⟩
    · rintro ⟨r', s'', ⟨a, s', hstep, hk⟩, hf⟩
      exact ⟨a, s', hstep, (ih a).mpr ⟨r', s'', hk, hf⟩⟩

/-- The result of an attempt. -/
def attempted : Result ε α → Result ε (Except ε α)
  | .returned a => .returned (.ok a)
  | .threw x => .returned (.error x)
  | .outOfFuel => .outOfFuel

/-- **An attempt ends where the program does**, and returns how. -/
theorem ends_attempt {r : Result ε (Except ε α)} :
    p.attempt.Ends step s r t ↔ ∃ r', p.Ends step s r' t ∧ r = attempted r' := by
  induction p generalizing s with
  | pure a =>
    constructor
    · rintro ⟨rfl, rfl⟩
      exact ⟨.returned a, ⟨rfl, rfl⟩, rfl⟩
    · rintro ⟨_, ⟨rfl, rfl⟩, rfl⟩
      exact ⟨rfl, rfl⟩
  | throw x =>
    constructor
    · rintro ⟨rfl, rfl⟩
      exact ⟨.threw x, ⟨rfl, rfl⟩, rfl⟩
    · rintro ⟨_, ⟨rfl, rfl⟩, rfl⟩
      exact ⟨rfl, rfl⟩
  | outOfFuel =>
    constructor
    · rintro ⟨rfl, rfl⟩
      exact ⟨.outOfFuel, ⟨rfl, rfl⟩, rfl⟩
    · rintro ⟨_, ⟨rfl, rfl⟩, rfl⟩
      exact ⟨rfl, rfl⟩
  | act e k ih =>
    constructor
    · rintro ⟨a, s', hstep, h⟩
      obtain ⟨r', hk, hr⟩ := (ih a).mp h
      exact ⟨r', ⟨a, s', hstep, hk⟩, hr⟩
    · rintro ⟨r', ⟨a, s', hstep, hk⟩, hr⟩
      exact ⟨a, s', hstep, (ih a).mpr ⟨r', hk, hr⟩⟩

@[simp] theorem ends_ofExcept_ok {a : α} :
    (ofExcept (.ok a) : Prog E R ε α).Ends step s r t ↔ r = .returned a ∧ t = s := Iff.rfl

@[simp] theorem ends_ofExcept_error {x : ε} :
    (ofExcept (.error x) : Prog E R ε α).Ends step s r t ↔ r = .threw x ∧ t = s := Iff.rfl

/-- The end of a `catch` block, given that of the block it guards. -/
def Caught (step : (e : E) → σ → R e → σ → Prop) (isC : ε → Bool)
    (handler : ε → Prog E R ε α) : Result ε α → σ → Result ε α → σ → Prop
  | .returned a, s, r, t => r = .returned a ∧ t = s
  | .threw x, s, r, t => if isC x then (handler x).Ends step s r t else r = .threw x ∧ t = s
  | .outOfFuel, s, r, t => r = .outOfFuel ∧ t = s

/-- **A `catch` block** takes over where the block it guards has thrown
an exception of its class. -/
theorem ends_catching {isC : ε → Bool} {handler : ε → Prog E R ε α} :
    (p.catching isC handler).Ends step s r t ↔
      ∃ r' s', p.Ends step s r' s' ∧ Caught step isC handler r' s' r t := by
  rw [catching, ends_bind]
  simp only [ends_attempt]
  constructor
  · rintro ⟨_, s', ⟨r', hp, rfl⟩, hf⟩
    refine ⟨r', s', hp, ?_⟩
    rcases r' with a | x | _
    · exact hf
    · change Ends step (if isC x then handler x else .throw x) s' r t at hf
      change if isC x then _ else _
      split at hf
      · rwa [if_pos ‹_›]
      · rwa [if_neg ‹_›]
    · exact hf
  · rintro ⟨r', s', hp, hc⟩
    refine ⟨attempted r', s', ⟨r', hp, rfl⟩, ?_⟩
    rcases r' with a | x | _
    · exact hc
    · change Ends step (if isC x then handler x else .throw x) s' r t
      change if isC x then _ else _ at hc
      split at hc
      · rwa [if_pos ‹_›]
      · rwa [if_neg ‹_›]
    · exact hc

/-- **A resource is closed however its body ends**, and the exception of
the body is the one that goes on. -/
theorem ends_withResource {close : Prog E R ε Unit} :
    (withResource close p).Ends step s r t ↔
      ∃ r' s', p.Ends step s r' s' ∧
        ((r' = .outOfFuel ∧ r = .outOfFuel ∧ t = s') ∨
          (r' ≠ .outOfFuel ∧ ∃ c, close.Ends step s' c t ∧ r = closed r' c)) := by
  rw [withResource, ends_bind]
  simp only [ends_attempt]
  constructor
  · rintro ⟨_, s', ⟨r', hp, rfl⟩, hf⟩
    refine ⟨r', s', hp, ?_⟩
    rcases r' with a | x | _
    · obtain ⟨c, t', hc, hrest⟩ := ends_bind.mp hf
      refine .inr ⟨by simp, c, ?_⟩
      rcases c with _ | y | _
      all_goals
        obtain ⟨rfl, rfl⟩ := hrest
        exact ⟨hc, rfl⟩
    · obtain ⟨c, t', hc, hrest⟩ := ends_bind.mp hf
      obtain ⟨c', hc', rfl⟩ := ends_attempt.mp hc
      refine .inr ⟨by simp, c', ?_⟩
      rcases c' with _ | y | _
      all_goals
        obtain ⟨rfl, rfl⟩ := hrest
        exact ⟨hc', rfl⟩
    · exact .inl ⟨rfl, hf⟩
  · rintro ⟨r', s', hp, h⟩
    refine ⟨attempted r', s', ⟨r', hp, rfl⟩, ?_⟩
    rcases h with ⟨rfl, rfl, rfl⟩ | ⟨hne, c, hc, rfl⟩
    · exact ⟨rfl, rfl⟩
    · rcases r' with a | x | _
      · refine ends_bind.mpr ⟨c, t, hc, ?_⟩
        rcases c with _ | y | _ <;> exact ⟨rfl, rfl⟩
      · refine ends_bind.mpr ⟨attempted c, t, ends_attempt.mpr ⟨c, hc, rfl⟩, ?_⟩
        rcases c with _ | y | _ <;> exact ⟨rfl, rfl⟩
      · exact absurd rfl hne

/-! ## Handlers -/

/-- **A deterministic handler** lets a program end as it runs. -/
theorem ends_run {exec : (e : E) → σ → R e × σ}
    (hexec : ∀ e s, step e s (exec e s).1 (exec e s).2) :
    p.Ends step s (p.run exec s).1 (p.run exec s).2 := by
  induction p generalizing s with
  | pure a => exact ⟨rfl, rfl⟩
  | throw x => exact ⟨rfl, rfl⟩
  | outOfFuel => exact ⟨rfl, rfl⟩
  | act e k ih => exact ⟨_, _, hexec e s, ih _⟩

end Prog

end Lib

end SambaProvider

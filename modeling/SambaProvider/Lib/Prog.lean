import Mathlib.Logic.Basic

/-!
# Programs with effects and exceptions

A program is the tree of the effects it performs: it returns, throws, or
performs an effect and goes on with the answer. What an effect does is
left open, so one program can be run against any handler, run with the
effects of another program between its own, or read for the effects it
can perform at all. Loops carry a bound, and `outOfFuel` is the program
whose bound was too small; a result that matters says that it is not
reached.

The control structures are Java's: `catching` is a `catch` block with
its class of exceptions, and `withResource` closes its resource before
the exception of the body goes on.
-/

namespace SambaProvider

namespace Lib

/-- How a program ends. -/
inductive Result (ε α : Type)
  | returned (a : α)
  | threw (x : ε)
  | outOfFuel
deriving DecidableEq, Repr

/-- A program over the effects `E`, where `R e` is what the effect `e`
answers. -/
inductive Prog (E : Type) (R : E → Type) (ε α : Type) : Type
  | pure (a : α)
  | throw (x : ε)
  | outOfFuel
  | act (e : E) (k : R e → Prog E R ε α)

namespace Prog

variable {E : Type} {R : E → Type} {ε α β σ : Type}

/-- Sequencing: `f` continues with what the program returned. -/
def bind : Prog E R ε α → (α → Prog E R ε β) → Prog E R ε β
  | .pure a, f => f a
  | .throw x, _ => .throw x
  | .outOfFuel, _ => .outOfFuel
  | .act e k, f => .act e fun r => (k r).bind f

instance : Monad (Prog E R ε) where
  pure := .pure
  bind := .bind

/-- The exception of the program, if it throws, as a value. -/
def attempt : Prog E R ε α → Prog E R ε (Except ε α)
  | .pure a => .pure (.ok a)
  | .throw x => .pure (.error x)
  | .outOfFuel => .outOfFuel
  | .act e k => .act e fun r => (k r).attempt

/-- The value of a call that answers with a value or an exception. -/
def ofExcept : Except ε α → Prog E R ε α
  | .ok a => .pure a
  | .error x => .throw x

/-- `try { p } catch (C x) { handler }`, for the exceptions `isC`
describes. -/
def catching (p : Prog E R ε α) (isC : ε → Bool) (handler : ε → Prog E R ε α) :
    Prog E R ε α := do
  match ← p.attempt with
  | .ok a => return a
  | .error x => if isC x then handler x else .throw x

/-- `try (resource) { body }`: the resource is closed when the body is
done; what the close throws is dropped if the body has thrown. -/
def withResource (close : Prog E R ε Unit) (body : Prog E R ε α) : Prog E R ε α := do
  match ← body.attempt with
  | .ok a =>
    close
    return a
  | .error x =>
    let _ ← close.attempt
    .throw x

/-- How a body and the close of its resource end together. -/
def closed : Result ε α → Result ε Unit → Result ε α
  | .returned a, .returned _ => .returned a
  | .returned _, .threw x => .threw x
  | .threw x, .returned _ | .threw x, .threw _ => .threw x
  | .outOfFuel, _ | _, .outOfFuel => .outOfFuel

/-! ## Running a program

`exec` says what an effect answers and what it does to the state. -/

/-- The run of a program from a state: how it ends and in which state. -/
def run (exec : (e : E) → σ → R e × σ) : Prog E R ε α → σ → Result ε α × σ
  | .pure a, s => (.returned a, s)
  | .throw x, s => (.threw x, s)
  | .outOfFuel, s => (.outOfFuel, s)
  | .act e k, s => (k (exec e s).1).run exec (exec e s).2

variable {exec : (e : E) → σ → R e × σ} {p : Prog E R ε α} {s : σ}

@[simp] theorem run_pure {a : α} :
    (Pure.pure a : Prog E R ε α).run exec s = (.returned a, s) := rfl

@[simp] theorem run_throw {x : ε} :
    (Prog.throw x : Prog E R ε α).run exec s = (.threw x, s) := rfl

@[simp] theorem run_outOfFuel :
    (Prog.outOfFuel : Prog E R ε α).run exec s = (.outOfFuel, s) := rfl

@[simp] theorem run_act {e : E} {k : R e → Prog E R ε α} :
    (Prog.act e k).run exec s = (k (exec e s).1).run exec (exec e s).2 := rfl

/-- What the rest of a sequence makes of the way its first part ended. -/
def continueWith (exec : (e : E) → σ → R e × σ) (f : α → Prog E R ε β) :
    Result ε α × σ → Result ε β × σ
  | (.returned a, s) => (f a).run exec s
  | (.threw x, s) => (.threw x, s)
  | (.outOfFuel, s) => (.outOfFuel, s)

/-- **A sequence runs its parts one after the other.** -/
theorem run_bind {f : α → Prog E R ε β} :
    (p >>= f).run exec s = continueWith exec f (p.run exec s) := by
  change (p.bind f).run exec s = _
  induction p generalizing s with
  | pure a => rfl
  | throw x => rfl
  | outOfFuel => rfl
  | act e k ih => exact ih _

/-- **An attempt runs as the program does**, and returns however it
ended. -/
theorem run_attempt :
    p.attempt.run exec s = match p.run exec s with
      | (.returned a, s') => (.returned (.ok a), s')
      | (.threw x, s') => (.returned (.error x), s')
      | (.outOfFuel, s') => (.outOfFuel, s') := by
  induction p generalizing s with
  | pure a => rfl
  | throw x => rfl
  | outOfFuel => rfl
  | act e k ih => exact ih _

/-- **A `catch` block** runs from the state in which the exception was
thrown, and only for its class. -/
theorem run_catching {isC : ε → Bool} {handler : ε → Prog E R ε α} :
    (p.catching isC handler).run exec s = match p.run exec s with
      | (.returned a, s') => (.returned a, s')
      | (.threw x, s') => if isC x then (handler x).run exec s' else (.threw x, s')
      | (.outOfFuel, s') => (.outOfFuel, s') := by
  rw [catching, run_bind, run_attempt]
  rcases p.run exec s with ⟨_ | x | _, s'⟩
  · rfl
  · simp only [continueWith]
    split <;> rfl
  · rfl

/-- **A resource is closed on both ways out of the body**, and the
exception of the body is the one that goes on. -/
theorem run_withResource {close : Prog E R ε Unit} :
    (withResource close p).run exec s = match p.run exec s with
      | (.returned a, s') =>
        match close.run exec s' with
        | (.returned _, s'') => (.returned a, s'')
        | (.threw x, s'') => (.threw x, s'')
        | (.outOfFuel, s'') => (.outOfFuel, s'')
      | (.threw x, s') =>
        match close.run exec s' with
        | (.returned _, s'') => (.threw x, s'')
        | (.threw _, s'') => (.threw x, s'')
        | (.outOfFuel, s'') => (.outOfFuel, s'')
      | (.outOfFuel, s') => (.outOfFuel, s') := by
  rw [withResource, run_bind, run_attempt]
  rcases p.run exec s with ⟨_ | x | _, s'⟩
  · simp only [continueWith, run_bind]
    rcases close.run exec s' with ⟨_ | y | _, s''⟩ <;> rfl
  · simp only [continueWith, run_bind, run_attempt]
    rcases close.run exec s' with ⟨_ | y | _, s''⟩ <;> rfl
  · rfl

end Prog

end Lib

end SambaProvider

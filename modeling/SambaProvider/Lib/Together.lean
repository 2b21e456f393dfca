import SambaProvider.Lib.Prog

/-!
# Two programs on one state

Two programs take turns, an effect at a time, and each sees what the
other has done in between. What one may do to the state is its
*guarantee*, and what it puts up with is its *rely*: if the guarantee of
each is what the other relies on, both can be looked at alone.

`Safe` is the judgement on one program: from the state on, whatever the
other does within the rely, every effect of the program stays within the
guarantee, and where it ends, `Q` holds of how it ends. There is a rule
for each control structure, and `Together.safe` puts two programs
together.
-/

namespace SambaProvider

namespace Lib

namespace Prog

variable {E : Type} {R : E → Type} {ε α β σ : Type}

/-- How a program has ended, if it has. -/
def result : Prog E R ε α → Option (Result ε α)
  | .pure a => some (.returned a)
  | .throw x => some (.threw x)
  | .outOfFuel => some .outOfFuel
  | .act _ _ => none

/-- `p` and `q` take turns, from a state on, until `p'` and `q'` are left
of them. -/
inductive Together (stepL stepR : (e : E) → σ → R e → σ → Prop) :
    Prog E R ε α → Prog E R ε β → σ → Prog E R ε α → Prog E R ε β → σ → Prop
  | refl {p : Prog E R ε α} {q : Prog E R ε β} {s : σ} : Together stepL stepR p q s p q s
  | left {e : E} {k : R e → Prog E R ε α} {q : Prog E R ε β} {s u t : σ} {a : R e}
    {p' : Prog E R ε α} {q' : Prog E R ε β} : stepL e s a u →
    Together stepL stepR (k a) q u p' q' t → Together stepL stepR (.act e k) q s p' q' t
  | right {e : E} {p : Prog E R ε α} {k : R e → Prog E R ε β} {s u t : σ} {a : R e}
    {p' : Prog E R ε α} {q' : Prog E R ε β} : stepR e s a u →
    Together stepL stepR p (k a) u p' q' t → Together stepL stepR p (.act e k) s p' q' t

/-- The program, from a state on, with another one that does what `rely`
says. -/
def Safe (rely guar : σ → σ → Prop) (step : (e : E) → σ → R e → σ → Prop)
    (Q : Result ε α → σ → Prop) : Prog E R ε α → σ → Prop
  | .pure a, s => ∀ t, rely s t → Q (.returned a) t
  | .throw x, s => ∀ t, rely s t → Q (.threw x) t
  | .outOfFuel, s => ∀ t, rely s t → Q .outOfFuel t
  | .act e k, s => ∀ t, rely s t → ∀ a u, step e t a u →
    guar t u ∧ (k a).Safe rely guar step Q u

/-- What a program relies on goes on and on. -/
structure IsRely (rely : σ → σ → Prop) : Prop where
  refl : ∀ s, rely s s
  trans : ∀ {s t u}, rely s t → rely t u → rely s u

variable {rely guar : σ → σ → Prop} {step : (e : E) → σ → R e → σ → Prop}
  {P : Result ε α → σ → Prop} {Q : Result ε β → σ → Prop} {p : Prog E R ε α}
  {f : α → Prog E R ε β} {s t : σ}

/-! ## The rules -/

theorem Safe.of_rely (hrely : IsRely rely) (hst : rely s t)
    (h : p.Safe rely guar step P s) : p.Safe rely guar step P t := by
  cases p with
  | pure a => exact fun u hu => h u (hrely.trans hst hu)
  | throw x => exact fun u hu => h u (hrely.trans hst hu)
  | outOfFuel => exact fun u hu => h u (hrely.trans hst hu)
  | act e k => exact fun u hu => h u (hrely.trans hst hu)

theorem Safe.mono {P' : Result ε α → σ → Prop} (hP : ∀ r t, P r t → P' r t)
    (h : p.Safe rely guar step P s) : p.Safe rely guar step P' s := by
  induction p generalizing s with
  | pure a => exact fun t ht => hP _ _ (h t ht)
  | throw x => exact fun t ht => hP _ _ (h t ht)
  | outOfFuel => exact fun t ht => hP _ _ (h t ht)
  | act e k ih =>
    intro t ht a u hstep
    obtain ⟨hguar, hk⟩ := h t ht a u hstep
    exact ⟨hguar, ih a hk⟩

/-- **Sequencing.** -/
theorem Safe.bind (hrely : IsRely rely) (hp : p.Safe rely guar step P s)
    (hf : ∀ a t, P (.returned a) t → (f a).Safe rely guar step Q t)
    (hthrew : ∀ x t, P (.threw x) t → Q (.threw x) t)
    (hfuel : ∀ t, P .outOfFuel t → Q .outOfFuel t) :
    (p >>= f).Safe rely guar step Q s := by
  change (p.bind f).Safe rely guar step Q s
  induction p generalizing s with
  | pure a => exact hf a s (hp s (hrely.refl s))
  | throw x => exact fun t ht => hthrew x t (hp t ht)
  | outOfFuel => exact fun t ht => hfuel t (hp t ht)
  | act e k ih =>
    intro t ht a u hstep
    obtain ⟨hguar, hk⟩ := hp t ht a u hstep
    exact ⟨hguar, ih a hk⟩

/-- **An attempt** returns how the program has ended. -/
theorem Safe.attempt {Q : Result ε (Except ε α) → σ → Prop}
    (hp : p.Safe rely guar step P s) (hok : ∀ a t, P (.returned a) t → Q (.returned (.ok a)) t)
    (herror : ∀ x t, P (.threw x) t → Q (.returned (.error x)) t)
    (hfuel : ∀ t, P .outOfFuel t → Q .outOfFuel t) :
    p.attempt.Safe rely guar step Q s := by
  induction p generalizing s with
  | pure a => exact fun t ht => hok a t (hp t ht)
  | throw x => exact fun t ht => herror x t (hp t ht)
  | outOfFuel => exact fun t ht => hfuel t (hp t ht)
  | act e k ih =>
    intro t ht a u hstep
    obtain ⟨hguar, hk⟩ := hp t ht a u hstep
    exact ⟨hguar, ih a hk⟩

/-- How an attempt ends, given how the program does. -/
def Attempted (P : Result ε α → σ → Prop) : Result ε (Except ε α) → σ → Prop
  | .returned (.ok a), t => P (.returned a) t
  | .returned (.error x), t => P (.threw x) t
  | .threw _, _ => True
  | .outOfFuel, t => P .outOfFuel t

/-- An attempt throws nothing. -/
theorem Safe.attempt_bind (hrely : IsRely rely) {f : Except ε α → Prog E R ε β}
    (hp : p.Safe rely guar step P s)
    (hok : ∀ a t, P (.returned a) t → (f (.ok a)).Safe rely guar step Q t)
    (herror : ∀ x t, P (.threw x) t → (f (.error x)).Safe rely guar step Q t)
    (hfuel : ∀ t, P .outOfFuel t → Q .outOfFuel t) :
    (p.attempt >>= f).Safe rely guar step Q s := by
  refine Safe.bind (P := fun r t => Attempted P r t ∧ ∀ x, r ≠ .threw x) hrely
    (hp.attempt (fun _ _ h => ⟨h, nofun⟩) (fun _ _ h => ⟨h, nofun⟩) fun _ h => ⟨h, nofun⟩)
    ?_ ?_ ?_
  · rintro (x | a) t ⟨h, _⟩
    · exact herror x t h
    · exact hok a t h
  · rintro x t ⟨_, hne⟩
    exact absurd rfl (hne x)
  · rintro t ⟨h, _⟩
    exact hfuel t h

/-- **A `catch` block.** -/
theorem Safe.catching (hrely : IsRely rely) {isC : ε → Bool} {handler : ε → Prog E R ε α}
    {P' : Result ε α → σ → Prop} (hp : p.Safe rely guar step P s)
    (hok : ∀ a t u, P (.returned a) t → rely t u → P' (.returned a) u)
    (hcaught : ∀ x t, P (.threw x) t → isC x = true →
      (handler x).Safe rely guar step P' t)
    (hthrew : ∀ x t u, P (.threw x) t → isC x = false → rely t u → P' (.threw x) u)
    (hfuel : ∀ t, P .outOfFuel t → P' .outOfFuel t) :
    (p.catching isC handler).Safe rely guar step P' s := by
  refine hp.attempt_bind hrely (fun a t h u hu => hok a t u h hu) (fun x t h => ?_) hfuel
  change (if isC x then handler x else .throw x).Safe rely guar step P' t
  split
  · rename_i hx
    exact hcaught x t h hx
  · rename_i hx
    exact fun u hu => hthrew x t u h (by simpa using hx) hu

/-- **A resource** is closed on every way out of the body. -/
theorem Safe.withResource (hrely : IsRely rely) {close : Prog E R ε Unit}
    {P' : Result ε α → σ → Prop} (hstable : ∀ r t u, P' r t → rely t u → P' r u)
    (hp : p.Safe rely guar step P s)
    (hclose : ∀ r t, P r t → r ≠ .outOfFuel →
      close.Safe rely guar step (fun c u => P' (closed r c) u) t)
    (hfuel : ∀ t, P .outOfFuel t → P' .outOfFuel t) :
    (Prog.withResource close p).Safe rely guar step P' s := by
  refine hp.attempt_bind hrely (fun a t h => ?_) (fun x t h => ?_) hfuel
  · refine (hclose _ t h nofun).bind hrely (fun _ u hu v hv => ?_) (fun _ _ hu => hu)
      fun _ hu => hu
    exact hstable _ u v hu hv
  · refine (hclose _ t h nofun).attempt_bind hrely (fun _ u hu v hv => ?_)
      (fun _ u hu v hv => ?_) fun _ hu => hu
    · exact hstable _ u v hu hv
    · exact hstable _ u v hu hv

/-! ## Invariants

What the other program keeps, and every effect of this one, however it
goes. -/

section Keeps

/-- The program keeps `I`. -/
def Keeps (rely guar : σ → σ → Prop) (step : (e : E) → σ → R e → σ → Prop) (I : σ → Prop)
    (p : Prog E R ε α) : Prop :=
  ∀ s, I s → p.Safe rely guar step (fun _ t => I t) s

variable {I : σ → Prop}

theorem keeps_pure (hI : ∀ s t, I s → rely s t → I t) {a : α} :
    Keeps rely guar step I (Pure.pure a : Prog E R ε α) :=
  fun s hs t ht => hI s t hs ht

theorem keeps_throw (hI : ∀ s t, I s → rely s t → I t) {x : ε} :
    Keeps rely guar step I (Prog.throw x : Prog E R ε α) :=
  fun s hs t ht => hI s t hs ht

theorem keeps_outOfFuel (hI : ∀ s t, I s → rely s t → I t) :
    Keeps rely guar step I (Prog.outOfFuel : Prog E R ε α) :=
  fun s hs t ht => hI s t hs ht

theorem keeps_bind (hrely : IsRely rely) (hp : Keeps rely guar step I p)
    (hf : ∀ a, Keeps rely guar step I (f a)) : Keeps rely guar step I (p >>= f) :=
  fun s hs => (hp s hs).bind hrely (fun a t ht => hf a t ht) (fun _ _ h => h) fun _ h => h

theorem keeps_attempt (hp : Keeps rely guar step I p) : Keeps rely guar step I p.attempt :=
  fun s hs => (hp s hs).attempt (fun _ _ h => h) (fun _ _ h => h) fun _ h => h

theorem keeps_catching (hrely : IsRely rely) (hI : ∀ s t, I s → rely s t → I t)
    {isC : ε → Bool} {handler : ε → Prog E R ε α} (hp : Keeps rely guar step I p)
    (hh : ∀ x, Keeps rely guar step I (handler x)) :
    Keeps rely guar step I (p.catching isC handler) :=
  fun s hs => (hp s hs).catching hrely (fun _ t u ht hu => hI t u ht hu)
    (fun x t ht _ => hh x t ht) (fun _ t u ht _ hu => hI t u ht hu) fun _ h => h

theorem keeps_withResource (hrely : IsRely rely) (hI : ∀ s t, I s → rely s t → I t)
    {close : Prog E R ε Unit} (hclose : Keeps rely guar step I close)
    (hp : Keeps rely guar step I p) : Keeps rely guar step I (Prog.withResource close p) :=
  fun s hs => (hp s hs).withResource hrely (fun _ t u ht hu => hI t u ht hu)
    (fun _ t ht _ => hclose t ht) fun _ h => h

theorem keeps_ofExcept (hI : ∀ s t, I s → rely s t → I t) {x : Except ε α} :
    Keeps rely guar step I (Prog.ofExcept x : Prog E R ε α) := by
  cases x with
  | ok a => exact keeps_pure hI
  | error x => exact keeps_throw hI

theorem keeps_forM (hrely : IsRely rely) (hI : ∀ s t, I s → rely s t → I t) {γ : Type}
    {g : γ → Prog E R ε Unit} {xs : List γ} (hg : ∀ x, Keeps rely guar step I (g x)) :
    Keeps rely guar step I (xs.forM g) := by
  induction xs with
  | nil => exact keeps_pure hI
  | cons x xs ih => exact keeps_bind hrely (hg x) fun _ => ih

end Keeps

/-! ## Putting two programs together -/

section Together

variable {relyL relyR guarL guarR : σ → σ → Prop} {stepL stepR : (e : E) → σ → R e → σ → Prop}
  {q q' : Prog E R ε β} {p' : Prog E R ε α}

/-- **Two programs that put up with each other** stay as safe as each is
alone. -/
theorem Together.safe (hL : IsRely relyL) (hR : IsRely relyR)
    (hLR : ∀ s t, guarL s t → relyR s t) (hRL : ∀ s t, guarR s t → relyL s t)
    (h : Together stepL stepR p q s p' q' t) (hp : p.Safe relyL guarL stepL P s)
    (hq : q.Safe relyR guarR stepR Q s) :
    p'.Safe relyL guarL stepL P t ∧ q'.Safe relyR guarR stepR Q t := by
  induction h with
  | refl => exact ⟨hp, hq⟩
  | left hstep _ ih =>
    obtain ⟨hguar, hk⟩ := hp _ (hL.refl _) _ _ hstep
    exact ih hk (hq.of_rely hR (hLR _ _ hguar))
  | right hstep _ ih =>
    obtain ⟨hguar, hk⟩ := hq _ (hR.refl _) _ _ hstep
    exact ih (hp.of_rely hL (hRL _ _ hguar)) hk

/-- The two programs take turns as the schedule says, `true` for the left
one, as long as the effects are allowed. -/
def takeTurns (execL execR : (e : E) → σ → R e × σ) (okL okR : E → σ → Bool) :
    List Bool → Prog E R ε α → Prog E R ε β → σ → Option (Prog E R ε α × Prog E R ε β × σ)
  | [], p, q, s => some (p, q, s)
  | true :: turns, .act e k, q, s =>
    if okL e s then takeTurns execL execR okL okR turns (k (execL e s).1) q (execL e s).2 else none
  | false :: turns, p, .act e k, s =>
    if okR e s then takeTurns execL execR okL okR turns p (k (execR e s).1) (execR e s).2 else none
  | _ :: _, _, _, _ => none

theorem together_of_takeTurns {execL execR : (e : E) → σ → R e × σ} {okL okR : E → σ → Bool}
    (hL : ∀ e s, okL e s = true → stepL e s (execL e s).1 (execL e s).2)
    (hR : ∀ e s, okR e s = true → stepR e s (execR e s).1 (execR e s).2) {turns : List Bool}
    (h : takeTurns execL execR okL okR turns p q s = some (p', q', t)) :
    Together stepL stepR p q s p' q' t := by
  induction turns generalizing p q s with
  | nil =>
    obtain ⟨rfl, rfl, rfl⟩ : p = p' ∧ q = q' ∧ s = t := by simpa [takeTurns] using h
    exact .refl
  | cons left turns ih =>
    cases left with
    | true =>
      cases p with
      | act e k =>
        rw [takeTurns] at h
        split at h
        · rename_i hok
          exact .left (hL e s hok) (ih h)
        · cases h
      | _ => simp [takeTurns] at h
    | false =>
      cases q with
      | act e k =>
        have hturn : takeTurns execL execR okL okR (false :: turns) p (.act e k) s =
            if okR e s then takeTurns execL execR okL okR turns p (k (execR e s).1)
              (execR e s).2 else none := by
          cases p <;> rfl
        rw [hturn] at h
        split at h
        · rename_i hok
          exact .right (hR e s hok) (ih h)
        · cases h
      | _ => cases p <;> simp [takeTurns] at h

/-- A program that has ended. -/
theorem Safe.of_result (hrely : IsRely rely) {r : Result ε α} (hr : p.result = some r)
    (h : p.Safe rely guar step P s) : P r s := by
  cases p with
  | pure a =>
    obtain rfl := Option.some.inj hr
    exact h s (hrely.refl s)
  | throw x =>
    obtain rfl := Option.some.inj hr
    exact h s (hrely.refl s)
  | outOfFuel =>
    obtain rfl := Option.some.inj hr
    exact h s (hrely.refl s)
  | act e k => cases hr

end Together

end Prog

end Lib

end SambaProvider

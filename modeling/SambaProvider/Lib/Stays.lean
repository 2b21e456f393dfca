import SambaProvider.Lib.Ends

/-!
# What holds all through a program

Two judgements about a program, read off its tree. `Every` is about the
effects it can perform at all, whatever they answer. `Stays` is about its
runs: every state it passes through is in `I`, it throws only what `X`
allows, and where it returns, `P` holds. A program whose effects all keep
`I` stays in `I`; for the others there is a rule for each control
structure.
-/

namespace SambaProvider

namespace Lib

namespace Prog

variable {E : Type} {R : E → Type} {ε α β γ σ : Type}

/-- Every effect the program can perform is in `good`, and every exception
it can throw by itself is in `X`. -/
def Every (good : E → Prop) (X : ε → Prop) : Prog E R ε α → Prop
  | .pure _ => True
  | .throw x => X x
  | .outOfFuel => True
  | .act e k => good e ∧ ∀ a, (k a).Every good X

/-- Started in `s`, the program passes only through states in `I`. -/
def Stays (step : (e : E) → σ → R e → σ → Prop) (I : σ → Prop) (X : ε → Prop)
    (P : α → σ → Prop) : Prog E R ε α → σ → Prop
  | .pure a, s => P a s
  | .throw x, _ => X x
  | .outOfFuel, _ => True
  | .act e k, s => ∀ a t, step e s a t → I t ∧ (k a).Stays step I X P t

variable {good : E → Prop} {X : ε → Prop} {step : (e : E) → σ → R e → σ → Prop}
  {I J : σ → Prop} {P P' : α → σ → Prop} {Q : β → σ → Prop} {p : Prog E R ε α}
  {f : α → Prog E R ε β} {s t : σ}

/-! ## Effects -/

theorem Every.mono {good' : E → Prop} (hgood : ∀ e, good e → good' e) (h : p.Every good X) :
    p.Every good' X := by
  induction p with
  | pure a => exact trivial
  | throw x => exact h
  | outOfFuel => exact trivial
  | act e k ih => exact ⟨hgood e h.1, fun a => ih a (h.2 a)⟩

theorem every_bind (hp : p.Every good X) (hf : ∀ a, (f a).Every good X) :
    (p >>= f).Every good X := by
  change (p.bind f).Every good X
  induction p with
  | pure a => exact hf a
  | throw x => exact hp
  | outOfFuel => exact trivial
  | act e k ih => exact ⟨hp.1, fun a => ih a (hp.2 a)⟩

/-- What the handler does with an exception it has seen is up to it. -/
theorem every_attempt (hp : p.Every good fun _ => True) : p.attempt.Every good X := by
  induction p with
  | pure a => exact trivial
  | throw x => exact trivial
  | outOfFuel => exact trivial
  | act e k ih => exact ⟨hp.1, fun a => ih a (hp.2 a)⟩

theorem every_ofExcept {r : Except ε α} (hr : ∀ x, r = .error x → X x) :
    (ofExcept r : Prog E R ε α).Every good X := by
  rcases r with x | a
  · exact hr x rfl
  · exact trivial

theorem every_catching {isC : ε → Bool} {handler : ε → Prog E R ε α}
    (hp : p.Every good fun _ => True) (hh : ∀ x, (handler x).Every good fun _ => True) :
    (p.catching isC handler).Every good fun _ => True := by
  refine every_bind (every_attempt hp) fun r => ?_
  rcases r with x | a
  · change Every good _ (if isC x then handler x else .throw x)
    split
    · exact hh x
    · exact trivial
  · exact trivial

theorem every_withResource {close : Prog E R ε Unit} (hp : p.Every good fun _ => True)
    (hc : close.Every good fun _ => True) :
    (withResource close p).Every good fun _ => True := by
  refine every_bind (every_attempt hp) fun r => ?_
  rcases r with x | a
  · exact every_bind (every_attempt hc) fun _ => trivial
  · exact every_bind hc fun _ => trivial

theorem every_forM {as : List γ} {f : γ → Prog E R ε Unit} (hf : ∀ a ∈ as, (f a).Every good X) :
    (as.forM f).Every good X := by
  induction as with
  | nil => exact trivial
  | cons a as ih =>
    exact every_bind (hf a List.mem_cons_self) fun _ => ih fun b hb =>
      hf b (List.mem_cons_of_mem a hb)

/-! ## Runs -/

theorem Stays.mono (hP : ∀ a t, P a t → P' a t) (h : p.Stays step I X P s) :
    p.Stays step I X P' s := by
  induction p generalizing s with
  | pure a => exact hP a s h
  | throw x => exact h
  | outOfFuel => exact trivial
  | act e k ih => exact fun a t hstep => ⟨(h a t hstep).1, ih a (h a t hstep).2⟩

/-- A larger set of states. -/
theorem Stays.mono_inv (hI : ∀ t, I t → J t) (h : p.Stays step I X P s) :
    p.Stays step J X P s := by
  induction p generalizing s with
  | pure a => exact h
  | throw x => exact h
  | outOfFuel => exact trivial
  | act e k ih => exact fun a t hstep => ⟨hI t (h a t hstep).1, ih a (h a t hstep).2⟩

/-- More exceptions. -/
theorem Stays.mono_throws {X' : ε → Prop} (hX : ∀ x, X x → X' x) (h : p.Stays step I X P s) :
    p.Stays step I X' P s := by
  induction p generalizing s with
  | pure a => exact h
  | throw x => exact hX x h
  | outOfFuel => exact trivial
  | act e k ih => exact fun a t hstep => ⟨(h a t hstep).1, ih a (h a t hstep).2⟩

/-- It returns in `I` too. -/
theorem Stays.and_inv (hs : I s) (h : p.Stays step I X P s) :
    p.Stays step I X (fun a t => I t ∧ P a t) s := by
  induction p generalizing s with
  | pure a => exact ⟨hs, h⟩
  | throw x => exact h
  | outOfFuel => exact trivial
  | act e k ih =>
    exact fun a t hstep => ⟨(h a t hstep).1, ih a (h a t hstep).1 (h a t hstep).2⟩

/-- What every effect keeps holds when it returns. -/
theorem Stays.and_kept (hJ : ∀ e s a t, step e s a t → J s → J t) (hs : J s)
    (h : p.Stays step I X P s) : p.Stays step I X (fun a t => P a t ∧ J t) s := by
  induction p generalizing s with
  | pure a => exact ⟨h, hs⟩
  | throw x => exact h
  | outOfFuel => exact trivial
  | act e k ih =>
    exact fun a t hstep => ⟨(h a t hstep).1, ih a (hJ e s a t hstep hs) (h a t hstep).2⟩

/-- **A sequence.** -/
theorem Stays.bind (hs : I s) (hp : p.Stays step I X P s)
    (hf : ∀ a t, I t → P a t → (f a).Stays step I X Q t) : (p >>= f).Stays step I X Q s := by
  change (p.bind f).Stays step I X Q s
  induction p generalizing s with
  | pure a => exact hf a s hs hp
  | throw x => exact hp
  | outOfFuel => exact trivial
  | act e k ih => exact fun a t hstep => ⟨(hp a t hstep).1, ih a (hp a t hstep).1 (hp a t hstep).2⟩

theorem Stays.attempt (h : p.Stays step I (fun _ => True) P s) :
    p.attempt.Stays step I X (fun r t => ∀ a, r = .ok a → P a t) s := by
  induction p generalizing s with
  | pure a =>
    rintro b hb
    obtain rfl := Except.ok.inj hb
    exact h
  | throw x => exact nofun
  | outOfFuel => exact trivial
  | act e k ih => exact fun a t hstep => ⟨(h a t hstep).1, ih a (h a t hstep).2⟩

/-- **A `catch` block.** -/
theorem Stays.catching {isC : ε → Bool} {handler : ε → Prog E R ε α} (hs : I s)
    (hp : p.Stays step I (fun _ => True) P s)
    (hh : ∀ x t, I t → (handler x).Stays step I (fun _ => True) P t) :
    (p.catching isC handler).Stays step I (fun _ => True) P s := by
  refine Stays.bind hs hp.attempt fun r t ht hr => ?_
  rcases r with x | a
  · change Stays step I _ P (if isC x then handler x else .throw x) t
    split
    · exact hh x t ht
    · exact trivial
  · exact hr a rfl

/-- **A resource**, whose close keeps what the body has reached. -/
theorem Stays.withResource {close : Prog E R ε Unit} (hs : I s)
    (hp : p.Stays step I (fun _ => True) P s)
    (hc : ∀ t, I t → close.Stays step I (fun _ => True) (fun _ t' => ∀ a, P a t → P a t') t) :
    (withResource close p).Stays step I (fun _ => True) P s := by
  refine Stays.bind hs hp.attempt fun r t ht hr => ?_
  rcases r with x | a
  · exact Stays.bind ht (hc t ht).attempt fun _ _ _ _ => trivial
  · exact Stays.bind ht (hc t ht) fun _ t' _ hkeep => hkeep a (hr a rfl)

/-- A program with good effects, which all keep `I` and `J`. -/
theorem Every.stays (hI : ∀ e s a t, good e → I s → step e s a t → I t)
    (hJ : ∀ e s a t, good e → I s → J s → step e s a t → J t) (h : p.Every good X) (hs : I s)
    (hs' : J s) : p.Stays step I X (fun _ t => J t) s := by
  induction p generalizing s with
  | pure a => exact hs'
  | throw x => exact h
  | outOfFuel => exact trivial
  | act e k ih =>
    intro a t hstep
    exact ⟨hI e s a t h.1 hs hstep,
      ih a (h.2 a) (hI e s a t h.1 hs hstep) (hJ e s a t h.1 hs hs' hstep)⟩

/-- **A loop** that keeps `J` in every turn. -/
theorem Stays.forM {as : List γ} {f : γ → Prog E R ε Unit} (hs : I s) (hs' : J s)
    (hf : ∀ a ∈ as, ∀ t, I t → J t → (f a).Stays step I X (fun _ t => J t) t) :
    (as.forM f).Stays step I X (fun _ t => J t) s := by
  induction as generalizing s with
  | nil => exact hs'
  | cons a as ih =>
    exact Stays.bind hs (hf a List.mem_cons_self s hs hs') fun _ t ht ht' =>
      ih ht ht' fun b hb => hf b (List.mem_cons_of_mem a hb)

/-! ## Ends -/

/-- **Where a program that stays in `I` ends**, and that it has passed
through `I` only. -/
theorem Stays.of_ends (hs : I s) (h : p.Stays step I X P s) {r : Result ε α}
    (hr : p.Ends step s r t) :
    I t ∧ (∀ a, r = .returned a → P a t) ∧ (∀ x, r = .threw x → X x) ∧
      p.Ends (fun e s a t => step e s a t ∧ I t) s r t := by
  induction p generalizing s with
  | pure a =>
    obtain ⟨rfl, rfl⟩ := hr
    refine ⟨hs, fun b hb => ?_, nofun, rfl, rfl⟩
    obtain rfl := Result.returned.inj hb
    exact h
  | throw x =>
    obtain ⟨rfl, rfl⟩ := hr
    refine ⟨hs, nofun, fun y hy => ?_, rfl, rfl⟩
    obtain rfl := Result.threw.inj hy
    exact h
  | outOfFuel =>
    obtain ⟨rfl, rfl⟩ := hr
    exact ⟨hs, nofun, nofun, rfl, rfl⟩
  | act e k ih =>
    obtain ⟨a, s', hstep, hk⟩ := hr
    obtain ⟨hI, hk'⟩ := h a s' hstep
    obtain ⟨ht, hP, hX, hends⟩ := ih a hI hk' hk
    exact ⟨ht, hP, hX, a, s', ⟨hstep, hI⟩, hends⟩

end Prog

end Lib

end SambaProvider

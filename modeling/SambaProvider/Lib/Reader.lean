import Mathlib.Data.List.Basic

/-!
# Readers

A reader takes what it wants from the front of a list. It may find the
list too short, or find something wrong in it, and the two are told
apart by the error. `Reads` says which words it reads: a word is read
whatever follows it, the beginning of a word is too short, and what is
wrong stays wrong whatever follows. `Viable` says that what is too short
can be gone on with.
-/

namespace SambaProvider

namespace Lib

universe u v

variable {τ σ α β γ : Type u} {ε : Type v}

/-- One of the lists begins the other. -/
def Comparable (p q : List τ) : Prop := p <+: q ∨ q <+: p

/-- The language of a reader: its words, and the value of each. -/
abbrev Language (τ α : Type u) := List τ → α → Prop

/-- **What a reader reads.** `ended` are the errors of a list that is too
short, and `out` is what is made of the value and the rest. -/
structure Reads (ended : ε → Prop) (W : Language τ α) (out : α → List τ → γ)
    (r : List τ → Except ε γ) : Prop where
  /-- A word is read, whatever follows. -/
  word : ∀ w a, W w a → ∀ rest, r (w ++ rest) = .ok (out a rest)
  /-- The beginning of a word is too short. -/
  cut : ∀ w a, W w a → ∀ p, p <+: w → p ≠ w → ∃ e, r p = .error e ∧ ended e
  /-- Nothing but words is read. -/
  ok : ∀ ts c, r ts = .ok c → ∃ w a rest, W w a ∧ ts = w ++ rest ∧ c = out a rest
  /-- What is wrong is wrong whatever follows. -/
  wrong : ∀ ts e, r ts = .error e → ¬ ended e → ∀ more, r (ts ++ more) = .error e

/-- What is too short begins a word. -/
def Viable (ended : ε → Prop) (W : Language τ α) (r : List τ → Except ε γ) : Prop :=
  ∀ ts e, r ts = .error e → ended e → ∃ w a, W w a ∧ ts <+: w

section Words

variable {ended : ε → Prop} {W : Language τ α} {out : α → List τ → γ}
variable {r : List τ → Except ε γ} {ts p q w : List τ}

/-- Two beginnings of one list. -/
theorem comparable_of_prefix (hp : p <+: ts) (hq : q <+: ts) : Comparable p q :=
  List.prefix_or_prefix_of_prefix hp hq

theorem comparable_append_left : Comparable (w ++ p) (w ++ q) ↔ Comparable p q := by
  unfold Comparable
  rw [List.prefix_append_right_inj, List.prefix_append_right_inj]

/-- **Where a reader finds nothing wrong**: the list begins with a word,
or begins one. -/
theorem Reads.not_wrong_iff (h : Reads ended W out r) (hv : Viable ended W r) :
    (∀ e, r ts = .error e → ended e) ↔ ∃ w a, W w a ∧ Comparable w ts := by
  constructor
  · intro hts
    cases hr : r ts with
    | ok c =>
      obtain ⟨w, a, rest, hw, rfl, -⟩ := h.ok ts c hr
      exact ⟨w, a, hw, .inl (List.prefix_append w rest)⟩
    | error e =>
      obtain ⟨w, a, hw, hp⟩ := hv ts e hr (hts e hr)
      exact ⟨w, a, hw, .inr hp⟩
  · rintro ⟨w, a, hw, ⟨rest, rfl⟩ | hp⟩ e he
    · rw [h.word w a hw rest] at he
      cases he
    · by_cases hne : ts = w
      · have hword := h.word w a hw []
        rw [List.append_nil, ← hne, he] at hword
        cases hword
      · obtain ⟨e', he', hended⟩ := h.cut w a hw ts hp hne
        rw [he] at he'
        cases he'
        exact hended

/-- What was read from a list is read from a longer one. -/
theorem Reads.ok_append {r : List τ → Except ε (α × List τ)} (h : Reads ended W Prod.mk r)
    {a : α} {rest more : List τ} (hr : r ts = .ok (a, rest)) :
    r (ts ++ more) = .ok (a, rest ++ more) := by
  obtain ⟨w, b, rest', hw, rfl, hc⟩ := h.ok ts _ hr
  cases hc
  rw [List.append_assoc]
  exact h.word w a hw _

end Words

/-! ## Rules -/

section Rules

variable {ended : ε → Prop} {out : α → List τ → γ}

/-- One language after another. -/
def Then (W₁ : Language τ α) (W₂ : α → Language τ β) : Language τ β := fun w b =>
  ∃ w₁ a w₂, W₁ w₁ a ∧ W₂ a w₂ b ∧ w = w₁ ++ w₂

/-- The empty word. -/
def Only (a : α) : Language τ α := fun w b => w = [] ∧ b = a

theorem reads_ok (a : α) : Reads ended (Only a) out fun ts => .ok (out a ts) where
  word := by
    rintro w b ⟨rfl, rfl⟩ rest
    rfl
  cut := by
    rintro w b ⟨rfl, rfl⟩ p hp hne
    exact absurd (List.prefix_nil.mp hp) hne
  ok := by
    rintro ts c hc
    cases hc
    exact ⟨[], a, ts, ⟨rfl, rfl⟩, rfl, rfl⟩
  wrong := by
    rintro ts e he
    cases he

/-- A language by another description. -/
theorem Reads.congr {W W' : Language τ α} {r : List τ → Except ε γ} (h : Reads ended W out r)
    (hW : ∀ w a, W w a ↔ W' w a) : Reads ended W' out r := by
  obtain rfl : W = W' := funext fun w => funext fun a => propext (hW w a)
  exact h

/-- What needs no reading, and may fail. -/
theorem reads_ofExcept (x : Except ε α) (out : α → List τ → γ) :
    Reads ended (fun w a => w = [] ∧ x = .ok a) out fun ts => x.map fun a => out a ts where
  word := by
    rintro w a ⟨rfl, rfl⟩ rest
    rfl
  cut := by
    rintro w a ⟨rfl, -⟩ p hp hne
    exact absurd (List.prefix_nil.mp hp) hne
  ok := by
    intro ts c hc
    cases x with
    | error e => cases hc
    | ok a =>
      cases hc
      exact ⟨[], a, ts, ⟨rfl, rfl⟩, rfl, rfl⟩
  wrong := by
    intro ts e he _ more
    cases x with
    | error e' => exact he
    | ok a => cases he

/-- The beginning of two words, one after the other, is that of the first,
or goes into the second. -/
theorem proper_or_beyond {p w₁ w₂ : List τ} (h : p <+: w₁ ++ w₂) :
    (p <+: w₁ ∧ p ≠ w₁) ∨ ∃ q, p = w₁ ++ q ∧ q <+: w₂ := by
  by_cases hp : w₁ <+: p
  · obtain ⟨q, rfl⟩ := hp
    exact .inr ⟨q, rfl, (List.prefix_append_right_inj w₁).mp h⟩
  · rcases comparable_of_prefix h (List.prefix_append w₁ w₂) with hw | hw
    · exact .inl ⟨hw, fun heq => hp (heq ▸ List.prefix_refl p)⟩
    · exact absurd hw hp

/-- **The rule of sequence.** -/
theorem Reads.bind {W₁ : Language τ β} {W₂ : β → Language τ α}
    {r : List τ → Except ε (β × List τ)} {k : β → List τ → Except ε γ}
    (hr : Reads ended W₁ Prod.mk r) (hk : ∀ b, Reads ended (W₂ b) out (k b)) :
    Reads ended (Then W₁ W₂) out fun ts => r ts >>= fun p => k p.1 p.2 where
  word := by
    rintro w a ⟨w₁, b, w₂, hw₁, hw₂, rfl⟩ rest
    rw [List.append_assoc, hr.word w₁ b hw₁]
    exact (hk b).word w₂ a hw₂ rest
  cut := by
    rintro w a ⟨w₁, b, w₂, hw₁, hw₂, rfl⟩ p hp hne
    rcases proper_or_beyond hp with ⟨hp₁, hne₁⟩ | ⟨q, rfl, hq⟩
    · obtain ⟨e, he, hended⟩ := hr.cut w₁ b hw₁ p hp₁ hne₁
      rw [he]
      exact ⟨e, rfl, hended⟩
    · rw [hr.word w₁ b hw₁]
      exact (hk b).cut w₂ a hw₂ q hq fun h => hne (by rw [h])
  ok := by
    intro ts c hc
    cases hts : r ts with
    | error e =>
      rw [hts] at hc
      cases hc
    | ok p =>
      rw [hts] at hc
      obtain ⟨w₁, b, rest, hw₁, rfl, rfl⟩ := hr.ok ts p hts
      obtain ⟨w₂, a, rest', hw₂, rfl, rfl⟩ := (hk b).ok rest c hc
      exact ⟨w₁ ++ w₂, a, rest', ⟨w₁, b, w₂, hw₁, hw₂, rfl⟩, (List.append_assoc _ _ _).symm, rfl⟩
  wrong := by
    intro ts e he hended more
    cases hts : r ts with
    | error e' =>
      rw [hts] at he
      cases he
      rw [hr.wrong ts e hts hended more]
      rfl
    | ok p =>
      rw [hts] at he
      obtain ⟨b, rest⟩ := p
      rw [hr.ok_append hts]
      exact (hk b).wrong rest e he hended more

/-- What is made of the value alone. -/
theorem Reads.map {W : Language τ β} {r : List τ → Except ε (β × List τ)}
    (h : Reads ended W Prod.mk r) (g : β → α) :
    Reads ended (fun w a => ∃ b, W w b ∧ a = g b) Prod.mk
      fun ts => r ts >>= fun p => .ok (g p.1, p.2) := by
  refine (h.bind fun b => reads_ok (g b)).congr fun w a => ?_
  constructor
  · rintro ⟨w₁, b, w₂, hw, ⟨rfl, rfl⟩, rfl⟩
    rw [List.append_nil]
    exact ⟨b, hw, rfl⟩
  · rintro ⟨b, hw, rfl⟩
    exact ⟨w, b, [], hw, ⟨rfl, rfl⟩, (List.append_nil w).symm⟩

/-- One token of the kind. -/
def Token (f : τ → Option α) : Language τ α := fun w a => ∃ t, f t = some a ∧ w = [t]

/-- **The rule of one token**, which may be the wrong one. -/
theorem reads_token {f : τ → Option α} {stuck : ε} (wrong : ε) (hstuck : ended stuck)
    {r : List τ → Except ε (α × List τ)} (hnil : r [] = .error stuck)
    (hcons : ∀ t ts, r (t :: ts) = match f t with
      | some a => .ok (a, ts)
      | none => .error wrong) : Reads ended (Token f) Prod.mk r where
  word := by
    rintro w a ⟨t, ht, rfl⟩ rest
    rw [List.singleton_append, hcons, ht]
  cut := by
    rintro w a ⟨t, -, rfl⟩ p hp hne
    rcases List.prefix_cons_iff.mp hp with rfl | ⟨q, rfl, hq⟩
    · exact ⟨stuck, hnil, hstuck⟩
    · rw [List.prefix_nil.mp hq] at hne
      exact absurd rfl hne
  ok := by
    intro ts c hc
    cases ts with
    | nil =>
      rw [hnil] at hc
      cases hc
    | cons t ts =>
      rw [hcons] at hc
      cases ht : f t with
      | none =>
        rw [ht] at hc
        cases hc
      | some a =>
        rw [ht] at hc
        cases hc
        exact ⟨[t], a, ts, ⟨t, ht, rfl⟩, rfl, rfl⟩
  wrong := by
    intro ts e he hended more
    cases ts with
    | nil =>
      rw [hnil] at he
      cases he
      exact absurd hstuck hended
    | cons t ts =>
      rw [hcons] at he
      rw [List.cons_append, hcons]
      cases ht : f t with
      | none => rw [ht] at he; exact he
      | some a =>
        rw [ht] at he
        cases he

/-! ### What is too short -/

theorem Viable.mono {W W' : Language τ α} {r : List τ → Except ε γ} (h : Viable ended W r)
    (hW : ∀ w a, W w a → W' w a) : Viable ended W' r := by
  intro ts e he hended
  obtain ⟨w, a, hw, hp⟩ := h ts e he hended
  exact ⟨w, a, hW w a hw, hp⟩

/-- What cannot be too short can be gone on with. -/
theorem viable_ok {W : Language τ α} {c : List τ → γ} :
    Viable ended W fun ts => (.ok (c ts) : Except ε γ) := by
  intro ts e he
  cases he

theorem Viable.map {W : Language τ β} {r : List τ → Except ε (β × List τ)}
    (h : Viable ended W r) (g : β → α) : Viable ended (fun w a => ∃ b, W w b ∧ a = g b)
      fun ts => r ts >>= fun p => (.ok (g p.1, p.2) : Except ε (α × List τ)) := by
  intro ts e he hended
  dsimp only at he
  cases hr : r ts with
  | ok p =>
    rw [hr] at he
    cases he
  | error e' =>
    rw [hr] at he
    cases he
    obtain ⟨w, b, hw, hp⟩ := h ts e hr hended
    exact ⟨w, g b, ⟨b, hw, rfl⟩, hp⟩

/-- What is made of the value without reading, and may fail, is not what is
too short. -/
theorem Viable.bind_ofExcept {W : Language τ β} {V : Language τ α} {x : β → Except ε α}
    {k : α → List τ → γ} {r : List τ → Except ε (β × List τ)} (h : Viable ended W r)
    (hx : ∀ b e, x b = .error e → ¬ ended e) (hV : ∀ w b, W w b → ∃ a, V w a) :
    Viable ended V fun ts => r ts >>= fun p => (x p.1).map fun a => k a p.2 := by
  intro ts e he hended
  dsimp only at he
  cases hr : r ts with
  | ok p =>
    rw [hr] at he
    change ((x p.1).map fun a => k a p.2) = .error e at he
    cases hxp : x p.1 with
    | ok a =>
      rw [hxp] at he
      cases he
    | error e' =>
      rw [hxp] at he
      cases he
      exact absurd hended (hx p.1 e hxp)
  | error e' =>
    rw [hr] at he
    cases he
    obtain ⟨w, b, hw, hp⟩ := h ts e hr hended
    obtain ⟨a, ha⟩ := hV w b hw
    exact ⟨w, a, ha, hp⟩

/-- One token is too short only where there is none. -/
theorem viable_token {f : τ → Option α} {wrong : ε} (hwrong : ¬ ended wrong) {t : τ} {a : α}
    (ht : f t = some a) {r : List τ → Except ε (α × List τ)}
    (hcons : ∀ t ts, r (t :: ts) = match f t with
      | some a => .ok (a, ts)
      | none => .error wrong) : Viable ended (Token f) r := by
  intro ts e he hended
  cases ts with
  | nil => exact ⟨[t], a, ⟨t, ht, rfl⟩, List.nil_prefix⟩
  | cons t' ts =>
    rw [hcons] at he
    cases ht' : f t' with
    | none =>
      rw [ht'] at he
      cases he
      exact absurd hended hwrong
    | some a' =>
      rw [ht'] at he
      cases he

end Rules

/-! ## Loops -/

section Loop

variable {ended : ε → Prop} {stuck : ε}
variable {body : σ → List τ → Except ε ((σ ⊕ α) × List τ)}
variable {M : σ → Language τ (σ ⊕ α)} {s s' : σ} {n : ℕ} {ts : List τ}

/-- A loop: every round goes on in a new state, or comes to a value. -/
def loop (stuck : ε) (body : σ → List τ → Except ε ((σ ⊕ α) × List τ)) :
    ℕ → σ → List τ → Except ε (α × List τ)
  | 0, _, _ => .error stuck
  | n + 1, s, ts =>
    match body s ts with
    | .ok (.inl s', rest) => loop stuck body n s' rest
    | .ok (.inr a, rest) => .ok (a, rest)
    | .error e => .error e

/-- The words of a loop. -/
inductive LoopWord (M : σ → Language τ (σ ⊕ α)) : σ → Language τ α
  | stop {s : σ} {w : List τ} {a : α} : M s w (.inr a) → LoopWord M s w a
  | more {s s' : σ} {w w' : List τ} {a : α} :
      M s w (.inl s') → LoopWord M s' w' a → LoopWord M s (w ++ w') a

/-- The rounds that go on have read something. -/
def Progress (M : σ → Language τ (σ ⊕ α)) : Prop := ∀ s w s', M s w (.inl s') → w ≠ []

/-- A round that goes on leaves a shorter list. -/
theorem Progress.length_lt (hM : Progress M) (hbody : ∀ s, Reads ended (M s) Prod.mk (body s))
    {rest : List τ} (h : body s ts = .ok (.inl s', rest)) : rest.length < ts.length := by
  obtain ⟨w, x, rest', hw, rfl, hc⟩ := (hbody s).ok ts _ h
  cases hc
  have hpos : 0 < w.length := List.length_pos_of_ne_nil (hM s w s' hw)
  rw [List.length_append]
  omega

/-- More rounds than tokens are as good as any number. -/
theorem loop_eq (hM : Progress M) (hbody : ∀ s, Reads ended (M s) Prod.mk (body s)) {m : ℕ}
    (hn : ts.length < n) (hm : ts.length < m) :
    loop stuck body n s ts = loop stuck body m s ts := by
  induction n generalizing m s ts with
  | zero => exact absurd hn (Nat.not_lt_zero _)
  | succ n ih =>
    obtain ⟨m, rfl⟩ : ∃ k, m = k + 1 := ⟨m - 1, by omega⟩
    rw [loop, loop]
    split
    · rename_i s' rest hround
      have hlt := hM.length_lt hbody hround
      exact ih (by omega) (by omega)
    · rfl
    · rfl

/-- The loop, with rounds enough. -/
def loopAll (stuck : ε) (body : σ → List τ → Except ε ((σ ⊕ α) × List τ)) (s : σ)
    (ts : List τ) : Except ε (α × List τ) := loop stuck body (ts.length + 1) s ts

theorem loopAll_more (hM : Progress M) (hbody : ∀ s, Reads ended (M s) Prod.mk (body s))
    {rest : List τ} (h : body s ts = .ok (.inl s', rest)) :
    loopAll stuck body s ts = loopAll stuck body s' rest := by
  have hlt := hM.length_lt hbody h
  rw [loopAll, loop, h]
  exact loop_eq hM hbody hlt (Nat.lt_succ_self _)

theorem loopAll_stop {a : α} {rest : List τ} (h : body s ts = .ok (.inr a, rest)) :
    loopAll stuck body s ts = .ok (a, rest) := by
  rw [loopAll, loop, h]

theorem loopAll_error {e : ε} (h : body s ts = .error e) :
    loopAll stuck body s ts = .error e := by
  rw [loopAll, loop, h]

/-- **The rule of the loop.** -/
theorem reads_loop (hM : Progress M) (hbody : ∀ s, Reads ended (M s) Prod.mk (body s)) (s : σ) :
    Reads ended (LoopWord M s) Prod.mk (loopAll stuck body s) where
  word w a hw rest := by
    induction hw with
    | stop hw => exact loopAll_stop ((hbody _).word _ _ hw rest)
    | more hw _ ih =>
      rw [List.append_assoc, loopAll_more hM hbody ((hbody _).word _ _ hw _)]
      exact ih
  cut w a hw p hp hne := by
    induction hw generalizing p with
    | stop hw =>
      obtain ⟨e, he, hended⟩ := (hbody _).cut _ _ hw p hp hne
      exact ⟨e, loopAll_error he, hended⟩
    | more hw _ ih =>
      rcases proper_or_beyond hp with ⟨hp₁, hne₁⟩ | ⟨q, rfl, hq⟩
      · obtain ⟨e, he, hended⟩ := (hbody _).cut _ _ hw p hp₁ hne₁
        exact ⟨e, loopAll_error he, hended⟩
      · rw [loopAll_more hM hbody ((hbody _).word _ _ hw q)]
        exact ih q hq fun h => hne (by rw [h])
  ok ts c hc := by
    induction hn : ts.length using Nat.strongRecOn generalizing s ts with
    | _ n ih =>
      cases hround : body s ts with
      | error e =>
        rw [loopAll_error hround] at hc
        cases hc
      | ok x =>
        obtain ⟨s' | a, rest⟩ := x
        · have hlt := hM.length_lt hbody hround
          rw [loopAll_more hM hbody hround] at hc
          obtain ⟨w, y, rest₁, hw, rfl, hy⟩ := (hbody s).ok ts _ hround
          cases hy
          obtain ⟨w', a, rest', hw', rfl, rfl⟩ := ih rest.length (hn ▸ hlt) s' rest hc rfl
          exact ⟨w ++ w', a, rest', .more hw hw', (List.append_assoc _ _ _).symm, rfl⟩
        · rw [loopAll_stop hround] at hc
          cases hc
          obtain ⟨w, y, rest₁, hw, rfl, hy⟩ := (hbody s).ok ts _ hround
          cases hy
          exact ⟨w, a, rest, .stop hw, rfl, rfl⟩
  wrong ts e he hended more := by
    induction hn : ts.length using Nat.strongRecOn generalizing s ts with
    | _ n ih =>
      cases hround : body s ts with
      | error e' =>
        rw [loopAll_error hround] at he
        cases he
        exact loopAll_error ((hbody s).wrong ts e hround hended more)
      | ok x =>
        obtain ⟨s' | a, rest⟩ := x
        · have hlt := hM.length_lt hbody hround
          rw [loopAll_more hM hbody hround] at he
          rw [loopAll_more hM hbody ((hbody s).ok_append hround)]
          exact ih rest.length (hn ▸ hlt) s' rest he rfl
        · rw [loopAll_stop hround] at he
          cases he

/-- **A loop can go on** where every state can be brought to an end, and
what is too short for a round begins one, or an end. -/
theorem viable_loop (hM : Progress M) (hbody : ∀ s, Reads ended (M s) Prod.mk (body s))
    {V : σ → Language τ α} (hV : ∀ s, ∃ w a, V s w a)
    (hmore : ∀ s w s' w' a, M s w (.inl s') → V s' w' a → V s (w ++ w') a)
    (hround : ∀ s ts e, body s ts = .error e → ended e →
      (∃ w s', M s w (.inl s') ∧ ts <+: w) ∨ ∃ w a, V s w a ∧ ts <+: w) (s : σ) :
    Viable ended (V s) (loopAll stuck body s) := by
  intro ts e he hended
  induction hn : ts.length using Nat.strongRecOn generalizing s ts with
  | _ n ih =>
    cases hts : body s ts with
    | error e' =>
      rw [loopAll_error hts] at he
      cases he
      rcases hround s ts e hts hended with ⟨w, s', hw, hp⟩ | hend
      · obtain ⟨w', a, hw'⟩ := hV s'
        exact ⟨w ++ w', a, hmore s w s' w' a hw hw', hp.trans (List.prefix_append w w')⟩
      · exact hend
    | ok x =>
      obtain ⟨s' | a, rest⟩ := x
      · have hlt := hM.length_lt hbody hts
        rw [loopAll_more hM hbody hts] at he
        obtain ⟨w, y, rest₁, hw, rfl, hy⟩ := (hbody s).ok ts _ hts
        cases hy
        obtain ⟨w', a, hw', hp⟩ := ih rest.length (hn ▸ hlt) s' rest he rfl
        exact ⟨w ++ w', a, hmore s w s' w' a hw hw', (List.prefix_append_right_inj w).mpr hp⟩
      · rw [loopAll_stop hts] at he
        cases he

end Loop

end Lib

end SambaProvider

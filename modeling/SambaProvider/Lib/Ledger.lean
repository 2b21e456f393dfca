import Mathlib.Data.List.Perm.Basic
import SambaProvider.Lib.Stays

/-!
# Opening and closing

A ledger of what a program opens and closes, whatever its effects answer.
`Quiet` programs do neither; a resource that is closed by `withResource`
is conserved however its body ends; and a program that has no effect that
closes keeps everything it opens.
-/

namespace SambaProvider

namespace Lib

/-- What was opened and what was closed, and how many effects there were. -/
structure Ledger (H : Type) where
  effects : ℕ := 0
  opened : List H := []
  closed : List H := []

/-- **Everything opened in between was closed exactly once.** -/
def Ledger.Conserved {H : Type} (s t : Ledger H) : Prop :=
  ∃ o c, t.opened = s.opened ++ o ∧ t.closed = s.closed ++ c ∧ c.Perm o

/-- What an effect opens, given its answer, and what it closes. -/
structure Accounting (E : Type) (R : E → Type) (H : Type) where
  opens : (e : E) → R e → List H
  closes : E → List H

namespace Ledger

variable {H : Type} {s t u : Ledger H}

theorem Conserved.of_eq (ho : t.opened = s.opened) (hc : t.closed = s.closed) : s.Conserved t :=
  ⟨[], [], by rw [ho, List.append_nil], by rw [hc, List.append_nil], .refl _⟩

theorem Conserved.trans (h : s.Conserved t) (h' : t.Conserved u) : s.Conserved u := by
  obtain ⟨o, c, ho, hc, hperm⟩ := h
  obtain ⟨o', c', ho', hc', hperm'⟩ := h'
  refine ⟨o ++ o', c ++ c', ?_, ?_, hperm.append hperm'⟩
  · rw [ho', ho, List.append_assoc]
  · rw [hc', hc, List.append_assoc]

/-- What opens and never closes conserves only where it opens nothing. -/
theorem conserved_iff_of_closed_eq (hc : t.closed = s.closed) :
    s.Conserved t ↔ t.opened = s.opened := by
  constructor
  · rintro ⟨o, c, ho, hc', hperm⟩
    rw [hc, List.self_eq_append_right] at hc'
    rw [hc', List.nil_perm] at hperm
    rw [ho, hperm, List.append_nil]
  · exact fun ho => .of_eq ho hc

end Ledger

namespace Accounting

open Prog

variable {E : Type} {R : E → Type} {ε α β γ H : Type} (A : Accounting E R H)

/-- A handler that gives the answers of a pattern, and keeps the ledger. -/
def exec (answers : ℕ → (e : E) → R e) (e : E) (s : Ledger H) : R e × Ledger H :=
  let a := answers s.effects e
  (a, ⟨s.effects + 1, s.opened ++ A.opens e a, s.closed ++ A.closes e⟩)

/-- The effect neither opens nor closes. -/
def Quiet (e : E) : Prop := (∀ a, A.opens e a = []) ∧ A.closes e = []

/-- The effect does not close. -/
def Keeps (e : E) : Prop := A.closes e = []

/-- **The program conserves** what it opens, wherever it ends. -/
def Conserves (p : Prog E R ε α) : Prop :=
  ∀ answers s, (p.run (A.exec answers) s).1 ≠ .outOfFuel →
    s.Conserved (p.run (A.exec answers) s).2

/-- The program closes `h`, and opens nothing. -/
def Closes (h : H) (p : Prog E R ε Unit) : Prop :=
  ∀ answers s, (p.run (A.exec answers) s).1 ≠ .outOfFuel →
    (p.run (A.exec answers) s).2.opened = s.opened ∧
      (p.run (A.exec answers) s).2.closed = s.closed ++ [h]

/-- Of programs that differ in the bound of their loops, one ends in `t`
when it is started in `s`. -/
def EndsIn (answers : ℕ → (e : E) → R e) (p : ℕ → Prog E R ε α) (s t : Ledger H) : Prop :=
  ∃ fuel, ((p fuel).run (A.exec answers) s).1 ≠ .outOfFuel ∧
    ((p fuel).run (A.exec answers) s).2 = t

variable {A} {X : ε → Prop} {p : Prog E R ε α} {f : α → Prog E R ε β} {h : H}
  {answers : ℕ → (e : E) → R e} {s : Ledger H}

/-! ## Effects -/

theorem run_quiet (answers : ℕ → (e : E) → R e) (hp : p.Every A.Quiet X) :
    (p.run (A.exec answers) s).2.opened = s.opened ∧
      (p.run (A.exec answers) s).2.closed = s.closed := by
  induction p generalizing s with
  | pure a => exact ⟨rfl, rfl⟩
  | throw x => exact ⟨rfl, rfl⟩
  | outOfFuel => exact ⟨rfl, rfl⟩
  | act e k ih =>
    obtain ⟨⟨hopens, hcloses⟩, hk⟩ := hp
    obtain ⟨ho, hc⟩ := ih (answers s.effects e) (hk _) (s := (A.exec answers e s).2)
    refine ⟨ho.trans ?_, hc.trans ?_⟩
    · exact (congrArg (s.opened ++ ·) (hopens _)).trans (List.append_nil _)
    · exact (congrArg (s.closed ++ ·) hcloses).trans (List.append_nil _)

/-- **Quiet programs** conserve. -/
theorem conserves_of_quiet (hp : p.Every A.Quiet X) : A.Conserves p :=
  fun answers _ _ => .of_eq (run_quiet answers hp).1 (run_quiet answers hp).2

/-- An effect that closes, and what is quiet behind it. -/
theorem closes_act {e : E} {k : R e → Prog E R ε Unit} (hopens : ∀ a, A.opens e a = [])
    (hcloses : A.closes e = [h]) (hk : ∀ a, (k a).Every A.Quiet X) : A.Closes h (.act e k) := by
  intro answers s _
  have hrest := run_quiet answers (hk (A.exec answers e s).1) (s := (A.exec answers e s).2)
  refine ⟨hrest.1.trans ?_, hrest.2.trans ?_⟩
  · exact (congrArg (s.opened ++ ·) (hopens _)).trans (List.append_nil _)
  · exact congrArg (s.closed ++ ·) hcloses

/-- What is opened stays in the ledger, and a program that closes nothing
closes nothing. -/
theorem run_keeps (answers : ℕ → (e : E) → R e) (hp : p.Every A.Keeps X) :
    s.opened <+: (p.run (A.exec answers) s).2.opened ∧
    (p.run (A.exec answers) s).2.closed = s.closed := by
  induction p generalizing s with
  | pure a => exact ⟨List.prefix_rfl, rfl⟩
  | throw x => exact ⟨List.prefix_rfl, rfl⟩
  | outOfFuel => exact ⟨List.prefix_rfl, rfl⟩
  | act e k ih =>
    obtain ⟨hcloses, hk⟩ := hp
    obtain ⟨ho, hc⟩ := ih (answers s.effects e) (hk _) (s := (A.exec answers e s).2)
    refine ⟨(List.prefix_append _ _).trans ho, hc.trans ?_⟩
    exact (congrArg (s.closed ++ ·) hcloses).trans (List.append_nil _)

/-! ## The control structures -/

theorem Conserves.bind (hp : A.Conserves p) (hf : ∀ a, A.Conserves (f a)) :
    A.Conserves (p >>= f) := by
  intro answers s
  rw [run_bind]
  have hs := hp answers s
  rcases hrun : p.run (A.exec answers) s with ⟨a | x | _, t⟩ <;> rw [hrun] at hs
  · exact fun hend => (hs (by simp)).trans (hf a answers t hend)
  · exact fun _ => hs (by simp)
  · exact fun hend => absurd rfl hend

theorem Conserves.catching {isC : ε → Bool} {handler : ε → Prog E R ε α} (hp : A.Conserves p)
    (hh : ∀ x, A.Conserves (handler x)) : A.Conserves (p.catching isC handler) := by
  intro answers s
  rw [run_catching]
  have hs := hp answers s
  rcases hrun : p.run (A.exec answers) s with ⟨a | x | _, t⟩ <;> rw [hrun] at hs
  · exact fun _ => hs (by simp)
  · simp only
    split
    · exact fun hend => (hs (by simp)).trans (hh x answers t hend)
    · exact fun _ => hs (by simp)
  · exact fun hend => absurd rfl hend

/-- Where a program with a resource ends: its body has ended, and then the
close. -/
theorem run_withResource_cases {close : Prog E R ε Unit}
    (hend : ((withResource close p).run (A.exec answers) s).1 ≠ .outOfFuel) :
    (p.run (A.exec answers) s).1 ≠ .outOfFuel ∧
      (close.run (A.exec answers) (p.run (A.exec answers) s).2).1 ≠ .outOfFuel ∧
      ((withResource close p).run (A.exec answers) s).2 =
        (close.run (A.exec answers) (p.run (A.exec answers) s).2).2 := by
  rw [run_withResource] at hend ⊢
  revert hend
  rcases p.run (A.exec answers) s with ⟨a | x | _, t⟩
  · simp only
    rcases close.run (A.exec answers) t with ⟨_ | y | _, u⟩
    · exact fun _ => ⟨by simp, by simp, rfl⟩
    · exact fun _ => ⟨by simp, by simp, rfl⟩
    · exact fun hend => absurd rfl hend
  · simp only
    rcases close.run (A.exec answers) t with ⟨_ | y | _, u⟩
    · exact fun _ => ⟨by simp, by simp, rfl⟩
    · exact fun _ => ⟨by simp, by simp, rfl⟩
    · exact fun hend => absurd rfl hend
  · exact fun hend => absurd rfl hend

theorem Conserves.withResource {close : Prog E R ε Unit} (hp : A.Conserves p)
    (hc : A.Conserves close) : A.Conserves (Prog.withResource close p) := by
  intro answers s hend
  obtain ⟨hbody, hclose, hrun⟩ := run_withResource_cases hend
  rw [hrun]
  exact (hp answers s hbody).trans (hc answers _ hclose)

/-- **A resource** is conserved: where the effect opens one, the rest is its
body with its close. -/
theorem conserves_acquire {e : E} {k : R e → Prog E R ε α} (hcloses : A.closes e = [])
    (hk : ∀ a, A.opens e a = [] ∧ A.Conserves (k a) ∨ ∃ h close body, A.opens e a = [h] ∧
      A.Closes h close ∧ A.Conserves body ∧ k a = Prog.withResource close body) :
    A.Conserves (.act e k) := by
  intro answers s hend
  rw [run_act] at hend ⊢
  have hopened : (A.exec answers e s).2.opened =
      s.opened ++ A.opens e (A.exec answers e s).1 := rfl
  have hclosed : (A.exec answers e s).2.closed = s.closed :=
    (congrArg (s.closed ++ ·) hcloses).trans (List.append_nil _)
  rcases hk (A.exec answers e s).1 with ⟨hnone, hrest⟩ | ⟨h, close, body, hopens, hclose, hbody, hk⟩
  · rw [hnone, List.append_nil] at hopened
    exact (Ledger.Conserved.of_eq hopened hclosed).trans (hrest answers _ hend)
  · rw [hk] at hend ⊢
    obtain ⟨hbody', hclose', hrun⟩ := run_withResource_cases hend
    obtain ⟨o, c, ho, hc, hperm⟩ := hbody answers _ hbody'
    obtain ⟨ho', hc'⟩ := hclose answers _ hclose'
    rw [hopens] at hopened
    refine ⟨h :: o, c ++ [h], ?_, ?_, ?_⟩
    · rw [hrun, ho', ho, hopened, List.append_assoc]
      rfl
    · rw [hrun, hc', hc, hclosed, List.append_assoc]
    · exact (List.perm_append_singleton h c).trans (hperm.cons h)

end Accounting

end Lib

end SambaProvider

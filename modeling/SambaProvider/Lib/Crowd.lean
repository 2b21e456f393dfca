import SambaProvider.Lib.Run
import SambaProvider.Lib.Stays

/-!
# Many programs at once

Any number of programs run side by side on one state. A program is started
for a job, a step carries out the next effect of one of the programs, and
every program keeps a record of its own of what it has been answered. What
a program keeps of its record whatever it is answered, it keeps in company;
and what has become of the state is accounted for by the records, where
every single effect is.
-/

namespace SambaProvider

namespace Lib

variable {E : Type} {R : E → Type} {ε α J L σ β : Type}

/-- A program that was started: its job, its record, and what is left of
it. -/
structure Worker (E : Type) (R : E → Type) (ε α J L : Type) where
  job : J
  record : L
  rest : Prog E R ε α

/-- The programs that were started, and the state they share. -/
structure Crowd (E : Type) (R : E → Type) (ε α J L σ : Type) where
  workers : List (Worker E R ε α J L)
  state : σ

namespace Crowd

/-- A program is started for a job, or one that was started goes on. -/
inductive Act (J : Type)
  | start (j : J)
  | goOn (i : ℕ)

/-- One step: an effect is answered as the state allows, and noted. -/
def Step (body : J → Prog E R ε α) (fresh : L) (note : (e : E) → L → R e → L)
    (serve : (e : E) → σ → R e → σ → Prop) :
    Crowd E R ε α J L σ → Act J → Crowd E R ε α J L σ → Prop
  | c, .start j, d => d = ⟨c.workers ++ [⟨j, fresh, body j⟩], c.state⟩
  | c, .goOn i, d =>
    ∃ j l e k a s, c.workers[i]? = some ⟨j, l, .act e k⟩ ∧ serve e c.state a s ∧
      d = ⟨c.workers.set i ⟨j, note e l a, k a⟩, s⟩

/-- Nothing was started. -/
def Init (s : σ) (c : Crowd E R ε α J L σ) : Prop := c = ⟨[], s⟩

/-- The record after an effect, as a step of the record alone. -/
def Noted (note : (e : E) → L → R e → L) (e : E) (l : L) (a : R e) (l' : L) : Prop :=
  l' = note e l a

variable {body : J → Prog E R ε α} {fresh : L} {note : (e : E) → L → R e → L}
  {serve : (e : E) → σ → R e → σ → Prop} {ok : Crowd E R ε α J L σ → Act J → Prop}
  {I : J → L → Prop} {P : J → α → L → Prop} {c : Crowd E R ε α J L σ} {s : σ}

/-- A worker keeps to what its program does with its record alone. -/
def Follows (note : (e : E) → L → R e → L) (I : J → L → Prop) (P : J → α → L → Prop)
    (w : Worker E R ε α J L) : Prop :=
  I w.job w.record ∧ w.rest.Stays (Noted note) (I w.job) (fun _ => True) (P w.job) w.record

/-- **Every worker keeps its record**, in every interleaving and whatever
the effects are answered, if its program does by itself. -/
theorem follows_of_reached (hfresh : ∀ j, I j fresh)
    (hbody : ∀ j, (body j).Stays (Noted note) (I j) (fun _ => True) (P j) fresh)
    (h : Reached (Step body fresh note serve) ok (Init s) c) :
    ∀ w ∈ c.workers, Follows note I P w := by
  refine h.inv (I := fun c => ∀ w ∈ c.workers, Follows note I P w) ?_ ?_
  · rintro _ rfl
    exact nofun
  · rintro c (j | i) d hc - hstep
    · obtain rfl := hstep
      intro w hw
      rcases List.mem_append.mp hw with hw | hw
      · exact hc w hw
      · obtain rfl := List.mem_singleton.mp hw
        exact ⟨hfresh j, hbody j⟩
    · obtain ⟨j, l, e, k, a, t, hi, -, rfl⟩ := hstep
      intro w hw
      rcases List.mem_or_eq_of_mem_set hw with hw | rfl
      · exact hc w hw
      · exact (hc _ (List.mem_of_getElem? hi)).2 a _ rfl

/-- Only the worker that goes on is replaced. -/
theorem eq_or_mem_set {ws : List β} {w x y : β} {i : ℕ} (hi : ws[i]? = some x) (hw : w ∈ ws) :
    w = x ∨ w ∈ ws.set i y := by
  obtain ⟨m, hm, rfl⟩ := List.mem_iff_getElem.mp hw
  by_cases heq : i = m
  · subst heq
    obtain ⟨_, hget⟩ := List.getElem?_eq_some_iff.mp hi
    exact .inl hget
  · refine .inr (List.mem_iff_getElem.mpr ⟨m, ?_, List.getElem_set_ne heq _⟩)
    rwa [List.length_set]

/-- **A change of the state is accounted for.** What holds at the start and
is kept by every effect that its record does not account for, holds unless
the record of some worker accounts for it. `I` is what a record keeps, and
what a record accounts for it accounts for ever after. -/
theorem exists_of_reached {K : σ → Prop} {C : J → L → Prop} (hfresh : ∀ j, I j fresh)
    (hbody : ∀ j, (body j).Stays (Noted note) (I j) (fun _ => True) (P j) fresh)
    (hmono : ∀ j e l a, C j l → C j (note e l a))
    (hkeep : ∀ j e l a t t', I j (note e l a) → ¬ C j (note e l a) → serve e t a t' →
      K t → K t')
    (hs : K s) (h : Reached (Step body fresh note serve) ok (Init s) c) :
    K c.state ∨ ∃ w ∈ c.workers, C w.job w.record := by
  induction h with
  | start hinit =>
    obtain rfl := hinit
    exact .inl hs
  | @next c d act hc hstep _ ih =>
    rcases act with j | i
    · obtain rfl := hstep
      rcases ih with hK | ⟨w, hw, haccounts⟩
      · exact .inl hK
      · exact .inr ⟨w, List.mem_append_left _ hw, haccounts⟩
    · obtain ⟨j, l, e, k, a, t, hi, hserve, rfl⟩ := hstep
      have hfollows := (follows_of_reached hfresh hbody hc _ (List.mem_of_getElem? hi)).2 a _ rfl
      have hlt : i < c.workers.length := (List.getElem?_eq_some_iff.mp hi).1
      have hnew : (⟨j, note e l a, k a⟩ : Worker E R ε α J L) ∈
          c.workers.set i ⟨j, note e l a, k a⟩ := List.mem_set hlt _
      -- either the effect is accounted for by the record it is noted in, or it keeps `K`
      by_cases hnewly : C j (note e l a)
      · exact .inr ⟨_, hnew, hnewly⟩
      · rcases ih with hK | ⟨w, hw, haccounts⟩
        · exact .inl (hkeep j e l a _ t hfollows.1 hnewly hserve hK)
        · rcases eq_or_mem_set hi hw with rfl | hleft
          · exact absurd (hmono j e l a haccounts) hnewly
          · exact .inr ⟨w, hleft, haccounts⟩

/-! ## Single runs -/

/-- One step, where every effect is answered in one way. -/
def next (body : J → Prog E R ε α) (fresh : L) (note : (e : E) → L → R e → L)
    (exec : (e : E) → σ → R e × σ) (c : Crowd E R ε α J L σ) :
    Act J → Option (Crowd E R ε α J L σ)
  | .start j => some ⟨c.workers ++ [⟨j, fresh, body j⟩], c.state⟩
  | .goOn i => match c.workers[i]? with
    | some ⟨j, l, .act e k⟩ =>
      some ⟨c.workers.set i ⟨j, note e l (exec e c.state).1, k (exec e c.state).1⟩,
        (exec e c.state).2⟩
    | _ => none

variable {exec : (e : E) → σ → R e × σ} {d : Crowd E R ε α J L σ} {as : List (Act J)}

theorem step_of_next (hexec : ∀ e t, serve e t (exec e t).1 (exec e t).2) {act : Act J}
    (h : next body fresh note exec c act = some d) : Step body fresh note serve c act d := by
  rcases act with j | i
  · exact (Option.some.inj h).symm
  · simp only [next] at h
    split at h
    · rename_i j l e k hi
      exact ⟨j, l, e, k, _, _, hi, hexec e c.state, (Option.some.inj h).symm⟩
    · cases h

/-- **A schedule that can be carried out is a run.** -/
theorem reached_of_foldlM (hexec : ∀ e t, serve e t (exec e t).1 (exec e t).2)
    (h : as.foldlM (next body fresh note exec) ⟨[], s⟩ = some c) :
    Reached (Step body fresh note serve) (fun _ _ => True) (Init s) c := by
  have hrun : Reached (fun c act d => next body fresh note exec c act = some d)
      (fun _ _ => True) (Init s) c := Reached.foldlM (.start rfl) h
  clear h
  induction hrun with
  | start h => exact .start h
  | next _ hstep _ ih => exact ih.next (step_of_next hexec hstep) trivial

end Crowd

end Lib

end SambaProvider

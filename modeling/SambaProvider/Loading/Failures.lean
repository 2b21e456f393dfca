import Mathlib.Data.List.Basic
import Mathlib.Logic.Function.Basic
import SambaProvider.Base.Exn
import SambaProvider.Lib.Run

/-!
# Stored failures

`DocumentCache` keeps, for one URI, the metadata and the exception of the
last load that failed, in two concurrent maps. The calls that use them are
several operations of the maps each, and any number of threads make them.
An exception is stored by one operation and looked for, read and removed by
three; storing metadata leaves it where it is.
-/

namespace SambaProvider

open Lib

/-- How far a thread is with a call, by what it does next. -/
inductive QueryStage
  | idle
  /-- `queryChildDocuments`: `mCache.get`, of the URI of a server. -/
  | lookUpServer
  /-- `mCache.put`, of the metadata of a server. -/
  | putServer
  /-- `mCache.get`. -/
  | lookUp
  /-- `throwLastExceptionIfAny`: `mExceptionCache.containsKey`. -/
  | containsKey
  /-- `mExceptionCache.get`. -/
  | get
  /-- `mExceptionCache.remove`. -/
  | remove (e : Option ℕ)
  /-- `throw e`. -/
  | throwing (e : Option ℕ)
  /-- `DocumentCache.remove`: `mExceptionCache.remove`. -/
  | removeFailure
deriving DecidableEq

/-- The call has read `e`, and will throw it. -/
def QueryStage.Holds (stage : QueryStage) (e : Option ℕ) : Prop :=
  stage = .remove e ∨ stage = .throwing e

/-- What `throwLastExceptionIfAny` has thrown: an exception, or that of
throwing `null`; and how many were stored when metadata was last put. -/
structure Report where
  thrown : Option ℕ
  beforePut : ℕ

/-- The maps at one URI, and the threads. An exception is known by how many
were stored before it. -/
structure Failures (T : Type) where
  mCache : Bool := false
  mExceptionCache : Option ℕ := none
  stage : T → QueryStage := fun _ => .idle
  /-- The exceptions that were stored, -/
  stored : List Exn := []
  /-- how many of them when metadata was last put, -/
  beforePut : ℕ := 0
  /-- and what was thrown. -/
  reports : List Report := []

namespace Failures

variable {T : Type} [DecidableEq T]

/-- What a thread does. -/
inductive Act (T : Type)
  /-- It begins `queryChildDocuments`. -/
  | query (t : T)
  /-- `DocumentCache.put` of metadata: `onSucceeded`, `onCancelled`, or any
  other caller. -/
  | put (t : T)
  /-- `DocumentCache.put` of an exception: `onFailed`. -/
  | putException (t : T) (e : Exn)
  /-- `DocumentCache.remove`: `mCache.remove`. -/
  | remove (t : T)
  /-- Its call goes on. -/
  | next (t : T)

/-- Thread `t` goes on to another operation. -/
def goTo (s : Failures T) (t : T) (stage : QueryStage) : Failures T :=
  { s with stage := Function.update s.stage t stage }

/-- `mCache.put`. -/
def putMetadata (s : Failures T) : Failures T :=
  { s with mCache := true, beforePut := s.stored.length }

/-- The next operation of a call; `isServer` says whether the URI is that
of a server. -/
def next (s : Failures T) (t : T) : Failures T :=
  match s.stage t with
  | .idle => s
  | .lookUpServer => s.goTo t (if s.mCache then .lookUp else .putServer)
  | .putServer => s.putMetadata.goTo t .lookUp
  | .lookUp => s.goTo t (if s.mCache then .idle else .containsKey)
  | .containsKey => s.goTo t (if s.mExceptionCache.isSome then .get else .idle)
  | .get => s.goTo t (.remove s.mExceptionCache)
  | .remove e => { s with mExceptionCache := none }.goTo t (.throwing e)
  | .throwing e => { s with reports := s.reports ++ [Report.mk e s.beforePut] }.goTo t .idle
  | .removeFailure => { s with mExceptionCache := none }.goTo t .idle

variable (isServer : Bool)

/-- One step of one thread. -/
def step (s : Failures T) : Act T → Option (Failures T)
  | .query t =>
    if s.stage t = .idle then some (s.goTo t (if isServer then .lookUpServer else .lookUp))
    else none
  | .put t => if s.stage t = .idle then some s.putMetadata else none
  | .putException t e =>
    if s.stage t = .idle then
      some { s with mExceptionCache := some s.stored.length, stored := s.stored ++ [e] }
    else none
  | .remove t =>
    if s.stage t = .idle then some ({ s with mCache := false }.goTo t .removeFailure) else none
  | .next t => if s.stage t = .idle then none else some (s.next t)

/-- **Failures are reported faithfully**: what is thrown was stored, and not
before metadata was last put. -/
def Faithful (s : Failures T) : Prop :=
  ∀ r ∈ s.reports, ∃ e, r.thrown = some e ∧ e < s.stored.length ∧ r.beforePut ≤ e

/-! ## The condition -/

/-- An exception waits to be thrown, in the map or in a call. -/
def Pending (s : Failures T) (e : ℕ) : Prop :=
  s.mExceptionCache = some e ∨ ∃ t, (s.stage t).Holds (some e)

/-- An exception is removed only where no other call has found one and not
yet read it, and metadata is put only where none waits to be thrown. -/
def Careful (s : Failures T) : Act T → Prop
  | .put _ => ∀ e, ¬ s.Pending e
  | .next t =>
    match s.stage t with
    | .putServer => ∀ e, ¬ s.Pending e
    | .remove _ | .removeFailure => ∀ u, s.stage u ≠ .get
    | _ => True
  | _ => True

/-- The invariant. -/
structure Inv (s : Failures T) : Prop where
  /-- What a call has found is still there, -/
  found : ∀ t, s.stage t = .get → s.mExceptionCache ≠ none
  /-- what it has read is an exception, -/
  read : ∀ t, ¬ (s.stage t).Holds none
  /-- and what waits to be thrown was stored since metadata was put. -/
  pending : ∀ e, s.Pending e → s.beforePut ≤ e ∧ e < s.stored.length
  counted : s.beforePut ≤ s.stored.length
  faithful : s.Faithful

variable {isServer} {s s' : Failures T} {a : Act T} {t u : T} {stage : QueryStage}

omit [DecidableEq T] in
theorem Inv.init : Inv ({} : Failures T) := by
  constructor <;> simp [Faithful, Pending, QueryStage.Holds]

/-! ## The operations -/

theorem stage_goTo : (s.goTo t stage).stage u = if u = t then stage else s.stage u :=
  Function.update_apply ..

/-- A call goes on, and the maps stay as they are. -/
theorem Inv.goTo (h : Inv s) (hfound : stage = .get → s.mExceptionCache ≠ none)
    (hholds : ∀ e, stage.Holds e → ∃ x, e = some x ∧ s.Pending x) : Inv (s.goTo t stage) where
  found u hu := by
    rw [stage_goTo] at hu
    split at hu
    · exact hfound hu
    · exact h.found u hu
  read u hu := by
    rw [stage_goTo] at hu
    split at hu
    · obtain ⟨x, hx, -⟩ := hholds none hu
      cases hx
    · exact h.read u hu
  pending e he := by
    refine h.pending e ?_
    rcases he with hcache | ⟨u, hu⟩
    · exact .inl hcache
    · rw [stage_goTo] at hu
      split at hu
      · obtain ⟨x, hx, hpending⟩ := hholds _ hu
        cases hx
        exact hpending
      · exact .inr ⟨u, hu⟩
  counted := h.counted
  faithful := h.faithful

/-- Nothing that is not holding an exception has to be asked more. -/
theorem Inv.goTo_plain (h : Inv s) (hget : stage ≠ .get) (hholds : ∀ e, ¬ stage.Holds e) :
    Inv (s.goTo t stage) :=
  h.goTo (fun heq => absurd heq hget) fun e he => absurd he (hholds e)

omit [DecidableEq T] in
/-- Metadata is put where nothing waits to be thrown. -/
theorem Inv.putMetadata (h : Inv s) (hnone : ∀ e, ¬ s.Pending e) : Inv s.putMetadata where
  found := h.found
  read := h.read
  pending e he := absurd he (hnone e)
  counted := Nat.le_refl _
  faithful := h.faithful

omit [DecidableEq T] in
/-- An exception is removed where no call has found it. -/
theorem Inv.removeException (h : Inv s) (hget : ∀ u, s.stage u ≠ .get) :
    Inv { s with mExceptionCache := none } where
  found u hu := absurd hu (hget u)
  read := h.read
  pending e he := by
    rcases he with hcache | hheld
    · cases hcache
    · exact h.pending e (.inr hheld)
  counted := h.counted
  faithful := h.faithful

omit [DecidableEq T] in
/-- An exception is stored. -/
theorem Inv.putException (h : Inv s) (e : Exn) :
    Inv { s with mExceptionCache := some s.stored.length, stored := s.stored ++ [e] } where
  found u _ := Option.some_ne_none _
  read := h.read
  pending x hx := by
    rw [List.length_append]
    rcases hx with hcache | hheld
    · obtain rfl := Option.some.inj hcache
      exact ⟨h.counted, Nat.lt_succ_self _⟩
    · obtain ⟨hle, hlt⟩ := h.pending x (.inr hheld)
      exact ⟨hle, Nat.lt_succ_of_lt hlt⟩
  counted := by
    rw [List.length_append]
    exact Nat.le_succ_of_le h.counted
  faithful r hr := by
    obtain ⟨x, hx, hlt, hle⟩ := h.faithful r hr
    refine ⟨x, hx, ?_, hle⟩
    rw [List.length_append]
    exact Nat.lt_succ_of_lt hlt

omit [DecidableEq T] in
/-- **What is thrown** was waiting. -/
theorem Inv.report (h : Inv s) {e : Option ℕ} (he : s.stage t = .throwing e) :
    Inv { s with reports := s.reports ++ [Report.mk e s.beforePut] } where
  found := h.found
  read := h.read
  pending := h.pending
  counted := h.counted
  faithful r hr := by
    rcases List.mem_append.mp hr with hr | hr
    · exact h.faithful r hr
    · obtain rfl := List.mem_singleton.mp hr
      cases e with
      | none => exact absurd (.inr he) (h.read t)
      | some x =>
        obtain ⟨hle, hlt⟩ := h.pending x (.inr ⟨t, .inr he⟩)
        exact ⟨x, rfl, hlt, hle⟩

/-! ## The steps -/

/-- An operation of a call. -/
theorem Inv.next (h : Inv s) (hok : s.Careful (.next t)) : Inv (s.next t) := by
  have hplain {s : Failures T} {stage : QueryStage} (h : Inv s) (hget : stage ≠ .get)
      (hremove : ∀ e, stage ≠ .remove e) (hthrow : ∀ e, stage ≠ .throwing e) :
      Inv (s.goTo t stage) :=
    h.goTo_plain hget fun e he => he.elim (hremove e) (hthrow e)
  unfold Failures.next
  cases hstage : s.stage t with
  | idle => exact h
  | lookUpServer =>
    simp only
    split <;> exact hplain h (by simp) (by simp) (by simp)
  | putServer =>
    simp only [Careful, hstage] at hok
    exact hplain (h.putMetadata hok) (by simp) (by simp) (by simp)
  | lookUp =>
    simp only
    split <;> exact hplain h (by simp) (by simp) (by simp)
  | containsKey =>
    simp only
    split
    · rename_i hsome
      refine h.goTo (fun _ hnone => by simp [hnone] at hsome) fun e he => ?_
      rcases he with he | he <;> cases he
    · exact hplain h (by simp) (by simp) (by simp)
  | get =>
    refine h.goTo (fun heq => by cases heq) fun e he => ?_
    obtain ⟨x, hx⟩ := Option.ne_none_iff_exists'.mp (h.found t hstage)
    refine ⟨x, ?_, .inl hx⟩
    rcases he with he | he
    · exact (QueryStage.remove.inj he).symm.trans hx
    · cases he
  | remove e =>
    simp only [Careful, hstage] at hok
    refine (h.removeException hok).goTo (fun heq => by cases heq) fun e' he' => ?_
    rcases he' with he' | he'
    · cases he'
    · cases he'
      cases e with
      | none => exact absurd (.inl hstage) (h.read t)
      | some x => exact ⟨x, rfl, .inr ⟨t, .inl hstage⟩⟩
  | throwing e => exact hplain (h.report hstage) (by simp) (by simp) (by simp)
  | removeFailure =>
    simp only [Careful, hstage] at hok
    exact hplain (h.removeException hok) (by simp) (by simp) (by simp)

/-- **Every careful step keeps the invariant.** -/
theorem Inv.step (h : Inv s) (hok : s.Careful a) (hs : s.step isServer a = some s') : Inv s' := by
  cases a <;> simp only [Failures.step] at hs <;> split at hs <;> cases hs
  case query t hidle =>
    split <;> exact h.goTo_plain (by simp) (by simp [QueryStage.Holds])
  case put t hidle => exact h.putMetadata hok
  case putException t e hidle => exact h.putException e
  case remove t hidle =>
    have h' : Inv { s with mCache := false } :=
      ⟨h.found, h.read, h.pending, h.counted, h.faithful⟩
    exact h'.goTo_plain (by simp) (by simp [QueryStage.Holds])
  case next t hidle => exact h.next hok

/-! ## The result -/

/-- **Failures are reported faithfully** in the runs whose steps are
careful. -/
theorem faithful_of_reached (isServer : Bool)
    (h : Reached (fun s a s' => s.step isServer a = some s') Careful (· = {}) s) : Faithful s :=
  (h.inv (I := Inv) (by rintro s rfl; exact .init) fun _ _ _ hI hok hs => hI.step hok hs).faithful

/-- A load fails, and the next query throws what was stored. -/
theorem faithful_nextQuery :
    ∃ s : Failures Bool, s.reports.map Report.thrown = [some 0] ∧ Faithful s := by
  have h : Reached (fun s a s' => step false s a = some s') Careful (· = {}) ({} : Failures Bool) :=
    .start rfl
  have h := h.next (a := Act.query true) rfl trivial
  have h := h.next (a := Act.next true) rfl trivial
  have h := h.next (a := Act.next true) rfl trivial
  have h := h.next (a := Act.putException false ⟨.ioException, "timeout"⟩) rfl trivial
  have h := h.next (a := Act.query true) rfl trivial
  have h := h.next (a := Act.next true) rfl trivial
  have h := h.next (a := Act.next true) rfl trivial
  have h := h.next (a := Act.next true) rfl trivial
  have h := h.next (a := Act.next true) rfl fun u hu => by cases u <;> cases hu
  have h := h.next (a := Act.next true) rfl trivial
  exact ⟨_, rfl, faithful_of_reached false h⟩

/-- **Two queries race** for one exception: the one that comes second throws
`null`. And a failure that was stored before metadata was put is thrown to a
query that comes between the two operations of `remove`. -/
theorem not_faithful_race :
    (∃ s : Failures Bool, Reached (fun s a s' => step false s a = some s') (fun _ _ => True)
      (· = {}) s ∧ s.reports.map Report.thrown = [some 0, none] ∧ ¬ Faithful s) ∧
    (∃ s : Failures Bool, Reached (fun s a s' => step false s a = some s') (fun _ _ => True)
      (· = {}) s ∧ s.reports = [⟨some 0, 1⟩] ∧ ¬ Faithful s) := by
  have h : Reached (fun s a s' => step false s a = some s') (fun _ _ => True) (· = {})
      ({} : Failures Bool) := .start rfl
  have h := h.next (a := Act.putException false ⟨.ioException, "timeout"⟩) rfl trivial
  constructor
  · have h := h.next (a := Act.query false) rfl trivial
    have h := h.next (a := Act.query true) rfl trivial
    have h := h.next (a := Act.next false) rfl trivial
    have h := h.next (a := Act.next true) rfl trivial
    have h := h.next (a := Act.next false) rfl trivial
    have h := h.next (a := Act.next true) rfl trivial
    have h := h.next (a := Act.next false) rfl trivial
    have h := h.next (a := Act.next false) rfl trivial
    have h := h.next (a := Act.next true) rfl trivial
    have h := h.next (a := Act.next true) rfl trivial
    have h := h.next (a := Act.next false) rfl trivial
    have h := h.next (a := Act.next true) rfl trivial
    refine ⟨_, h, rfl, fun hfaithful => ?_⟩
    obtain ⟨e, he, -⟩ := hfaithful ⟨none, 0⟩ (.tail _ (.head _))
    cases he
  · have h := h.next (a := Act.put false) rfl trivial
    have h := h.next (a := Act.remove false) rfl trivial
    have h := h.next (a := Act.query true) rfl trivial
    have h := h.next (a := Act.next true) rfl trivial
    have h := h.next (a := Act.next true) rfl trivial
    have h := h.next (a := Act.next true) rfl trivial
    have h := h.next (a := Act.next true) rfl trivial
    have h := h.next (a := Act.next true) rfl trivial
    refine ⟨_, h, rfl, fun hfaithful => ?_⟩
    obtain ⟨e, he, hlt, hle⟩ := hfaithful ⟨some 0, 1⟩ (.head _)
    cases he
    exact absurd hle (by decide)

end Failures

end SambaProvider

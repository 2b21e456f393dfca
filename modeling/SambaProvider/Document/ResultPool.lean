import Mathlib.Data.List.Basic
import Mathlib.Logic.Function.Basic
import SambaProvider.Lib.Run

/-!
# The pool of cache results

`CacheResult.java`: `obtain` takes an instance from a pool of ten, or
makes one, and `close` gives it back. Any number of calls obtain and close
results at once, and between the accesses to the fields and to the pool
any other call may take its steps. The instances never get mixed up. But
the pool does not take an eleventh one back, and in a debug build `close`
then throws.
-/

namespace SambaProvider

open Lib

/-- The states of a cache result. -/
inductive CacheState
  | miss
  | hit
  | expired
deriving DecidableEq, Repr

/-- The fields of a `CacheResult`. -/
structure ResultFields (Item : Type*) where
  mState : CacheState
  mItem : Option Item

/-- How far a call is with its result: what it was given, and what it has
done of `obtain` and of `close`. One that obtains several results counts
once for each. -/
inductive Phase (Item : Type*)
  | ready
  /-- `POOL.acquire()` has returned, or an instance was made. -/
  | acquired (r : ℕ) (given : ResultFields Item)
  | stateSet (r : ℕ) (given : ResultFields Item)
  /-- `obtain` has returned. -/
  | held (r : ℕ) (given : ResultFields Item)
  | stateCleared (r : ℕ)
  | itemCleared (r : ℕ)
  | closed
  /-- `close` has thrown: "One item is not enough!" -/
  | threw

/-- The instance a call is working with. -/
def Phase.result {Item : Type*} : Phase Item → Option ℕ
  | .acquired r _ | .stateSet r _ | .held r _ | .stateCleared r | .itemCleared r => some r
  | .ready | .closed | .threw => none

/-- What a call may rely on in its phase. -/
def Phase.Reads {Item : Type*} (p : Phase Item) (fields : ℕ → ResultFields Item) : Prop :=
  match p with
  | .stateSet r given => (fields r).mState = given.mState
  | .held r given => fields r = given
  | .threw => False
  | _ => True

/-- The instances that were made, with their fields, the pool and the
calls. -/
structure ResultPool (Item : Type*) where
  fields : ℕ → ResultFields Item := fun _ => ⟨.miss, none⟩
  made : ℕ := 0
  pool : List ℕ := []
  phase : ℕ → Phase Item := fun _ => .ready

namespace ResultPool

variable {Item : Type*}

/-- The capacity of `POOL`. -/
def capacity : ℕ := 10

/-- The steps of the calls. -/
inductive Act (Item : Type*)
  /-- `POOL.acquire()`: one of the pooled instances; with `none`, and an
  empty pool, a new one. -/
  | acquire (call : ℕ) (given : ResultFields Item) (pooled : Option ℕ)
  | setState (call : ℕ)
  | setItem (call : ℕ)
  | clearState (call : ℕ)
  | clearItem (call : ℕ)
  /-- `POOL.release()`, and the check of its answer. -/
  | release (call : ℕ)

/-- A call goes on to another phase. -/
def goTo (s : ResultPool Item) (call : ℕ) (p : Phase Item) : ResultPool Item :=
  { s with phase := Function.update s.phase call p }

/-- A call writes to the fields of its instance. -/
def write (s : ResultPool Item) (r : ℕ) (f : ResultFields Item) : ResultPool Item :=
  { s with fields := Function.update s.fields r f }

/-- One step, in a debug build or not; an impossible one changes
nothing. -/
def step (debug : Bool) (s : ResultPool Item) : Act Item → ResultPool Item
  | .acquire c given (some r) =>
    match s.phase c with
    | .ready =>
      if r ∈ s.pool then { s.goTo c (.acquired r given) with pool := s.pool.erase r } else s
    | _ => s
  | .acquire c given none =>
    match s.phase c with
    | .ready =>
      if s.pool = [] then { s.goTo c (.acquired s.made given) with made := s.made + 1 } else s
    | _ => s
  | .setState c =>
    match s.phase c with
    | .acquired r given =>
      (s.write r { s.fields r with mState := given.mState }).goTo c (.stateSet r given)
    | _ => s
  | .setItem c =>
    match s.phase c with
    | .stateSet r given =>
      (s.write r { s.fields r with mItem := given.mItem }).goTo c (.held r given)
    | _ => s
  | .clearState c =>
    match s.phase c with
    | .held r _ => (s.write r { s.fields r with mState := .miss }).goTo c (.stateCleared r)
    | _ => s
  | .clearItem c =>
    match s.phase c with
    | .stateCleared r => (s.write r { s.fields r with mItem := none }).goTo c (.itemCleared r)
    | _ => s
  | .release c =>
    match s.phase c with
    | .itemCleared r =>
      if s.pool.length < capacity then { s.goTo c .closed with pool := r :: s.pool }
      else if debug then s.goTo c .threw
      else s.goTo c .closed
    | _ => s

/-- **The results are safe**: no instance is with two calls, a holder
reads what it was given, and no `close` has thrown. -/
structure Safe (s : ResultPool Item) : Prop where
  exclusive : ∀ c c' r, (s.phase c).result = some r → (s.phase c').result = some r → c = c'
  reads : ∀ c r given, s.phase c = .held r given → s.fields r = given
  quiet : ∀ c, s.phase c ≠ .threw

/-- In a debug build nothing is closed while the pool is full. -/
def Fits (debug : Bool) (s : ResultPool Item) : Act Item → Prop
  | .release c => debug = true → (∃ r, s.phase c = .itemCleared r) → s.pool.length < capacity
  | _ => True

variable {debug : Bool} {s : ResultPool Item} {c c' r r' : ℕ} {p : Phase Item}

/-! ## The invariant -/

/-- **The invariant**: an instance is with one call, or in the pool once,
or lost; and every phase is what it should be. -/
structure Inv (s : ResultPool Item) : Prop where
  exclusive : ∀ c c' r, (s.phase c).result = some r → (s.phase c').result = some r → c = c'
  pooled : ∀ c r, (s.phase c).result = some r → r ∉ s.pool
  nodup : s.pool.Nodup
  made : ∀ c r, (s.phase c).result = some r → r < s.made
  pool_made : ∀ r ∈ s.pool, r < s.made
  reads : ∀ c, (s.phase c).Reads s.fields

theorem inv_init : Inv ({} : ResultPool Item) := by
  constructor <;> simp [Phase.result, Phase.Reads]

/-- **The invariant is safe.** -/
theorem Inv.safe (h : Inv s) : Safe s where
  exclusive := h.exclusive
  reads c r given hc := by
    have hreads := h.reads c
    rw [hc] at hreads
    exact hreads
  quiet c hc := by
    have hreads := h.reads c
    rw [hc] at hreads
    exact hreads

/-! ## One call goes on -/

theorem phase_goTo (s : ResultPool Item) (c c' : ℕ) (p : Phase Item) :
    (s.goTo c p).phase c' = if c' = c then p else s.phase c' := Function.update_apply ..

/-- A phase relies on its own instance alone. -/
theorem reads_congr {p : Phase Item} {f f' : ℕ → ResultFields Item}
    (hf : ∀ r, p.result = some r → f' r = f r) (h : p.Reads f) : p.Reads f' := by
  cases p with
  | stateSet r given => exact (congrArg ResultFields.mState (hf r rfl)).trans h
  | held r given => exact (hf r rfl).trans h
  | threw => exact h
  | _ => exact trivial

/-- A call that keeps its instance, and writes to no other. -/
theorem Inv.write (h : Inv s) {f : ResultFields Item} (hc : (s.phase c).result = some r)
    (hp : p.result = some r) (hreads : p.Reads (Function.update s.fields r f)) :
    Inv ((s.write r f).goTo c p) := by
  have hresult (c' : ℕ) : (((s.write r f).goTo c p).phase c').result = (s.phase c').result := by
    rw [phase_goTo]
    split
    · rename_i heq
      rw [hp, heq, hc]
    · rfl
  refine ⟨fun c₁ c₂ r' h₁ h₂ => ?_, fun c' r' hr => ?_, h.nodup, fun c' r' hr => ?_,
    h.pool_made, fun c' => ?_⟩
  · rw [hresult] at h₁ h₂
    exact h.exclusive c₁ c₂ r' h₁ h₂
  · rw [hresult] at hr
    exact h.pooled c' r' hr
  · rw [hresult] at hr
    exact h.made c' r' hr
  · rw [phase_goTo]
    split
    · exact hreads
    · rename_i hne
      refine reads_congr (fun r' hr' => ?_) (h.reads c')
      have hne' : r' ≠ r := by
        rintro rfl
        exact hne (h.exclusive c' c r' hr' hc)
      exact Function.update_of_ne hne' f s.fields

/-- A call that takes an instance nobody has. -/
theorem Inv.take {given : ResultFields Item} {pool : List ℕ} {made : ℕ} (h : Inv s)
    (hr : ∀ c', (s.phase c').result ≠ some r) (hpool : ∀ r' ∈ pool, r' ∈ s.pool ∧ r' ≠ r)
    (hnodup : pool.Nodup) (hmade : s.made ≤ made) (hlt : r < made) :
    Inv { s.goTo c (.acquired r given) with pool := pool, made := made } := by
  have hresult (c' r' : ℕ) : ((s.goTo c (.acquired r given)).phase c').result = some r' →
      c' = c ∧ r' = r ∨ c' ≠ c ∧ (s.phase c').result = some r' := by
    rw [phase_goTo]
    split
    · rename_i heq
      exact fun hsome => .inl ⟨heq, (Option.some.inj hsome).symm⟩
    · rename_i hne
      exact fun hsome => .inr ⟨hne, hsome⟩
  refine ⟨fun c₁ c₂ r' h₁ h₂ => ?_, fun c' r' hc' hmem => ?_, hnodup, fun c' r' hc' => ?_,
    fun r' hr' => ?_, fun c' => ?_⟩
  · rcases hresult c₁ r' h₁ with ⟨heq₁, hr₁⟩ | ⟨-, hold₁⟩ <;>
      rcases hresult c₂ r' h₂ with ⟨heq₂, hr₂⟩ | ⟨-, hold₂⟩
    · exact heq₁.trans heq₂.symm
    · exact absurd (hr₁ ▸ hold₂) (hr c₂)
    · exact absurd (hr₂ ▸ hold₁) (hr c₁)
    · exact h.exclusive c₁ c₂ r' hold₁ hold₂
  · rcases hresult c' r' hc' with ⟨-, rfl⟩ | ⟨-, hc'⟩
    · exact (hpool r' hmem).2 rfl
    · exact h.pooled c' r' hc' (hpool r' hmem).1
  · rcases hresult c' r' hc' with ⟨-, rfl⟩ | ⟨-, hc'⟩
    · exact hlt
    · exact Nat.lt_of_lt_of_le (h.made c' r' hc') hmade
  · exact Nat.lt_of_lt_of_le (h.pool_made r' (hpool r' hr').1) hmade
  · change ((s.goTo c (.acquired r given)).phase c').Reads s.fields
    rw [phase_goTo]
    split
    · exact trivial
    · exact h.reads c'

/-- A call that gives its instance up, to the pool or not. -/
theorem Inv.give {pool : List ℕ} (h : Inv s) (hc : (s.phase c).result = some r)
    (hpool : ∀ r' ∈ pool, r' = r ∨ r' ∈ s.pool) (hnodup : pool.Nodup) :
    Inv { s.goTo c .closed with pool := pool } := by
  have hresult (c' r' : ℕ) : ((s.goTo c .closed).phase c').result = some r' →
      c' ≠ c ∧ (s.phase c').result = some r' := by
    rw [phase_goTo]
    split
    · exact fun hsome => by cases hsome
    · rename_i hne
      exact fun hsome => ⟨hne, hsome⟩
  refine ⟨fun c₁ c₂ r' h₁ h₂ => ?_, fun c' r' hc' hmem => ?_, hnodup, fun c' r' hc' => ?_,
    fun r' hr' => ?_, fun c' => ?_⟩
  · exact h.exclusive c₁ c₂ r' (hresult c₁ r' h₁).2 (hresult c₂ r' h₂).2
  · obtain ⟨hne, hc'⟩ := hresult c' r' hc'
    rcases hpool r' hmem with rfl | hmem
    · exact hne (h.exclusive c' c r' hc' hc)
    · exact h.pooled c' r' hc' hmem
  · exact h.made c' r' (hresult c' r' hc').2
  · rcases hpool r' hr' with rfl | hr'
    · exact h.made c r' hc
    · exact h.pool_made r' hr'
  · change ((s.goTo c .closed).phase c').Reads s.fields
    rw [phase_goTo]
    split
    · exact trivial
    · exact h.reads c'

/-! ## The steps -/

/-- `POOL.acquire()` keeps the invariant. -/
theorem Inv.acquire {given : ResultFields Item} {pooled : Option ℕ} (h : Inv s) :
    Inv (step debug s (.acquire c given pooled)) := by
  cases pooled with
  | some r =>
    simp only [step]
    split
    · split_ifs with hmem
      · refine h.take (fun c' hc' => h.pooled c' r hc' hmem) (fun r' hr' => ?_)
          (h.nodup.erase r) (Nat.le_refl _) (h.pool_made r hmem)
        exact ⟨List.mem_of_mem_erase hr', ((h.nodup.mem_erase_iff).mp hr').1⟩
      · exact h
    · exact h
  | none =>
    simp only [step]
    split
    · split_ifs
      · -- a new instance is with nobody, and not in the pool
        refine h.take (fun c' hc' => Nat.lt_irrefl _ (h.made c' _ hc')) (fun r' hr' => ?_)
          h.nodup (Nat.le_succ _) (Nat.lt_succ_self _)
        exact ⟨hr', Nat.ne_of_lt (h.pool_made r' hr')⟩
      · exact h
    · exact h

/-- `POOL.release()` keeps the invariant where it fits. -/
theorem Inv.release (h : Inv s) (hfits : Fits debug s (.release c)) :
    Inv (step debug s (.release c)) := by
  simp only [step]
  split
  · rename_i r hphase
    have hc : (s.phase c).result = some r := by rw [hphase]; rfl
    split_ifs with hroom hdebug
    · refine h.give hc (fun r' hr' => ?_) (List.nodup_cons.mpr ⟨h.pooled c r hc, h.nodup⟩)
      exact List.mem_cons.mp hr'
    · exact absurd (hfits hdebug ⟨r, hphase⟩) hroom
    · exact h.give hc (fun r' hr' => .inr hr') h.nodup
  · exact h

/-- **Every step that fits keeps the invariant.** -/
theorem Inv.step {a : Act Item} (h : Inv s) (hfits : Fits debug s a) : Inv (step debug s a) := by
  cases a with
  | acquire c given pooled => exact h.acquire
  | setState c =>
    simp only [ResultPool.step]
    split
    · rename_i r given hphase
      refine h.write (by rw [hphase]; rfl) rfl ?_
      simp [Phase.Reads]
    · exact h
  | setItem c =>
    simp only [ResultPool.step]
    split
    · rename_i r given hphase
      -- the state is still the one the call wrote before
      have hstate : (s.fields r).mState = given.mState := by
        have hreads := h.reads c
        rw [hphase] at hreads
        exact hreads
      refine h.write (by rw [hphase]; rfl) rfl ?_
      simp [Phase.Reads, hstate]
    · exact h
  | clearState c =>
    simp only [ResultPool.step]
    split
    · rename_i r given hphase
      exact h.write (by rw [hphase]; rfl) rfl trivial
    · exact h
  | clearItem c =>
    simp only [ResultPool.step]
    split
    · rename_i r hphase
      exact h.write (by rw [hphase]; rfl) rfl trivial
    · exact h
  | release c => exact h.release hfits

/-- A release that does not fit throws. -/
theorem fits_of_safe {a : Act Item} (h : Safe (ResultPool.step debug s a)) : Fits debug s a := by
  cases a with
  | release c =>
    rintro rfl ⟨r, hphase⟩
    by_contra hroom
    refine h.quiet c ?_
    simp only [ResultPool.step, hphase, if_neg hroom, if_true]
    rw [phase_goTo, if_pos rfl]
  | _ => exact trivial

/-- **The results are safe** in every state of a run, whatever the calls do
and however their steps are interleaved, exactly where in a debug build
nothing is closed while the pool is full. -/
theorem safe_iff (debug : Bool) (as : List (Act Item)) :
    EveryState (ResultPool.step debug) Safe {} as ↔
      EveryStep (ResultPool.step debug) (Fits debug) {} as :=
  everyState_iff_everyStep (fun _ _ h hfits => h.step hfits) (fun _ h => h.safe)
    (fun _ _ _ h => fits_of_safe h) inv_init

/-- Eleven calls each obtain a result, and then close it. -/
def elevenCalls : List (Act Unit) :=
  (List.range 11).flatMap
      (fun c => [.acquire c ⟨.miss, none⟩ none, .setState c, .setItem c]) ++
    (List.range 11).flatMap (fun c => [.clearState c, .clearItem c, .release c])

/-- The last of them throws. -/
theorem not_safe_elevenCalls : ¬ EveryState (ResultPool.step true) Safe {} elevenCalls := by
  intro h
  exact h.last.quiet 10 rfl

end ResultPool

end SambaProvider

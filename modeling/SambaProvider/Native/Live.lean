import Mathlib.Data.List.Basic
import SambaProvider.Native.Facade

/-!
# Which native clients are used

The live clients are the one the facade points at, or none. So a pointer
kept in a file or a directory is live exactly as long as it is the
facade's own, and the operations that use it after a `reset` are the
ones that reach a freed client.
-/

namespace SambaProvider

open Lib

namespace NativeSambaFacade

variable {s : NativeSambaFacade}

/-- Every native call so far was given a live client. -/
def OnlyLive (s : NativeSambaFacade) : Prop := ∀ u ∈ s.passed, u.2 = true

/-- The pointers an operation takes from the object it is called on. -/
def objectPointers (s : NativeSambaFacade) : LooperOp → List ℕ
  | .file i m => (s.files[i]?.map fun f => (m.run f).2).getD []
  | .dir i m => (s.dirs[i]?.map fun d => (m.run d).2).getD []
  | _ => []

/-- The operation uses no client but the facade's. -/
def UsesCurrent (s : NativeSambaFacade) (op : LooperOp) : Prop :=
  ∀ p ∈ s.objectPointers op, p = s.mNativeHandler

/-- What the operations keep: the facade's client is the live one, and
nothing was opened without one. -/
structure Wf (s : NativeSambaFacade) : Prop where
  live : s.live = if s.mNativeHandler = 0 then [] else [s.mNativeHandler]
  files : ∀ f ∈ s.files, f.mNativeHandler ≠ 0
  dirs : ∀ d ∈ s.dirs, d.mNativeHandler ≠ 0

theorem Wf.init : Wf {} := ⟨rfl, by simp, by simp⟩

/-- A client that is not the null pointer is live if it is the facade's,
and only then. -/
theorem Wf.mem_live_iff (h : Wf s) {p : ℕ} (hp : p ≠ 0) : p ∈ s.live ↔ p = s.mNativeHandler := by
  rw [h.live]
  split
  · rename_i h0
    simp [h0, hp]
  · simp

theorem Wf.mNativeHandler_mem (h : Wf s) (hi : s.isInitialized = true) :
    s.mNativeHandler ∈ s.live :=
  (h.mem_live_iff (by simpa [isInitialized] using hi)).mpr rfl

theorem Wf.pass (h : Wf s) (ps : List ℕ) : Wf (s.pass ps) := ⟨h.live, h.files, h.dirs⟩

theorem onlyLive_pass {ps : List ℕ} : OnlyLive (s.pass ps) ↔ OnlyLive s ∧ ∀ p ∈ ps, p ∈ s.live := by
  simp only [OnlyLive, NativeSambaFacade.pass, List.mem_append, List.mem_map]
  constructor
  · intro h
    refine ⟨fun u hu => h u (.inl hu), fun p hp => ?_⟩
    simpa using h (p, decide (p ∈ s.live)) (.inr ⟨p, hp, rfl⟩)
  · rintro ⟨h, hps⟩ u (hu | ⟨p, hp, rfl⟩)
    · exact h u hu
    · simpa using hps p hp

/-! ## The facade's own methods -/

theorem call_snd {α : Type} {message : String} {a : Except NativeFailure α} :
    (s.call message a).2 = if s.isInitialized then s.pass [s.mNativeHandler] else s := by
  unfold call
  split <;> rfl

theorem Wf.call {α : Type} (h : Wf s) (message : String) (a : Except NativeFailure α) :
    Wf (s.call message a).2 := by
  rw [call_snd]
  split
  · exact h.pass _
  · exact h

/-- A method of the facade uses a live client, or none. -/
theorem onlyLive_call {α : Type} (h : Wf s) {message : String} {a : Except NativeFailure α} :
    OnlyLive (s.call message a).2 ↔ OnlyLive s := by
  rw [call_snd]
  split
  · rename_i hi
    rw [onlyLive_pass]
    simp [h.mNativeHandler_mem hi]
  · rfl

theorem Wf.reset (h : Wf s) (client : ℕ) : Wf (s.reset client) := by
  have hlive := h.live
  refine ⟨?_, ?_, ?_⟩
  · by_cases h0 : s.mNativeHandler = 0 <;> by_cases hc : client = 0 <;>
      simp [NativeSambaFacade.reset, isInitialized, h0, hc, NativeSambaFacade.pass] at hlive ⊢ <;>
      simp [hlive]
  · by_cases h0 : s.mNativeHandler = 0 <;>
      simpa [NativeSambaFacade.reset, isInitialized, h0, NativeSambaFacade.pass] using h.files
  · by_cases h0 : s.mNativeHandler = 0 <;>
      simpa [NativeSambaFacade.reset, isInitialized, h0, NativeSambaFacade.pass] using h.dirs

/-- `reset` frees a client only once. -/
theorem onlyLive_reset (h : Wf s) {client : ℕ} : OnlyLive (s.reset client) ↔ OnlyLive s := by
  have hpassed : OnlyLive (s.reset client) ↔
      OnlyLive (if s.isInitialized then s.pass [s.mNativeHandler] else s) := by
    unfold NativeSambaFacade.reset OnlyLive
    split <;> rfl
  rw [hpassed]
  split
  · rename_i hi
    simp [onlyLive_pass, h.mNativeHandler_mem hi]
  · rfl

theorem isInitialized_of_call {α : Type} {message : String} {a : Except NativeFailure α} {x : α}
    {s' : NativeSambaFacade} (h : s.call message a = (.ok x, s')) : s'.mNativeHandler ≠ 0 := by
  unfold call at h
  split at h
  · rename_i hi
    simp only [Prod.mk.injEq] at h
    rw [← h.2]
    have h0 : s.mNativeHandler ≠ 0 := by simpa [isInitialized] using hi
    exact h0
  · cases h

theorem Wf.openDir (h : Wf s) (uri : String) (a : Except NativeFailure ℤ) :
    Wf (s.openDir uri a).2 ∧ (OnlyLive (s.openDir uri a).2 ↔ OnlyLive s) := by
  have hwf := h.call ("Failed to read directory " ++ uri) a
  have hlive : OnlyLive (s.call ("Failed to read directory " ++ uri) a).2 ↔ OnlyLive s :=
    onlyLive_call h
  unfold NativeSambaFacade.openDir
  rcases hc : s.call ("Failed to read directory " ++ uri) a with ⟨e | dh, s'⟩
  · rw [hc] at hwf hlive
    exact ⟨hwf, hlive⟩
  · rw [hc] at hwf hlive
    refine ⟨⟨hwf.live, hwf.files, fun d hd => ?_⟩, hlive⟩
    rcases List.mem_append.mp hd with hd | hd
    · exact hwf.dirs d hd
    · rw [List.mem_singleton.mp hd]
      exact isInitialized_of_call hc

theorem Wf.openFile (h : Wf s) (uri : String) (a : Except NativeFailure ℤ) :
    Wf (s.openFile uri a).2 ∧ (OnlyLive (s.openFile uri a).2 ↔ OnlyLive s) := by
  have hwf := h.call ("Failed to open " ++ uri) a
  have hlive : OnlyLive (s.call ("Failed to open " ++ uri) a).2 ↔ OnlyLive s :=
    onlyLive_call h
  unfold NativeSambaFacade.openFile
  rcases hc : s.call ("Failed to open " ++ uri) a with ⟨e | fd, s'⟩
  · rw [hc] at hwf hlive
    exact ⟨hwf, hlive⟩
  · rw [hc] at hwf hlive
    refine ⟨⟨hwf.live, fun f hf => ?_, hwf.dirs⟩, hlive⟩
    rcases List.mem_append.mp hf with hf | hf
    · exact hwf.files f hf
    · rw [List.mem_singleton.mp hf]
      exact isInitialized_of_call hc

theorem Wf.facade (h : Wf s) (m : FacadeMethod) :
    Wf (m.run s) ∧ (OnlyLive (m.run s) ↔ OnlyLive s) := by
  cases m with
  | stat uri a => exact ⟨h.call _ a, onlyLive_call h⟩
  | createFile uri a => exact ⟨h.call _ a, onlyLive_call h⟩
  | mkdir uri a => exact ⟨h.call _ a, onlyLive_call h⟩
  | rename uri newUri a => exact ⟨h.call _ a, onlyLive_call h⟩
  | unlink uri a => exact ⟨h.call _ a, onlyLive_call h⟩
  | rmdir uri a => exact ⟨h.call _ a, onlyLive_call h⟩

/-! ## The methods of open objects -/

/-- **An object keeps its pointer for life**, and uses no other. -/
theorem FileMethod_run (f : SambaFile) (m : FileMethod) :
    (m.run f).1.mNativeHandler = f.mNativeHandler ∧
      ∀ p ∈ (m.run f).2, p = f.mNativeHandler := by
  cases m with
  | read a => cases a <;> simp [FileMethod.run, SambaFile.read]
  | write a => cases a <;> simp [FileMethod.run, SambaFile.write]
  | seek offset a =>
    cases a <;> simp only [FileMethod.run, SambaFile.seek] <;> split <;> simp
  | fstat a => simp [FileMethod.run, SambaFile.fstat]
  | close a => simp [FileMethod.run, SambaFile.close]

theorem DirMethod_run (d : SambaDir) (m : DirMethod) :
    (m.run d).1.mNativeHandler = d.mNativeHandler ∧
      ∀ p ∈ (m.run d).2, p = d.mNativeHandler := by
  cases m with
  | readDir a => simp [DirMethod.run, SambaDir.readDir]
  | close a => simp [DirMethod.run, SambaDir.close]

/-- Pointers taken from open objects are live if they are the facade's,
and only then. -/
theorem Wf.forall_live_iff (h : Wf s) {ps : List ℕ} (hps : ∀ p ∈ ps, p ≠ 0) :
    (∀ p ∈ ps, p ∈ s.live) ↔ ∀ p ∈ ps, p = s.mNativeHandler :=
  forall₂_congr fun p hp => h.mem_live_iff (hps p hp)

theorem objectPointers_ne_zero (h : Wf s) (op : LooperOp) : ∀ p ∈ s.objectPointers op, p ≠ 0 := by
  intro p hp
  cases op with
  | file i m =>
    rcases hf : s.files[i]? with _ | f
    · simp [objectPointers, hf] at hp
    · simp only [objectPointers, hf, Option.map_some, Option.getD_some] at hp
      rw [(FileMethod_run f m).2 p hp]
      exact h.files f (List.mem_of_getElem? hf)
  | dir i m =>
    rcases hd : s.dirs[i]? with _ | d
    · simp [objectPointers, hd] at hp
    · simp only [objectPointers, hd, Option.map_some, Option.getD_some] at hp
      rw [(DirMethod_run d m).2 p hp]
      exact h.dirs d (List.mem_of_getElem? hd)
  | reset _ => cases hp
  | openDir _ _ => cases hp
  | openFile _ _ => cases hp
  | facade _ => cases hp

theorem forall_mem_set {α : Type} {P : α → Prop} {l : List α} {i : ℕ} {x : α}
    (hl : ∀ a ∈ l, P a) (hx : P x) : ∀ a ∈ l.set i x, P a := by
  intro a ha
  rcases List.mem_or_eq_of_mem_set ha with ha | rfl
  · exact hl a ha
  · exact hx

theorem usesCurrent_of_nil {op : LooperOp} (h : s.objectPointers op = []) : UsesCurrent s op := by
  simp [UsesCurrent, h]

/-- **One operation.** The facade's invariant is kept in any case; a dead
client is used exactly if an object with another pointer than the
facade's makes a native call. -/
theorem Wf.step (h : Wf s) (op : LooperOp) :
    Wf (s.step op) ∧ (OnlyLive (s.step op) ↔ OnlyLive s ∧ UsesCurrent s op) := by
  have hpass : OnlyLive (s.pass (s.objectPointers op)) ↔ _ := onlyLive_pass
  rw [h.forall_live_iff (objectPointers_ne_zero h op)] at hpass
  cases op with
  | reset client =>
    exact ⟨h.reset client, by rw [and_iff_left (usesCurrent_of_nil rfl)]; exact onlyLive_reset h⟩
  | openDir uri a =>
    obtain ⟨hwf, hlive⟩ := h.openDir uri a
    exact ⟨hwf, by rw [and_iff_left (usesCurrent_of_nil rfl)]; exact hlive⟩
  | openFile uri a =>
    obtain ⟨hwf, hlive⟩ := h.openFile uri a
    exact ⟨hwf, by rw [and_iff_left (usesCurrent_of_nil rfl)]; exact hlive⟩
  | facade m =>
    obtain ⟨hwf, hlive⟩ := h.facade m
    exact ⟨hwf, by rw [and_iff_left (usesCurrent_of_nil rfl)]; exact hlive⟩
  | file i m =>
    rcases hf : s.files[i]? with _ | f
    · simp only [NativeSambaFacade.step, hf]
      exact ⟨h, by rw [and_iff_left (usesCurrent_of_nil (by simp [objectPointers, hf]))]⟩
    · have hptrs : s.objectPointers (.file i m) = (m.run f).2 := by simp [objectPointers, hf]
      rw [hptrs] at hpass
      simp only [NativeSambaFacade.step, hf, UsesCurrent, hptrs]
      refine ⟨⟨h.live, forall_mem_set h.files ?_, h.dirs⟩, hpass⟩
      rw [(FileMethod_run f m).1]
      exact h.files f (List.mem_of_getElem? hf)
  | dir i m =>
    rcases hd : s.dirs[i]? with _ | d
    · simp only [NativeSambaFacade.step, hd]
      exact ⟨h, by rw [and_iff_left (usesCurrent_of_nil (by simp [objectPointers, hd]))]⟩
    · have hptrs : s.objectPointers (.dir i m) = (m.run d).2 := by simp [objectPointers, hd]
      rw [hptrs] at hpass
      simp only [NativeSambaFacade.step, hd, UsesCurrent, hptrs]
      refine ⟨⟨h.live, h.files, forall_mem_set h.dirs ?_⟩, hpass⟩
      rw [(DirMethod_run d m).1]
      exact h.dirs d (List.mem_of_getElem? hd)

/-! ## Runs -/

/-- **Only live clients are used exactly if no object outlives its
client.** In every state of a run from the start the native calls were
given live clients, if and only if every object was used while its
pointer was the facade's own. -/
theorem onlyLive_iff (ops : List LooperOp) :
    EveryState step OnlyLive {} ops ↔ EveryStep step UsesCurrent {} ops := by
  refine everyState_iff_everyStep (I := fun s => Wf s ∧ OnlyLive s) ?_ ?_ ?_ ?_
  · rintro s op ⟨hwf, hlive⟩ hok
    exact ⟨(hwf.step op).1, (hwf.step op).2.mpr ⟨hlive, hok⟩⟩
  · exact fun s h => h.2
  · rintro s op ⟨hwf, -⟩ hlive
    exact ((hwf.step op).2.mp hlive).2
  · exact ⟨Wf.init, by simp [OnlyLive]⟩

/-- A file is opened, the client is replaced, and the file is read. -/
def readAfterReset : List LooperOp :=
  [.reset 1, .openFile "smb://nas/media/a" (.ok 3), .reset 2, .file 0 (.read (.ok 1))]

/-- The last native call is given the client that was freed before it. -/
theorem not_onlyLive_readAfterReset : ¬ EveryState step OnlyLive {} readAfterReset := by
  intro h
  have hread : ((1, false) : ℕ × Bool).2 = true := h.last (1, false) (by decide)
  cases hread

end NativeSambaFacade

end SambaProvider

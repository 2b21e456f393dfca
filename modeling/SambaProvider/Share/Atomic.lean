import SambaProvider.Share.Restart

/-!
# A save that throws

A save that throws should leave nothing behind. The saved strings, the
mounted set and the map are written last, so they are safe; the
credentials go in before the check that may fail, and the error path
takes the key out instead of putting back what was there. So a failed
check of a share loses the credentials the share had.
-/

namespace SambaProvider

namespace ShareManager

variable (J : JsonText)

/-- What can be seen of a manager: what is persisted, what is mounted,
the map, what the native side finds, and how often listeners were told. -/
structure SameAs (m m' : ShareManager) : Prop where
  pref : m'.pref = m.pref
  serverStringSet : m'.serverStringSet = m.serverStringSet
  mountedServerSet : m'.mountedServerSet = m.mountedServerSet
  serverStringMap : m'.serverStringMap = m.serverStringMap
  credential : ∀ key, m'.credentialCache.get key = m.credentialCache.get key
  notified : m'.notified = m.notified

/-- A call that throws changes nothing. -/
def Atomic (m : ShareManager) (op : ShareOp) : Prop :=
  ∀ e, (m.call J op).1 = .threw e → m.SameAs (m.call J op).2

/-- The save whose checker a call runs, if any. -/
def willCheck (m : ShareManager) : ShareOp → Option SaveArgs
  | .addServer a => if m.isShareMounted a.uri then none else some a
  | .addOrUpdateServer a => some a
  | .unmountServer _ => none

/-- A checker that fails has no credentials to lose: none are found under
the URI. -/
def NothingToLose (m : ShareManager) (op : ShareOp) : Prop :=
  ∀ a, m.willCheck op = some a → a.checker ≠ none → m.credentialCache.get a.uri = .empty

variable {m : ShareManager} {op : ShareOp} {a : SaveArgs} {e : Exn}

theorem SameAs.refl : m.SameAs m := ⟨rfl, rfl, rfl, rfl, fun _ => rfl, rfl⟩

/-! ## The error path -/

/-- What a failed check leaves of the credentials. -/
theorem get_checked {key : String} (h : a.checker = some e) :
    (m.checkServerCredentials a).2.credentialCache.get key =
      if key = a.uri then .empty else m.credentialCache.get key := by
  unfold checkServerCredentials
  rw [h]
  by_cases hkey : key = a.uri
  · subst hkey
    simp [CredentialCache.get, CredentialCache.remove]
  · rw [if_neg hkey]
    by_cases hp : a.hasPassword
    · simp [CredentialCache.get, CredentialCache.remove, CredentialCache.put, hp, hkey]
    · simp [CredentialCache.get, CredentialCache.remove, hp, hkey]

/-- **A failed check** empties the lookup of its URI, and changes nothing
else. -/
theorem sameAs_checked (h : a.checker = some e) :
    m.SameAs (m.checkServerCredentials a).2 ↔ m.credentialCache.get a.uri = .empty := by
  constructor
  · intro hsame
    have hget := hsame.credential a.uri
    rw [get_checked h, if_pos rfl] at hget
    exact hget.symm
  · intro hempty
    have hrest : (m.checkServerCredentials a).2 =
        { m with credentialCache := (m.checkServerCredentials a).2.credentialCache } := by
      unfold checkServerCredentials
      rw [h]
    refine ⟨?_, ?_, ?_, ?_, fun key => ?_, ?_⟩
    · rw [hrest]
    · rw [hrest]
    · rw [hrest]
    · rw [hrest]
    · rw [get_checked h]
      split
      · rename_i hkey
        rw [hkey, hempty]
      · rfl
    · rw [hrest]

/-- A call that checks a share throws what its checker does, if that
fails, and leaves what the failed check does. -/
theorem call_of_willCheck (h : m.willCheck op = some a) :
    (a.checker = none ∧ (m.call J op).1 = .saved) ∨
      ∃ e, a.checker = some e ∧ m.call J op = (.threw e, (m.checkServerCredentials a).2) := by
  have hsave : (m.call J op) =
      (.ofSave (m.saveServerInfo J a).1, (m.saveServerInfo J a).2) := by
    cases op with
    | addServer b =>
      change (if _ then _ else _) = _ at h
      split at h
      · cases h
      · rename_i hm
        obtain rfl := Option.some.inj h
        simp only [call, addServer, if_neg hm]
    | addOrUpdateServer b =>
      obtain rfl := Option.some.inj h
      rfl
    | unmountServer uri => cases h
  rw [hsave]
  rcases hc : a.checker with _ | e
  · left
    refine ⟨rfl, ?_⟩
    simp [saveServerInfo, checkServerCredentials, hc, ShareOutcome.ofSave]
  · right
    refine ⟨e, rfl, ?_⟩
    simp [saveServerInfo, checkServerCredentials, hc, ShareOutcome.ofSave]

/-- A call that throws without a check leaves the manager as it is. -/
theorem call_of_not_willCheck (h : m.willCheck op = none) (hthrew : (m.call J op).1 = .threw e) :
    (m.call J op).2 = m := by
  cases op with
  | addServer b =>
    change (if _ then _ else _) = _ at h
    split at h
    · rename_i hm
      simp only [call, addServer, if_pos hm]
    · cases h
  | addOrUpdateServer b => cases h
  | unmountServer uri => cases hthrew

/-- **A save that throws changes nothing**, if and only if it is refused
before its check, or no credentials are found under its URI. -/
theorem atomic_iff_nothingToLose : Atomic J m op ↔ NothingToLose m op := by
  constructor
  · intro hatomic a ha hfails
    rcases call_of_willCheck J ha with ⟨hnone, _⟩ | ⟨e, he, hcall⟩
    · exact absurd hnone hfails
    · have hsame := hatomic e (by rw [hcall])
      rw [hcall] at hsame
      exact (sameAs_checked he).mp hsame
  · intro hlose e hthrew
    rcases hcheck : m.willCheck op with _ | a
    · rw [call_of_not_willCheck J hcheck hthrew]
      exact .refl
    · rcases call_of_willCheck J hcheck with ⟨_, hsaved⟩ | ⟨e', he, hcall⟩
      · rw [hsaved] at hthrew
        cases hthrew
      · rw [hcall]
        refine (sameAs_checked he).mpr (hlose a hcheck ?_)
        rw [he]
        exact nofun

/-- An update of a saved share whose check fails. -/
def failingUpdate : SaveArgs :=
  { ShareRun.bobSave "new" with checker := some ⟨.ioException, "Permission denied"⟩ }

/-- **A mounted share loses its credentials** when an update of them is
refused. -/
theorem not_atomic_failingUpdate :
    ¬ Atomic .compact
      (ShareRun.step .compact .start (.addOrUpdateServer (ShareRun.bobSave "old"))).manager
      (.addOrUpdateServer failingUpdate) := by
  intro h
  have hget := (h _ rfl).credential "smb://nas/media"
  revert hget
  decide

end ShareManager

end SambaProvider

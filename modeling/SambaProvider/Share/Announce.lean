import SambaProvider.Share.Restart

/-!
# Announced roots

The roots of the provider are the shares the manager hands out and has
mounted, and the listeners of the manager are how anybody learns that
they have changed. Whether a save tells them is decided by the flag of
the caller; whether it changes the roots, by the flag in the stored
tuple, which is another one where no password was given.
-/

namespace SambaProvider

/-- The shares `queryRoots` lists. -/
def ShareManager.roots (m : ShareManager) : Finset String :=
  (m.iterator.filter fun uri => m.isShareMounted uri).toFinset

/-- The manager and its listeners; `heard` are the calls of
`onMountedServerChange` so far, with the roots there were at each. -/
structure Announcing (Listener : Type*) where
  manager : ShareManager
  listeners : List Listener
  heard : List (Listener × Finset String)

namespace Announcing

open ShareManager

variable {Listener : Type*} {J : JsonText} {s : Announcing Listener} {op : ShareOp}
variable {m : ShareManager} {a : SaveArgs} {uri : String}

/-- `notifyServerChange`: the listeners one by one, the last one first. -/
def notifyServerChange (s : Announcing Listener) : Announcing Listener :=
  { s with heard := s.heard ++ s.listeners.reverse.map fun l => (l, s.manager.roots) }

/-- One call. It notifies, if it does, when everything else is done. -/
def call (J : JsonText) (s : Announcing Listener) (op : ShareOp) : Announcing Listener :=
  let s' := { s with manager := (s.manager.call J op).2 }
  if s'.manager.notified = s.manager.notified then s' else s'.notifyServerChange

def addListener (s : Announcing Listener) (l : Listener) : Announcing Listener :=
  { s with listeners := s.listeners ++ [l] }

/-- **A change of the roots is announced**: every listener is called, and
finds them as they are now. -/
def Announces (J : JsonText) (s : Announcing Listener) (op : ShareOp) : Prop :=
  (s.call J op).manager.roots ≠ s.manager.roots → ∀ l ∈ s.listeners, ∃ new,
    (s.call J op).heard = s.heard ++ new ∧ (l, (s.call J op).manager.roots) ∈ new

/-- **The guard.** A save that is carried out without the caller's flag
stores a tuple with the flag the share has already. -/
def Silent (m : ShareManager) (op : ShareOp) : Prop :=
  ∀ a, ShareRun.willSave m op = some a → a.mount = false →
    (a.uri ∈ m.roots ↔ a.hasPassword = false)

/-! ## The roots -/

theorem mem_roots : uri ∈ m.roots ↔ m.containsShare uri = true ∧ uri ∈ m.mountedServerSet := by
  unfold ShareManager.roots
  rw [List.mem_toFinset, List.mem_filter, iterator, ← AList.mem_keys, ← AList.lookup_isSome,
    containsShare, isShareMounted, decide_eq_true_iff]

/-- **After a save** the share is a root if its tuple says so; the others
are what they were. -/
theorem mem_roots_afterSave : uri ∈ (ShareRun.afterSave J m a).roots ↔
    if uri = a.uri then a.tuple.isMounted = true else uri ∈ m.roots := by
  have hmap : (ShareRun.afterSave J m a).serverStringMap =
      m.serverStringMap.insert a.uri (encode J a.uri a.tuple) := rfl
  have hmounted : (ShareRun.afterSave J m a).mountedServerSet =
      if a.tuple.isMounted then insert a.uri m.mountedServerSet
      else m.mountedServerSet.erase a.uri := rfl
  rw [mem_roots, mem_roots, containsShare, containsShare, hmap, hmounted]
  by_cases huri : uri = a.uri
  · rw [if_pos huri, huri, AList.lookup_insert]
    cases a.tuple.isMounted <;> simp
  · rw [if_neg huri, AList.lookup_insert_ne huri]
    cases a.tuple.isMounted <;> simp [huri]

/-- A save changes the roots where it changes the flag of its share. -/
theorem roots_afterSave_eq_iff : (ShareRun.afterSave J m a).roots = m.roots ↔
    (a.uri ∈ m.roots ↔ a.tuple.isMounted = true) := by
  constructor
  · intro heq
    have hmem := @mem_roots_afterSave J m a a.uri
    rwa [heq, if_pos rfl] at hmem
  · intro hflag
    ext uri
    rw [mem_roots_afterSave]
    split
    · rename_i huri
      rw [huri, hflag]
    · rfl

/-! ## Who is told -/

theorem heard_notifyServerChange {l : Listener} (hl : l ∈ s.listeners) :
    ∃ new, s.notifyServerChange.heard = s.heard ++ new ∧ (l, s.manager.roots) ∈ new :=
  ⟨_, rfl, List.mem_map.mpr ⟨l, List.mem_reverse.mpr hl, rfl⟩⟩

/-- A call that counts a round announces whatever it has changed. -/
theorem announces_of_notified
    (h : (s.manager.call J op).2.notified ≠ s.manager.notified) : s.Announces J op := by
  intro _ l hl
  unfold call
  rw [if_neg h]
  exact heard_notifyServerChange hl

/-- A call that counts none tells nobody. -/
theorem heard_of_not_notified
    (h : (s.manager.call J op).2.notified = s.manager.notified) :
    (s.call J op).heard = s.heard ∧ (s.call J op).manager = (s.manager.call J op).2 := by
  unfold call
  rw [if_pos h]
  exact ⟨rfl, rfl⟩

theorem announces_iff_of_not_notified
    (h : (s.manager.call J op).2.notified = s.manager.notified) : s.Announces J op ↔
      s.listeners = [] ∨ (s.manager.call J op).2.roots = s.manager.roots := by
  obtain ⟨hheard, hmanager⟩ := heard_of_not_notified h
  unfold Announces
  rw [hheard, hmanager]
  constructor
  · intro hall
    by_cases hroots : (s.manager.call J op).2.roots = s.manager.roots
    · exact .inr hroots
    · refine .inl (List.eq_nil_iff_forall_not_mem.mpr fun l hl => ?_)
      obtain ⟨new, hnew, hmem⟩ := hall hroots l hl
      rw [List.self_eq_append_right.mp hnew] at hmem
      cases hmem
  · rintro (hnil | hroots) hne
    · simp [hnil]
    · exact absurd hroots hne

/-- A share is taken out of the roots with a word, or not at all. -/
theorem announces_unmountServer : s.Announces J (.unmountServer uri) := by
  have hcall : (s.manager.call J (.unmountServer uri)).2 = (s.manager.unmountServer uri).2 := rfl
  by_cases h : (s.manager.call J (.unmountServer uri)).2.notified = s.manager.notified
  · refine (announces_iff_of_not_notified h).mpr (.inr ?_)
    rw [hcall] at h ⊢
    unfold ShareManager.unmountServer at h ⊢
    split
    · rfl
    · rename_i serverString hlookup
      rw [hlookup] at h
      dsimp only at h
      split at h
      · exact absurd h (Nat.succ_ne_self _)
      · rename_i hmem
        rw [if_neg hmem]
  · exact announces_of_notified h

/-- **Root changes are announced**, if and only if nobody listens or no
save turns the flag of its share behind the back of its caller. -/
theorem announces_iff : s.Announces J op ↔ s.listeners = [] ∨ Silent s.manager op := by
  rcases ShareRun.call_cases J s.manager op with
    ⟨a, hsave, -, hc⟩ | ⟨hnone, uri, rfl, -⟩ | ⟨hnone, e, cache, -, hc⟩
  · have hnotified : (s.manager.call J op).2.notified =
        if a.mount then s.manager.notified + 1 else s.manager.notified := by
      rw [hc]
      rfl
    cases hmount : a.mount with
    | true =>
      rw [hmount, if_pos rfl] at hnotified
      refine iff_of_true (announces_of_notified (by omega)) (.inr fun b hb hfalse => ?_)
      obtain rfl := Option.some.inj (hsave.symm.trans hb)
      rw [hmount] at hfalse
      cases hfalse
    | false =>
      rw [hmount, if_neg Bool.false_ne_true] at hnotified
      -- The flag of the stored tuple.
      have hflag : a.tuple.isMounted = true ↔ a.hasPassword = false := by
        unfold SaveArgs.tuple
        split
        · rename_i hpassword
          simp [ShareTuple.isMounted, hmount, hpassword]
        · rename_i hpassword
          simpa [ShareTuple.isMounted] using hpassword
      rw [announces_iff_of_not_notified hnotified, hc, roots_afterSave_eq_iff, hflag]
      refine or_congr_right ⟨fun h b hb _ => ?_, fun h => h a hsave hmount⟩
      obtain rfl := Option.some.inj (hsave.symm.trans hb)
      exact h
  · refine iff_of_true announces_unmountServer (.inr fun b hb => ?_)
    rw [hnone] at hb
    cases hb
  · -- What throws changes the credentials only.
    refine iff_of_true ?_ (.inr fun b hb => ?_)
    · refine (announces_iff_of_not_notified ?_).mpr (.inr ?_)
      all_goals rw [hc]
      rfl
    · rw [hnone] at hb
      cases hb

/-! ## An unpinned share -/

/-- What is saved without the flag changes the roots without a word, if it
turns the flag of its share. -/
theorem not_announces_of_turned (hlisten : s.listeners ≠ []) (hchecker : a.checker = none)
    (hmount : a.mount = false) (hturned : ¬ (a.uri ∈ s.manager.roots ↔ a.tuple.isMounted = true)) :
    ¬ s.Announces J (.addOrUpdateServer a) := by
  have hcall : (s.manager.call J (.addOrUpdateServer a)).2 = ShareRun.afterSave J s.manager a := by
    rw [ShareManager.call, addOrUpdateServer, ShareRun.saveServerInfo_ok J hchecker]
  have hnotified : (ShareRun.afterSave J s.manager a).notified = s.manager.notified :=
    if_neg (by rw [hmount]; exact Bool.false_ne_true)
  rw [announces_iff_of_not_notified (by rw [hcall]; exact hnotified), hcall,
    roots_afterSave_eq_iff]
  exact not_or.mpr ⟨hlisten, hturned⟩

/-- A manager on which one share has been mounted with a password, and who
listens to it. -/
def mountedListened (J : JsonText) : Announcing Unit :=
  addListener
    ⟨(ShareRun.start.manager.call J (.addServer (ShareRun.bobSave "secret"))).2, [], []⟩ ()

theorem mem_roots_mountedListened (J : JsonText) :
    "smb://nas/media" ∈ (mountedListened J).manager.roots := by
  have hmanager : (mountedListened J).manager =
      ShareRun.afterSave J ShareRun.start.manager (ShareRun.bobSave "secret") := rfl
  rw [hmanager]
  exact mem_roots_afterSave.mpr rfl

/-- **A mounted share goes out of the roots without a word**, when its
credentials are saved again without the flag. -/
theorem not_announces_unpinned : ¬ (mountedListened .compact).Announces .compact
    (.addOrUpdateServer { ShareRun.bobSave "secret" with mount := false }) :=
  not_announces_of_turned (List.cons_ne_nil _ _) rfl rfl fun h =>
    Bool.false_ne_true (h.mp (mem_roots_mountedListened .compact))

end Announcing

end SambaProvider

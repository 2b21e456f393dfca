import SambaProvider.Streaming.Listener

/-!
# The connections that are registered

All open connections are registered, but those that a thread has accepted
and not registered yet. So `stopStream` closes all but these; and one that
it closes before a thread has been made for it is never taken out again.
-/

namespace SambaProvider

open Lib Lib.Percent

namespace NanoHTTPD

variable {ρ : Type}

namespace Service

open Connection (getHead pathServer)

variable {S : Server ρ} {s : Service ρ} {c : Accepted ρ} {l l' : Listener} {event : Event}
variable {events before after : List Event} {socket thread server : ℕ}
variable {wire : List (Arrival UInt8)} {taken closes fails : Bool}

/-- **What is registered**: all open connections, but those that are about
to be. -/
structure Registry (s : Service ρ) : Prop where
  hand_unique : ∀ {t t' : ℕ} {l l' : Listener} {i : ℕ}, s.listeners[t]? = some l →
    s.listeners[t']? = some l' → l.hand = some i → l'.hand = some i → t = t'
  of_accepted : ∀ {i}, .accepted i ∈ s.listeners →
    s.isClosed i = false ∧ i ∉ s.openConnections
  of_registered : ∀ {i}, .registered i ∈ s.listeners → i ∈ s.openConnections ∧ i ∉ s.processed
  processed_subset : s.processed ⊆ s.openConnections
  lt_length : ∀ {i}, i ∈ s.openConnections → i < s.sockets.length
  of_open : ∀ {i}, s.isClosed i = false → i ∈ s.openConnections ∨ .accepted i ∈ s.listeners

theorem lt_of_isClosed (h : s.isClosed socket = false) : socket < s.sockets.length := by
  rw [isClosed] at h
  split at h
  · rename_i hget
    exact (List.getElem?_eq_some_iff.mp hget).1
  · cases h

/-- A thread that has nothing new in hand. -/
theorem hand_goOn (h : Registry s) (hget : s.listeners[thread]? = some l)
    (hhand : ∀ i, l'.hand = some i → l.hand = some i ∨ ∀ l₀ ∈ s.listeners, l₀.hand ≠ some i)
    {t t' : ℕ} {l₁ l₂ : Listener} {i : ℕ} (h₁ : (s.goOn thread l').listeners[t]? = some l₁)
    (h₂ : (s.goOn thread l').listeners[t']? = some l₂) (hi₁ : l₁.hand = some i)
    (hi₂ : l₂.hand = some i) : t = t' := by
  have hlt := (List.getElem?_eq_some_iff.mp hget).1
  have hother (u : ℕ) {l₀ : Listener} (hi : l'.hand = some i) (hu : s.listeners[u]? = some l₀)
      (hi₀ : l₀.hand = some i) : thread = u := by
    rcases hhand i hi with hold | hnone
    · exact h.hand_unique hget hu hold hi₀
    · exact absurd hi₀ (hnone l₀ (List.mem_of_getElem? hu))
  rw [goOn, List.getElem?_set, if_pos hlt] at h₁ h₂
  split at h₁ <;> split at h₂
  · rename_i heq heq'
    exact heq.symm.trans heq'
  · rename_i heq _
    cases h₁
    exact heq.symm.trans (hother t' hi₁ h₂ hi₂)
  · rename_i _ heq
    cases h₂
    exact (hother t hi₂ h₁ hi₁).symm.trans heq
  · exact h.hand_unique h₁ h₂ hi₁ hi₂

/-- A thread that accepts connections goes on with nothing in hand. -/
theorem Registry.goOn (h : Registry s) (hget : s.listeners[thread]? = some l)
    (haccepted : ∀ i, l ≠ .accepted i) (hhand : l'.hand = none) :
    Registry (s.goOn thread l') where
  hand_unique h₁ h₂ hi₁ hi₂ := hand_goOn h hget (fun i hi => by rw [hhand] at hi; cases hi)
    h₁ h₂ hi₁ hi₂
  of_accepted hmem := by
    rcases (mem_goOn hget).mp hmem with rfl | ⟨t, -, ht⟩
    · cases hhand
    · exact h.of_accepted (List.mem_of_getElem? ht)
  of_registered hmem := by
    rcases (mem_goOn hget).mp hmem with rfl | ⟨t, -, ht⟩
    · cases hhand
    · exact h.of_registered (List.mem_of_getElem? ht)
  processed_subset := h.processed_subset
  lt_length := h.lt_length
  of_open hopen := by
    refine (h.of_open hopen).imp_right fun hmem => ?_
    obtain ⟨t, ht⟩ := List.mem_iff_getElem?.mp hmem
    refine (mem_goOn hget).mpr (.inr ⟨t, ?_, ht⟩)
    rintro rfl
    rw [hget] at ht
    exact haccepted _ (Option.some.inj ht)

/-- A connection comes in. -/
theorem Registry.accept (h : Registry s) (hget : s.listeners[thread]? = some l)
    (hhand : l.hand = none) :
    Registry ((s.accept wire).goOn thread (.accepted s.sockets.length)) := by
  have hlen : (s.accept wire).sockets.length = s.sockets.length + 1 := List.length_append
  have hclosed (i : ℕ) (hi : i < s.sockets.length) : (s.accept wire).isClosed i = s.isClosed i := by
    rw [isClosed, isClosed, Service.accept, List.getElem?_append_left hi]
  have hnew : (s.accept wire).isClosed s.sockets.length = false := by
    rw [isClosed, Service.accept, List.getElem?_concat_length]
    rfl
  have hfresh : ∀ l₀ ∈ s.listeners, l₀.hand ≠ some s.sockets.length := by
    intro l₀ hl₀ hi
    cases l₀ with
    | accepted i =>
      cases hi
      exact Nat.lt_irrefl _ (lt_of_isClosed (h.of_accepted hl₀).1)
    | registered i =>
      cases hi
      exact Nat.lt_irrefl _ (h.lt_length (h.of_registered hl₀).1)
    | _ => cases hi
  exact {
    hand_unique := fun h₁ h₂ hi₁ hi₂ => hand_goOn (s := s) h hget
      (fun i hi => .inr (by cases hi; exact hfresh)) h₁ h₂ hi₁ hi₂
    of_accepted := by
      intro i hmem
      rcases (mem_goOn (s := s.accept wire) hget).mp hmem with heq | ⟨t, -, ht⟩
      · cases heq
        exact ⟨hnew, fun hi => Nat.lt_irrefl _ (h.lt_length hi)⟩
      · obtain ⟨hopen, hnot⟩ := h.of_accepted (List.mem_of_getElem? ht)
        exact ⟨(hclosed i (lt_of_isClosed hopen)).trans hopen, hnot⟩
    of_registered := by
      intro i hmem
      rcases (mem_goOn (s := s.accept wire) hget).mp hmem with heq | ⟨t, -, ht⟩
      · cases heq
      · exact h.of_registered (List.mem_of_getElem? ht)
    processed_subset := h.processed_subset
    lt_length := fun hi => by
      refine Nat.lt_of_lt_of_eq (Nat.lt_succ_of_lt (h.lt_length hi)) hlen.symm
    of_open := by
      intro i hopen
      rcases Nat.lt_or_eq_of_le (Nat.lt_succ_iff.mp (hlen ▸ lt_of_isClosed hopen)) with hi | rfl
      · rcases h.of_open ((hclosed i hi).symm.trans hopen) with hreg | hmem
        · exact .inl hreg
        · obtain ⟨t, ht⟩ := List.mem_iff_getElem?.mp hmem
          refine .inr ((mem_goOn (s := s.accept wire) hget).mpr (.inr ⟨t, ?_, ht⟩))
          rintro rfl
          rw [hget] at ht
          cases ht
          cases hhand
      · exact .inr ((mem_goOn (s := s.accept wire) hget).mpr (.inl rfl)) }

/-- A connection is registered. -/
theorem Registry.registerConnection (h : Registry s)
    (hget : s.listeners[thread]? = some (.accepted socket)) :
    Registry ((s.registerConnection socket).goOn thread (.registered socket)) := by
  have hmem := List.mem_of_getElem? hget
  obtain ⟨hopen, hnot⟩ := h.of_accepted hmem
  have hother {t : ℕ} {i : ℕ} (hne : t ≠ thread) {l₀ : Listener} (ht : s.listeners[t]? = some l₀)
      (hi : l₀.hand = some i) : i ≠ socket := by
    rintro rfl
    exact hne (h.hand_unique ht hget hi rfl)
  exact {
    hand_unique := fun h₁ h₂ hi₁ hi₂ => hand_goOn (s := s) h hget (fun i hi => .inl (by exact hi))
      h₁ h₂ hi₁ hi₂
    of_accepted := by
      intro i hi
      rcases (mem_goOn (s := s.registerConnection socket) hget).mp hi with heq | ⟨t, hne, ht⟩
      · cases heq
      · obtain ⟨hopen', hnot'⟩ := h.of_accepted (List.mem_of_getElem? ht)
        refine ⟨hopen', fun hins => ?_⟩
        rcases Finset.mem_insert.mp hins with heq | hold
        · exact hother hne ht rfl heq
        · exact hnot' hold
    of_registered := by
      intro i hi
      rcases (mem_goOn (s := s.registerConnection socket) hget).mp hi with heq | ⟨t, hne, ht⟩
      · cases heq
        exact ⟨Finset.mem_insert_self _ _, fun hproc => hnot (h.processed_subset hproc)⟩
      · obtain ⟨hreg, hproc⟩ := h.of_registered (List.mem_of_getElem? ht)
        exact ⟨Finset.mem_insert_of_mem hreg, hproc⟩
    processed_subset := h.processed_subset.trans (Finset.subset_insert _ _)
    lt_length := fun hi => by
      rcases Finset.mem_insert.mp hi with rfl | hold
      · exact lt_of_isClosed hopen
      · exact h.lt_length hold
    of_open := by
      intro i hi
      rcases h.of_open hi with hreg | hacc
      · exact .inl (Finset.mem_insert_of_mem hreg)
      · obtain ⟨t, ht⟩ := List.mem_iff_getElem?.mp hacc
        by_cases hne : t = thread
        · rw [hne, hget] at ht
          cases ht
          exact .inl (Finset.mem_insert_self _ _)
        · exact .inr ((mem_goOn (s := s.registerConnection socket) hget).mpr
            (.inr ⟨t, hne, ht⟩)) }

/-- A connection gets a thread of its own. -/
theorem Registry.exec (h : Registry s) (hget : s.listeners[thread]? = some (.registered socket)) :
    Registry ({ s with processed := insert socket s.processed }.goOn thread .looks) where
  hand_unique h₁ h₂ hi₁ hi₂ := hand_goOn (s := s) h hget (fun i hi => by cases hi) h₁ h₂ hi₁ hi₂
  of_accepted hmem := by
    have hlooks : Registry (s.goOn thread .looks) := h.goOn hget (fun i hi => by cases hi) rfl
    exact hlooks.of_accepted hmem
  of_registered {i} hmem := by
    rcases (mem_goOn hget).mp hmem with heq | ⟨t, hne, ht⟩
    · cases heq
    · obtain ⟨hreg, hproc⟩ := h.of_registered (List.mem_of_getElem? ht)
      refine ⟨hreg, fun hins => ?_⟩
      rcases Finset.mem_insert.mp hins with rfl | hold
      · exact hne (h.hand_unique ht hget rfl rfl)
      · exact hproc hold
  processed_subset := by
    intro i hi
    rcases Finset.mem_insert.mp hi with rfl | hold
    · exact (h.of_registered (List.mem_of_getElem? hget)).1
    · exact h.processed_subset hold
  lt_length := h.lt_length
  of_open hopen := by
    have hlooks : Registry (s.goOn thread .looks) := h.goOn hget (fun i hi => by cases hi) rfl
    exact hlooks.of_open hopen

theorem Registry.listen (h : Registry s) : Registry (s.listen thread wire fails) := by
  unfold Service.listen
  split
  · rename_i hget
    split <;> exact h.goOn hget (fun i hi => by cases hi) rfl
  · rename_i hget
    split
    · exact h.goOn hget (fun i hi => by cases hi) rfl
    · exact h.accept hget rfl
  · rename_i hget
    exact h.registerConnection hget
  · rename_i hget
    split
    · exact h.goOn hget (fun i hi => by cases hi) rfl
    · exact h.exec hget
  · rename_i hget
    split <;> exact h.goOn hget (fun i hi => by cases hi) rfl
  · exact h
  · exact h

/-- Only what is registered may be closed, and nothing is opened. -/
theorem Registry.of_sockets (h : Registry s) {sockets : List (Accepted ρ)}
    (hlen : sockets.length = s.sockets.length)
    (hclosed : ∀ i, i ∉ s.openConnections →
      isClosed { s with sockets := sockets } i = s.isClosed i)
    (hopen : ∀ i, isClosed { s with sockets := sockets } i = false → s.isClosed i = false) :
    Registry { s with sockets := sockets } where
  hand_unique := h.hand_unique
  of_accepted {i} hmem := by
    obtain ⟨hi, hnot⟩ := h.of_accepted hmem
    exact ⟨(hclosed i hnot).trans hi, hnot⟩
  of_registered := h.of_registered
  processed_subset := h.processed_subset
  lt_length hi := hlen.symm ▸ h.lt_length hi
  of_open {i} hi := h.of_open (hopen i hi)

theorem Registry.closeAllConnections (h : Registry s) : Registry s.closeAllConnections := by
  refine h.of_sockets List.length_mapIdx ?_ ?_
  · intro i hi
    rw [isClosed, isClosed, List.getElem?_mapIdx]
    cases s.sockets[i]? with
    | none => rfl
    | some c => simp only [Option.map_some, if_neg hi]
  · intro i hi
    rw [isClosed, List.getElem?_mapIdx] at hi
    rw [isClosed]
    cases hget : s.sockets[i]? with
    | none =>
      rw [hget] at hi
      cases hi
    | some c =>
      rw [hget, Option.map_some] at hi
      simp only at hi ⊢
      split at hi
      · cases hi
      · exact hi

theorem Registry.process (h : Registry s) : Registry (s.process S socket) := by
  unfold Service.process
  split
  · rename_i hproc
    split
    · -- Its thread is at its end.
      rename_i hclosed
      exact {
        hand_unique := h.hand_unique
        of_accepted := fun hmem => by
          obtain ⟨hopen, hnot⟩ := h.of_accepted hmem
          exact ⟨hopen, fun hi => hnot (Finset.mem_of_mem_erase hi)⟩
        of_registered := fun {i} hmem => by
          obtain ⟨hreg, hnot⟩ := h.of_registered hmem
          refine ⟨Finset.mem_erase.mpr ⟨?_, hreg⟩, fun hi => hnot (Finset.mem_of_mem_erase hi)⟩
          rintro rfl
          exact hnot hproc
        processed_subset := Finset.erase_subset_erase _ h.processed_subset
        lt_length := fun hi => h.lt_length (Finset.mem_of_mem_erase hi)
        of_open := fun {i} hopen => by
          refine (h.of_open hopen).imp_left fun hreg => Finset.mem_erase.mpr ⟨?_, hreg⟩
          rintro rfl
          have hopen : s.isClosed i = false := hopen
          rw [hclosed] at hopen
          cases hopen }
    · rename_i hopen
      refine h.of_sockets (List.length_modify ..) ?_ ?_
      · intro i hi
        have hne : socket ≠ i := by
          rintro rfl
          exact hi (h.processed_subset hproc)
        rw [isClosed, isClosed, List.getElem?_modify_ne _ _ hne]
      · intro i hi
        by_cases hne : socket = i
        · rw [← hne]
          exact eq_false_of_ne_true hopen
        · rw [isClosed, List.getElem?_modify_ne _ _ hne] at hi
          exact hi
  · exact h

theorem Registry.start (h : Registry s) : Registry s.start := by
  unfold Service.start
  split
  · exact h
  · exact ⟨h.hand_unique, h.of_accepted, h.of_registered, h.processed_subset, h.lt_length,
      h.of_open⟩

theorem Registry.collect (h : Registry s) : Registry (s.collect server) := by
  unfold Service.collect
  split
  · exact h
  · exact ⟨h.hand_unique, h.of_accepted, h.of_registered, h.processed_subset, h.lt_length,
      h.of_open⟩

/-- A thread that has been made has nothing in hand. -/
theorem Registry.bind (h : Registry s) : Registry (s.bind taken closes) := by
  have hold {t i : ℕ} {l₀ : Listener} (ht : (s.listeners ++ [.calls])[t]? = some l₀)
      (hi : l₀.hand = some i) : s.listeners[t]? = some l₀ := by
    rw [List.getElem?_append] at ht
    split at ht
    · exact ht
    · cases List.mem_singleton.mp (List.mem_of_getElem? ht)
      cases hi
  have hmem {l₀ : Listener} {i : ℕ} (hl₀ : l₀ ∈ s.listeners ++ [.calls]) (hi : l₀.hand = some i) :
      l₀ ∈ s.listeners := by
    rcases List.mem_append.mp hl₀ with hl₀ | hl₀
    · exact hl₀
    · cases List.mem_singleton.mp hl₀
      cases hi
  unfold Service.bind
  split
  · split
    · exact ⟨h.hand_unique, h.of_accepted, h.of_registered, h.processed_subset, h.lt_length,
        h.of_open⟩
    · exact {
        hand_unique := fun h₁ h₂ hi₁ hi₂ =>
          h.hand_unique (hold h₁ hi₁) (hold h₂ hi₂) hi₁ hi₂
        of_accepted := fun hl => h.of_accepted (hmem hl rfl)
        of_registered := fun hl => h.of_registered (hmem hl rfl)
        processed_subset := h.processed_subset
        lt_length := h.lt_length
        of_open := fun hopen => (h.of_open hopen).imp_right (List.mem_append_left _) }
  · exact h

theorem Registry.step (h : Registry s) : Registry (s.step S event) := by
  cases event with
  | start => exact h.start
  | bind taken closes => exact h.bind
  | collect server => exact h.collect
  | listen thread wire fails => exact h.listen
  | process socket => exact h.process
  | stopStream => exact h.closeAllConnections

theorem registry_run : Registry (run S events) := by
  refine List.foldlRecOn events (step S) ?_ fun s h event _ => h.step
  exact {
    hand_unique := fun h₁ => by cases h₁
    of_accepted := fun hmem => absurd hmem List.not_mem_nil
    of_registered := fun hmem => absurd hmem List.not_mem_nil
    processed_subset := Finset.Subset.refl _
    lt_length := fun hi => absurd hi (Finset.notMem_empty _)
    of_open := fun hopen => by cases hopen }

/-! ## After `stopStream` -/

/-- A connection that is closed stays as it is. -/
theorem getElem?_sockets_step (hget : s.sockets[socket]? = some c)
    (hclosed : c.connection.closed = true) : (s.step S event).sockets[socket]? = some c := by
  have hlt := (List.getElem?_eq_some_iff.mp hget).1
  cases event with
  | start => rwa [step, sockets_start]
  | bind taken closes => rwa [step, sockets_bind]
  | collect server => rwa [step, sockets_collect]
  | listen thread wire fails =>
    rw [step]
    rcases sockets_listen s thread wire fails with hsame | hmore
    · rwa [hsame]
    · rwa [hmore, List.getElem?_append_left hlt]
  | process i =>
    rw [step, process]
    split
    · split
      · exact hget
      · rename_i hopen
        have hne : i ≠ socket := by
          rintro rfl
          rw [isClosed, hget] at hopen
          exact hopen hclosed
        rwa [List.getElem?_modify_ne _ _ hne]
    · exact hget
  | stopStream =>
    have hclose : c.connection.close = c.connection := by
      rw [Connection.close, ← hclosed]
    rw [step, stopStream, closeAllConnections, List.getElem?_mapIdx, hget, Option.map_some, hclose,
      ite_self]

theorem getElem?_sockets_foldl (hget : s.sockets[socket]? = some c)
    (hclosed : c.connection.closed = true) :
    (after.foldl (step S) s).sockets[socket]? = some c :=
  List.foldlRecOn (motive := fun s => s.sockets[socket]? = some c) after (step S) hget
    fun _ h _ _ => getElem?_sockets_step h hclosed

/-- What is left of a connection that there was before `stopStream`. -/
theorem sockets_stopStream (h : Registry s) (hget : s.sockets[socket]? = some c) :
    s.stopStream.sockets[socket]? =
      some (if .accepted socket ∈ s.listeners then c else ⟨c.wire, c.connection.close⟩) := by
  have hopen : s.isClosed socket = c.connection.closed := by
    rw [isClosed, hget]
  rw [stopStream, closeAllConnections, List.getElem?_mapIdx, hget, Option.map_some]
  by_cases hmem : .accepted socket ∈ s.listeners
  · rw [if_neg (h.of_accepted hmem).2, if_pos hmem]
  · rw [if_neg hmem]
    split
    · rfl
    · rename_i hreg
      have hclosed : c.connection.closed = true := by
        by_contra hne
        rcases h.of_open (hopen.trans (eq_false_of_ne_true hne)) with hmem' | hmem'
        · exact hreg hmem'
        · exact hmem hmem'
      rw [Connection.close, ← hclosed]

/-- **What `stopStream` closes stays closed**: whatever comes after it, no
connection there was is served any more. One is left open, and only then:
the one that a thread has accepted and not registered yet. -/
theorem sockets_run_stopStream (hget : (run S before).sockets[socket]? = some c) :
    (.accepted socket ∉ (run S before).listeners →
      (run S (before ++ .stopStream :: after)).sockets[socket]? =
        some ⟨c.wire, c.connection.close⟩) ∧
    (.accepted socket ∈ (run S before).listeners → c.connection.closed = false ∧
      (run S (before ++ [.stopStream])).sockets[socket]? = some c) := by
  have hstop := sockets_stopStream registry_run hget
  constructor
  · intro hmem
    rw [if_neg hmem] at hstop
    rw [run_append, List.foldl_cons]
    exact getElem?_sockets_foldl hstop rfl
  · intro hmem
    rw [if_pos hmem] at hstop
    have hopen := (registry_run.of_accepted hmem).1
    rw [isClosed, hget] at hopen
    exact ⟨hopen, by rw [run_append, List.foldl_cons, List.foldl_nil, step, hstop]⟩

/-- The service is destroyed after the request, and before the connection is
registered. -/
theorem sockets_run_stopStream_request :
    (run pathServer (request ++ .stopStream :: [.process 0])).sockets[0]? =
        some ⟨requested.wire, requested.connection.close⟩ ∧
      (run pathServer (request.take 4 ++ [.stopStream])).sockets[0]? =
        some ⟨requested.wire, Connection.start requested.wire⟩ := by
  have hget : (run pathServer request).sockets[0]? = some requested := rfl
  have hget' : (run pathServer (request.take 4)).sockets[0]? =
    some ⟨requested.wire, Connection.start requested.wire⟩ := rfl
  constructor
  · exact (sockets_run_stopStream hget).1 (by decide +kernel)
  · exact ((@sockets_run_stopStream _ _ _ _ [] _ hget').2 (List.mem_singleton.mpr rfl)).2

/-! ## What is registered for good -/

/-- **A connection nobody will unregister**: it is closed, and has no
thread. -/
structure Stuck (s : Service ρ) (socket : ℕ) : Prop where
  registered : socket ∈ s.openConnections
  not_processed : socket ∉ s.processed
  closed : ∃ c, s.sockets[socket]? = some c ∧ c.connection.closed = true

theorem Stuck.isClosed (h : Stuck s socket) : s.isClosed socket = true := by
  obtain ⟨c, hget, hclosed⟩ := h.closed
  rw [Service.isClosed, hget]
  exact hclosed

theorem Stuck.listen (h : Stuck s socket) :
    socket ∈ (s.listen thread wire fails).openConnections ∧
      socket ∉ (s.listen thread wire fails).processed := by
  unfold Service.listen
  split
  · split <;> exact ⟨h.registered, h.not_processed⟩
  · split <;> exact ⟨h.registered, h.not_processed⟩
  · exact ⟨Finset.mem_insert_of_mem h.registered, h.not_processed⟩
  · split
    · exact ⟨h.registered, h.not_processed⟩
    · rename_i hopen
      refine ⟨h.registered, fun hmem => ?_⟩
      rcases Finset.mem_insert.mp hmem with rfl | hold
      · exact hopen (by rw [h.isClosed, Bool.or_true])
      · exact h.not_processed hold
  · split <;> exact ⟨h.registered, h.not_processed⟩
  · exact ⟨h.registered, h.not_processed⟩
  · exact ⟨h.registered, h.not_processed⟩

theorem Stuck.step (h : Stuck s socket) : Stuck (s.step S event) socket := by
  obtain ⟨c, hget, hclosed⟩ := h.closed
  have hstays : (s.step S event).sockets[socket]? = some c := getElem?_sockets_step hget hclosed
  have hnot := h.not_processed
  suffices hreg : socket ∈ (s.step S event).openConnections ∧ socket ∉ (s.step S event).processed
    from ⟨hreg.1, hreg.2, c, hstays, hclosed⟩
  cases event with
  | start =>
    rw [Service.step, Service.start]
    split <;> exact ⟨h.registered, hnot⟩
  | bind taken closes =>
    rw [Service.step, Service.bind]
    split
    · split <;> exact ⟨h.registered, hnot⟩
    · exact ⟨h.registered, hnot⟩
  | collect server =>
    rw [Service.step, Service.collect]
    split <;> exact ⟨h.registered, hnot⟩
  | listen thread wire fails => exact h.listen
  | process i =>
    rw [Service.step, Service.process]
    split
    · rename_i hmem
      have hne : socket ≠ i := by
        rintro rfl
        exact hnot hmem
      split
      · exact ⟨Finset.mem_erase.mpr ⟨hne, h.registered⟩,
          fun hi => hnot (Finset.mem_of_mem_erase hi)⟩
      · exact ⟨h.registered, hnot⟩
    · exact ⟨h.registered, hnot⟩
  | stopStream => exact ⟨h.registered, hnot⟩

end Service

end NanoHTTPD

end SambaProvider

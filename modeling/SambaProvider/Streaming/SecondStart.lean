import SambaProvider.Streaming.Listener

/-!
# The service is created again

`stopStream` leaves the server socket as it is, so another one cannot be
bound as long as a thread waits for connections with the first. Then the
field has a server socket that is not bound, and nobody listens.
-/

namespace SambaProvider

open Lib Lib.Percent

namespace NanoHTTPD

variable {ρ : Type}

namespace Service

open Connection (getHead pathServer)

variable {S : Server ρ} {s : Service ρ} {l l' : Listener} {event : Event}
variable {events before after : List Event} {thread server : ℕ}
variable {wire : List (Arrival UInt8)} {taken closes fails : Bool}

/-! ## Up to a second start -/

/-- **A server that listens**: the server socket of the field is this one,
and it is bound. -/
structure Open (s : Service ρ) (server : ℕ) : Prop where
  starting : s.starting = false
  field : s.myServerSocket = some server
  bound : s.serverSockets[server]? = some .bound

/-- The threads that have left their loop had left it before. -/
def EndsNone (s s' : Service ρ) : Prop :=
  ∀ thread : ℕ, s'.listeners[thread]? = some Listener.ended →
    s.listeners[thread]? = some Listener.ended

/-- A thread that does not leave its loop. -/
theorem endsNone_goOn (hended : l' ≠ .ended) : EndsNone s (s.goOn thread l') := by
  intro t ht
  rw [goOn, List.getElem?_set] at ht
  split at ht
  · split at ht
    · exact absurd (Option.some.inj ht) hended
    · cases ht
  · exact ht

theorem Open.listen (h : Open s server) :
    Open (s.listen thread wire fails) server ∧ EndsNone s (s.listen thread wire fails) := by
  have hopen : Open (s.listen thread wire fails) server := by
    unfold Service.listen
    split
    · split <;> exact ⟨h.starting, h.field, h.bound⟩
    · split <;> exact ⟨h.starting, h.field, h.bound⟩
    · exact ⟨h.starting, h.field, h.bound⟩
    · split <;> exact ⟨h.starting, h.field, h.bound⟩
    · split <;> exact ⟨h.starting, h.field, h.bound⟩
    · exact h
    · exact h
  refine ⟨hopen, ?_⟩
  unfold Service.listen
  split
  · split <;> exact endsNone_goOn (by simp)
  · split
    · exact endsNone_goOn (by simp)
    · refine endsNone_goOn (s := s.accept wire) ?_
      simp
  · refine endsNone_goOn (s := s.registerConnection _) ?_
    simp
  · split
    · exact endsNone_goOn (by simp)
    · refine endsNone_goOn (s := { s with processed := insert _ s.processed }) ?_
      simp
  · split
    · -- the loop is left where the server socket of the field is closed
      rename_i hclosed
      rw [h.field, Option.bind_some, h.bound] at hclosed
      cases hclosed
    · exact endsNone_goOn (by simp)
  · exact fun t ht => ht
  · exact fun t ht => ht

theorem Open.step (h : Open s server) (hevent : event ≠ .start) :
    Open (s.step S event) server ∧ EndsNone s (s.step S event) := by
  cases event with
  | start => exact absurd rfl hevent
  | bind taken closes =>
    have hsame : s.bind taken closes = s := by
      rw [Service.bind, h.starting]
    rw [Service.step, hsame]
    exact ⟨h, fun t ht => ht⟩
  | collect server' =>
    rw [Service.step, Service.collect]
    split
    · exact ⟨h, fun t ht => ht⟩
    · rename_i hnobody
      refine ⟨⟨h.starting, h.field, ?_⟩, fun t ht => ht⟩
      rw [List.getElem?_set_ne (by rintro rfl; exact hnobody (.inl h.field)), h.bound]
  | listen thread wire fails => exact h.listen
  | process socket =>
    rw [Service.step, Service.process]
    split
    · split <;> exact ⟨⟨h.starting, h.field, h.bound⟩, fun t ht => ht⟩
    · exact ⟨h, fun t ht => ht⟩
  | stopStream => exact ⟨⟨h.starting, h.field, h.bound⟩, fun t ht => ht⟩

/-! ## A second start -/

/-- The threads that wait for a connection. -/
def waiting (s : Service ρ) : ℕ := s.listeners.countP Listener.isWaiting

/-- **Where a thread waits** the server socket is bound; while a server
socket is being bound, it is not. -/
structure Listening (s : Service ρ) : Prop where
  of_waits : ∀ {v}, .waits v ∈ s.listeners → s.serverSockets[v]? = some .bound
  of_starting : s.starting = true →
    ∃ v, s.myServerSocket = some v ∧ s.serverSockets[v]? = some .unbound

/-- A thread goes on, and waits only for a server socket that is bound. -/
theorem Listening.goOn (h : Listening s) (hget : s.listeners[thread]? = some l)
    (hwaits : ∀ v, l' = .waits v → s.serverSockets[v]? = some .bound) :
    Listening (s.goOn thread l') where
  of_waits hmem := by
    rcases (mem_goOn hget).mp hmem with heq | ⟨t, -, ht⟩
    · exact hwaits _ heq.symm
    · exact h.of_waits (List.mem_of_getElem? ht)
  of_starting := h.of_starting

theorem Listening.listen (h : Listening s) : Listening (s.listen thread wire fails) := by
  unfold Service.listen
  split
  · rename_i hget
    split
    · rename_i v hv
      refine h.goOn hget fun w hw => ?_
      cases hw
      exact of_decide_eq_true (Option.filter_eq_some_iff.mp hv).2
    · exact h.goOn hget (fun v hv => by cases hv)
  · rename_i hget
    split
    · exact h.goOn hget (fun v hv => by cases hv)
    · exact Listening.goOn (s := s.accept wire) ⟨h.of_waits, h.of_starting⟩ hget
        (fun v hv => by cases hv)
  · rename_i hget
    exact Listening.goOn (s := s.registerConnection _) ⟨h.of_waits, h.of_starting⟩ hget
      (fun v hv => by cases hv)
  · rename_i hget
    split
    · exact h.goOn hget (fun v hv => by cases hv)
    · have hlooks : Listening (s.goOn thread .looks) := h.goOn hget (fun v hv => by cases hv)
      exact ⟨hlooks.of_waits, hlooks.of_starting⟩
  · rename_i hget
    split <;> exact h.goOn hget (fun v hv => by cases hv)
  · exact h
  · exact h

theorem Listening.start (h : Listening s) : Listening s.start := by
  unfold Service.start
  split
  · exact h
  · refine ⟨fun hmem => ?_, fun _ => ⟨_, rfl, List.getElem?_concat_length⟩⟩
    have hget := h.of_waits hmem
    rwa [List.getElem?_append_left (List.getElem?_eq_some_iff.mp hget).1]

theorem Listening.bind (h : Listening s) : Listening (s.bind taken closes) := by
  -- No thread waits for the server socket that is being bound.
  have hset {v w : ℕ} {x : ServerSocket} (hstarting : s.starting = true)
      (hfield : s.myServerSocket = some v) (hmem : .waits w ∈ s.listeners) :
      (s.serverSockets.set v x)[w]? = some .bound := by
    have hget := h.of_waits hmem
    obtain ⟨u, hu, hunbound⟩ := h.of_starting hstarting
    cases hfield.symm.trans hu
    rw [List.getElem?_set_ne, hget]
    rintro rfl
    cases hunbound.symm.trans hget
  unfold Service.bind
  split
  · rename_i hstarting hfield
    split
    · refine ⟨fun hmem => ?_, fun hnot => by cases hnot⟩
      split
      · exact hset hstarting hfield hmem
      · exact h.of_waits hmem
    · refine ⟨fun hmem => ?_, fun hnot => by cases hnot⟩
      rcases List.mem_append.mp hmem with hmem | hmem
      · exact hset hstarting hfield hmem
      · -- the new thread has not come to `accept`
        cases List.mem_singleton.mp hmem
  · exact h

theorem Listening.collect (h : Listening s) : Listening (s.collect server) := by
  unfold Service.collect
  split
  · exact h
  · -- what is collected is neither in the field nor waited with
    rename_i hnobody
    obtain ⟨hfield, hwaits⟩ := not_or.mp hnobody
    constructor
    · intro v hmem
      rw [List.getElem?_set_ne (by rintro rfl; exact hwaits hmem), h.of_waits hmem]
    · intro hstarting
      obtain ⟨v, hv, hunbound⟩ := h.of_starting hstarting
      refine ⟨v, hv, ?_⟩
      rw [List.getElem?_set_ne (by rintro rfl; exact hfield hv), hunbound]

theorem Listening.step (h : Listening s) : Listening (s.step S event) := by
  cases event with
  | start => exact h.start
  | bind taken closes => exact h.bind
  | collect server => exact h.collect
  | listen thread wire fails => exact h.listen
  | process socket =>
    rw [Service.step, Service.process]
    split
    · split <;> exact ⟨h.of_waits, h.of_starting⟩
    · exact h
  | stopStream => exact ⟨h.of_waits, h.of_starting⟩

theorem listening_run : Listening (run S events) := by
  refine List.foldlRecOn events (step S) ?_ fun s h event _ => h.step
  exact ⟨fun hmem => absurd hmem List.not_mem_nil, fun hstarting => by cases hstarting⟩

/-- A server socket that is bound is not about to be bound. -/
theorem Listening.open_of_bound (h : Listening s) (hfield : s.myServerSocket = some server)
    (hbound : s.serverSockets[server]? = some .bound) : Open s server := by
  refine ⟨eq_false_of_ne_true fun hstarting => ?_, hfield, hbound⟩
  obtain ⟨v, hv, hunbound⟩ := h.of_starting hstarting
  cases hfield.symm.trans hv
  cases hbound.symm.trans hunbound

/-- **`stopStream` does not stop the server**: until it is started again its
server socket stays bound, and no thread leaves its loop. -/
theorem open_run (hfield : (run S before).myServerSocket = some server)
    (hbound : (run S before).serverSockets[server]? = some .bound) (hafter : .start ∉ after) :
    ((run S (before ++ after)).myServerSocket = some server ∧
      (run S (before ++ after)).serverSockets[server]? = some .bound) ∧
      ∀ thread : ℕ, (run S (before ++ after)).listeners[thread]? = some Listener.ended →
        (run S before).listeners[thread]? = some Listener.ended := by
  have hrun : Open (run S (before ++ after)) server ∧
      EndsNone (run S before) (run S (before ++ after)) := by
    rw [run_append]
    refine List.foldlRecOn (motive := fun s => Open s server ∧ EndsNone (run S before) s) after
      (step S) ⟨listening_run.open_of_bound hfield hbound, fun t ht => ht⟩ fun s h event hmem => ?_
    have hevent : event ≠ .start := by
      rintro rfl
      exact hafter hmem
    obtain ⟨hopen, hends⟩ := h.1.step (S := S) hevent
    exact ⟨hopen, fun t ht => h.2 t (hends t ht)⟩
  exact ⟨⟨hrun.1.field, hrun.1.bound⟩, hrun.2⟩

/-- The service is destroyed, and a request comes in. -/
theorem open_run_created :
    ((run pathServer (created ++ .stopStream :: request.drop 3)).myServerSocket = some 0 ∧
      (run pathServer (created ++ .stopStream :: request.drop 3)).serverSockets[0]? =
        some .bound) ∧
      (run pathServer (created ++ .stopStream :: request.drop 3)).listeners[0]? ≠ some .ended := by
  obtain ⟨hbound, hends⟩ := @open_run _ pathServer created
    (.stopStream :: request.drop 3) 0 rfl rfl (by simp [request, created])
  exact ⟨hbound, fun hended => by cases hends 0 hended⟩

/-- **A server that does not listen**: the server socket of the field is not
bound, and nobody is about to bind it. -/
structure Deaf (s : Service ρ) : Prop where
  starting : s.starting = false
  not_bound : ∀ v, s.myServerSocket = some v → s.serverSockets[v]? ≠ some .bound

/-- The connections that were accepted, and those that can still be. -/
def potential (s : Service ρ) : ℕ := s.sockets.length + s.waiting

theorem waiting_goOn (hget : s.listeners[thread]? = some l) :
    (s.goOn thread l').waiting =
      s.waiting - (if l.isWaiting then 1 else 0) + (if l'.isWaiting then 1 else 0) := by
  obtain ⟨hlt, rfl⟩ := List.getElem?_eq_some_iff.mp hget
  exact List.countP_set hlt

theorem Deaf.listen (h : Deaf s) : Deaf (s.listen thread wire fails) := by
  unfold Service.listen
  split
  · split <;> exact ⟨h.starting, h.not_bound⟩
  · split <;> exact ⟨h.starting, h.not_bound⟩
  · exact ⟨h.starting, h.not_bound⟩
  · split <;> exact ⟨h.starting, h.not_bound⟩
  · split <;> exact ⟨h.starting, h.not_bound⟩
  · exact h
  · exact h

/-- **Where nobody listens**, a thread can only take the connection it waits
for, and does not wait again. -/
theorem Deaf.listen_cases (h : Deaf s) : s.listen thread wire fails = s ∨
    ∃ l l', s.listeners[thread]? = some l ∧ l'.isWaiting = false ∧
      (s.listen thread wire fails).listeners = s.listeners.set thread l' ∧
      (s.listen thread wire fails).sockets.length ≤
        s.sockets.length + (if l.isWaiting then 1 else 0) := by
  unfold Service.listen
  split
  · rename_i hget
    split
    · -- a thread comes to wait only with a server socket that is bound
      rename_i v hv
      obtain ⟨hfield, hbound⟩ := Option.filter_eq_some_iff.mp hv
      exact absurd (of_decide_eq_true hbound) (h.not_bound v hfield)
    · exact .inr ⟨_, .looks, hget, rfl, rfl, Nat.le_add_right _ _⟩
  · rename_i hget
    split
    · exact .inr ⟨_, .looks, hget, rfl, rfl, Nat.le_add_right _ _⟩
    · exact .inr ⟨_, .accepted _, hget, rfl, rfl, Nat.le_of_eq List.length_append⟩
  · rename_i hget
    exact .inr ⟨_, .registered _, hget, rfl, rfl, Nat.le_add_right _ _⟩
  · rename_i hget
    split <;> exact .inr ⟨_, .looks, hget, rfl, rfl, Nat.le_add_right _ _⟩
  · rename_i hget
    split
    · exact .inr ⟨_, .ended, hget, rfl, rfl, Nat.le_add_right _ _⟩
    · exact .inr ⟨_, .calls, hget, rfl, rfl, Nat.le_add_right _ _⟩
  · exact .inl rfl
  · exact .inl rfl

theorem Deaf.potential_listen (h : Deaf s) :
    (s.listen thread wire fails).potential ≤ s.potential := by
  obtain heq | ⟨l, l', hget, hl', hlisteners, hlength⟩ :=
    @Deaf.listen_cases _ _ thread wire fails h
  · rw [heq]
  · have hwaiting : (s.listen thread wire fails).waiting =
        s.waiting - (if l.isWaiting then 1 else 0) + (if l'.isWaiting then 1 else 0) := by
      rw [waiting, hlisteners]
      exact waiting_goOn hget
    have hpos : (if l.isWaiting then 1 else 0) ≤ s.waiting := by
      split
      · rename_i hl
        exact List.countP_pos_iff.mpr ⟨l, List.mem_of_getElem? hget, hl⟩
      · exact Nat.zero_le _
    rw [potential, potential, hwaiting, hl', if_neg Bool.false_ne_true]
    omega

/-- Nobody comes to listen without another start. -/
theorem Deaf.step (h : Deaf s) (hevent : event ≠ .start) :
    Deaf (s.step S event) ∧ (s.step S event).potential ≤ s.potential := by
  cases event with
  | start => exact absurd rfl hevent
  | bind taken closes =>
    have hsame : s.bind taken closes = s := by
      rw [Service.bind, h.starting]
    rw [Service.step, hsame]
    exact ⟨h, Nat.le_refl _⟩
  | collect server =>
    rw [Service.step, Service.collect]
    split
    · exact ⟨h, Nat.le_refl _⟩
    · refine ⟨⟨h.starting, fun v hv hbound => ?_⟩, Nat.le_refl _⟩
      rw [List.getElem?_set] at hbound
      split at hbound
      · split at hbound <;> cases hbound
      · exact h.not_bound v hv hbound
  | listen thread wire fails => exact ⟨h.listen, h.potential_listen⟩
  | process socket =>
    rw [Service.step, Service.process]
    split
    · split
      · exact ⟨⟨h.starting, h.not_bound⟩, Nat.le_refl _⟩
      · refine ⟨⟨h.starting, h.not_bound⟩, Nat.le_of_eq ?_⟩
        rw [potential, potential, List.length_modify]
        rfl
    · exact ⟨h, Nat.le_refl _⟩
  | stopStream =>
    refine ⟨⟨h.starting, h.not_bound⟩, Nat.le_of_eq ?_⟩
    rw [potential, potential, Service.step, stopStream, closeAllConnections, List.length_mapIdx]
    rfl

theorem Deaf.foldl (h : Deaf s) (hafter : .start ∉ after) :
    (after.foldl (Service.step S) s).potential ≤ s.potential := by
  refine (List.foldlRecOn (motive := fun s' => Deaf s' ∧ s'.potential ≤ s.potential) after
    (Service.step S) ⟨h, Nat.le_refl _⟩ fun s' h event hmem => ?_).2
  have hevent : event ≠ .start := by
    rintro rfl
    exact hafter hmem
  obtain ⟨hdeaf, hle⟩ := h.1.step (S := S) hevent
  exact ⟨hdeaf, hle.trans h.2⟩

/-- **A server socket cannot be bound while a thread waits** for connections
with another one. -/
theorem Listening.deaf_bind (h : Listening s) (hstarting : s.starting = true)
    (hwaits : .waits server ∈ s.listeners) :
    Deaf (s.bind taken closes) ∧ (s.bind taken closes).potential = s.potential ∧
      (s.bind taken closes).listeners = s.listeners := by
  obtain ⟨v, hfield, hunbound⟩ := h.of_starting hstarting
  -- the address is in use, by the server socket the thread waits with
  have hbound : s.serverSockets.contains .bound = true :=
    List.contains_iff_mem.mpr (List.mem_of_getElem? (h.of_waits hwaits))
  have hbind : s.bind taken closes =
      { s with
        serverSockets := if closes then s.serverSockets.set v .closed else s.serverSockets
        starting := false } := by
    rw [Service.bind, hstarting, hfield, hbound, Bool.or_true]
    rfl
  rw [hbind]
  refine ⟨⟨rfl, fun w hw => ?_⟩, rfl, rfl⟩
  cases hfield.symm.trans hw
  simp only
  split
  · rw [List.getElem?_set]
    simp
  · rw [hunbound]
    simp

/-! ### What each thread is given -/

/-- The event is a step of the thread that accepts connections. -/
def Event.isOf (thread : ℕ) : Event → Bool
  | .listen t _ _ => t = thread
  | _ => false

/-- The connections the thread is given. -/
def given (S : Server ρ) (thread : ℕ) (s : Service ρ) : List Event → ℕ
  | [] => 0
  | event :: events =>
    (if event.isOf thread then (s.step S event).sockets.length - s.sockets.length else 0) +
      given S thread (s.step S event) events

/-- One, if the thread waits for a connection. -/
def waitsAt (s : Service ρ) (thread : ℕ) : ℕ :=
  if s.listeners[thread]?.any Listener.isWaiting then 1 else 0

theorem waitsAt_of_listeners {s' : Service ρ} (h : s'.listeners = s.listeners) :
    s'.waitsAt thread = s.waitsAt thread := by
  rw [waitsAt, waitsAt, h]

theorem Deaf.waitsAt_step (h : Deaf s) (hevent : event ≠ .start) :
    (if event.isOf thread then (s.step S event).sockets.length - s.sockets.length else 0) +
      (s.step S event).waitsAt thread ≤ s.waitsAt thread := by
  cases event with
  | start => exact absurd rfl hevent
  | bind taken closes =>
    have hsame : s.bind taken closes = s := by
      rw [Service.bind, h.starting]
    simp only [Service.step, hsame, Event.isOf, Bool.false_eq_true, ↓reduceIte, Nat.zero_add,
      Nat.le_refl]
  | collect server =>
    simp only [Event.isOf, Bool.false_eq_true, ↓reduceIte, Nat.zero_add]
    rw [Service.step, Service.collect]
    split <;> exact Nat.le_refl _
  | listen t wire fails =>
    rw [Service.step, Event.isOf]
    obtain heq | ⟨l, l', hget, hl', hlisteners, hlength⟩ := @Deaf.listen_cases _ _ t wire fails h
    · rw [heq, Nat.sub_self, ite_self, Nat.zero_add]
    · by_cases ht : t = thread
      · -- a connection is paid for by the wait that ends with it
        subst ht
        have hlt := (List.getElem?_eq_some_iff.mp hget).1
        have hafter : (s.listen t wire fails).waitsAt t = 0 := by
          rw [waitsAt, hlisteners, List.getElem?_set_self hlt, Option.any_some, hl',
            if_neg Bool.false_ne_true]
        have hbefore : s.waitsAt t = if l.isWaiting then 1 else 0 := by
          rw [waitsAt, hget, Option.any_some]
        rw [hafter, hbefore, if_pos (decide_eq_true rfl)]
        omega
      · have hother : (s.listen t wire fails).waitsAt thread = s.waitsAt thread := by
          rw [waitsAt, hlisteners, List.getElem?_set_ne ht, waitsAt]
        rw [hother, decide_eq_false ht, if_neg Bool.false_ne_true, Nat.zero_add]
  | process socket =>
    simp only [Event.isOf, Bool.false_eq_true, ↓reduceIte, Nat.zero_add]
    rw [Service.step, Service.process]
    split
    · split <;> exact Nat.le_refl _
    · exact Nat.le_refl _
  | stopStream =>
    simp only [Event.isOf, Bool.false_eq_true, ↓reduceIte, Nat.zero_add]
    exact Nat.le_refl _

/-- **Where nobody listens**, a thread is given the connection it waits for
at most. -/
theorem Deaf.given_le (h : Deaf s) (hafter : .start ∉ after) :
    given S thread s after ≤ s.waitsAt thread := by
  induction after generalizing s with
  | nil => exact Nat.zero_le _
  | cons event after ih =>
    rw [List.mem_cons, not_or] at hafter
    have hevent : event ≠ .start := Ne.symm hafter.1
    have hstep := @Deaf.waitsAt_step _ S _ event thread h hevent
    have hrest := ih (h.step (S := S) hevent).1 hafter.2
    rw [given]
    omega

/-- **A server that is started again while it waits for a connection takes
that one, and no more**: until the next start, each thread that waited is
given one connection at most, and no other connection is accepted. -/
theorem potential_run_bind (hstarting : (run S before).starting = true)
    (hwaits : .waits server ∈ (run S before).listeners) (hafter : .start ∉ after) :
    (run S (before ++ .bind taken closes :: after)).potential ≤ (run S before).potential ∧
      ∀ thread, given S thread (run S before) (.bind taken closes :: after) ≤
        (run S before).waitsAt thread := by
  obtain ⟨hdeaf, hpotential, hlisteners⟩ :=
    @Listening.deaf_bind _ _ server taken closes listening_run hstarting hwaits
  constructor
  · rw [run_append, List.foldl_cons, ← hpotential]
    exact hdeaf.foldl hafter
  · intro thread
    simp only [given, Event.isOf, Bool.false_eq_true, ↓reduceIte, Nat.zero_add]
    rw [← waitsAt_of_listeners hlisteners]
    exact hdeaf.given_le hafter

/-- The service is created once more, and two connections would come in: the
thread that waits is given the first. -/
theorem potential_run_bind_request :
    (run pathServer ((created ++ [.start]) ++
      .bind false false :: (request.drop 3 ++ request.drop 2))).potential ≤ 1 ∧
      given pathServer 0 (run pathServer (created ++ [.start]))
        (.bind false false :: (request.drop 3 ++ request.drop 2)) ≤ 1 := by
  have hpotential : (run pathServer (created ++ [.start])).potential = 1 := by decide
  have hwaits : (run pathServer (created ++ [.start])).waitsAt 0 = 1 := by decide
  obtain ⟨hbound, hgiven⟩ := @potential_run_bind _ pathServer (created ++ [.start])
    (request.drop 3 ++ request.drop 2) 0 false false rfl (List.mem_singleton.mpr rfl)
    (by simp [request, created])
  exact ⟨hpotential ▸ hbound, hwaits ▸ hgiven 0⟩

end Service

end NanoHTTPD

end SambaProvider

import SambaProvider.Streaming.KeepAlive
import Mathlib.Data.Finset.Basic

/-!
# The server of the streaming service

`start` and the thread it makes, the connections that are registered, and
`stopStream`, while the service is created and destroyed. However the
threads take turns, each connection is served as if there were no other;
`stopStream` closes all connections but those that are about to be
registered; and a server that is started again while it waits for a
connection takes that one, and no more.
-/

namespace SambaProvider

open Lib Lib.Percent

namespace NanoHTTPD

variable {ρ : Type}

namespace Connection

variable {S : Server ρ} {c : Connection ρ} {n : ℕ}

/-- `safeClose`. -/
def close (c : Connection ρ) : Connection ρ := { c with closed := true }

/-- One more request. -/
theorem run_succ_last :
    c.run S (n + 1) = if (c.run S n).closed then c.run S n else (c.run S n).execute S := by
  induction n generalizing c with
  | zero => rfl
  | succ n ih => exact ih

theorem sent_finish {inputStream : Pushback UInt8} {answered : Kept × Outcome ρ} :
    c.sent <+: (c.finish inputStream answered).sent := by
  obtain ⟨kept, r | r | -⟩ := answered
  · exact List.prefix_append ..
  · exact List.prefix_append ..
  · exact List.prefix_rfl

/-- What was sent is not taken back. -/
theorem sent_execute : c.sent <+: (c.execute S).sent := by
  unfold execute
  split
  · split
    · split <;> exact sent_finish
    · exact List.prefix_rfl
  · exact List.prefix_rfl

theorem sent_run_le {m : ℕ} (h : n ≤ m) : (c.run S n).sent <+: (c.run S m).sent := by
  induction h with
  | refl => exact List.prefix_rfl
  | @step m _ ih =>
    rw [run_succ_last]
    split
    · exact ih
    · exact ih.trans sent_execute

/-- Whatever the number of requests, a beginning of the replies is sent. -/
theorem sent_run_replies {heads : List Head} {wire : List (Arrival UInt8)} (h : Steady wire)
    (hwire : arrived wire = heads.flatMap Head.bytes) :
    ((start wire).run S n).sent <+: Exchange.replies S ⟨fun _ => none, none⟩ heads := by
  have hrun := (Exchange.run_replies (S := S) (x := (start wire).view) (n := n + heads.length + 1)
    rfl hwire (by omega)).2
  rw [← view_run (ready_start h)] at hrun
  have hall : ((start wire).run S (n + heads.length + 1)).sent =
    Exchange.replies S ⟨fun _ => none, none⟩ heads := hrun
  rw [← hall]
  exact sent_run_le (by omega)

end Connection

/-- A server socket: just made, bound to the port, or closed. -/
inductive ServerSocket
  | unbound
  | bound
  | closed
  deriving DecidableEq

/-- Where a thread is that accepts connections. -/
inductive Listener
  /-- It is about to call `accept`. -/
  | calls
  /-- It is in `accept`, on a server socket. -/
  | waits (server : ℕ)
  /-- `accept` has given it a connection. -/
  | accepted (socket : ℕ)
  /-- It has registered the connection. -/
  | registered (socket : ℕ)
  /-- It is about to look whether the server socket is closed. -/
  | looks
  | ended
  deriving DecidableEq

/-- The connection a thread that accepts connections has in hand. -/
def Listener.hand : Listener → Option ℕ
  | .accepted socket | .registered socket => some socket
  | _ => none

def Listener.isWaiting : Listener → Bool
  | .waits _ => true
  | _ => false

/-- A connection that was accepted, and what arrives on it. -/
structure Accepted (ρ : Type) where
  wire : List (Arrival UInt8)
  connection : Connection ρ

/-- The process of the service. Server sockets and connections are numbered
as they are made; a connection that is processed has a thread of its own. -/
structure Service (ρ : Type) where
  serverSockets : List ServerSocket := []
  myServerSocket : Option ℕ := none
  starting : Bool := false
  listeners : List Listener := []
  sockets : List (Accepted ρ) := []
  openConnections : Finset ℕ := ∅
  processed : Finset ℕ := ∅

namespace Service

open Connection (getHead pathServer)

/-- What happens in the process. -/
inductive Event
  /-- `start` makes a server socket. -/
  | start
  /-- `start` binds it, unless another process has the port. Where it
  cannot, the platform may close it. -/
  | bind (taken closes : Bool)
  /-- The runtime finds a server socket that nobody holds. -/
  | collect (server : ℕ)
  /-- A thread that accepts connections goes on; a connection it is given
  has this to send, and may fail. -/
  | listen (thread : ℕ) (wire : List (Arrival UInt8)) (fails : Bool)
  /-- The thread of a connection goes on. -/
  | process (socket : ℕ)
  | stopStream

/-- `new ServerSocket()`, in `start`. -/
def start (s : Service ρ) : Service ρ :=
  if s.starting then s
  else { s with
    serverSockets := s.serverSockets ++ [.unbound]
    myServerSocket := some s.serverSockets.length
    starting := true }

/-- `bind`, in `start`, and the thread that is made after it. -/
def bind (s : Service ρ) (taken closes : Bool) : Service ρ :=
  match s.starting, s.myServerSocket with
  | true, some server =>
    -- Only one server socket can have the port.
    if taken || s.serverSockets.contains .bound then
      { s with
        serverSockets := if closes then s.serverSockets.set server .closed else s.serverSockets
        starting := false }
    else
      { s with
        serverSockets := s.serverSockets.set server .bound
        starting := false
        listeners := s.listeners ++ [.calls] }
  | _, _ => s

/-- A server socket is closed if neither the field nor a thread has it. -/
def collect (s : Service ρ) (server : ℕ) : Service ρ :=
  if s.myServerSocket = some server ∨ .waits server ∈ s.listeners then s
  else { s with serverSockets := s.serverSockets.set server .closed }

/-- `isClosed`, of a connection. -/
def isClosed (s : Service ρ) (socket : ℕ) : Bool :=
  match s.sockets[socket]? with
  | some c => c.connection.closed
  | none => true

/-- `registerConnection`. -/
def registerConnection (s : Service ρ) (socket : ℕ) : Service ρ :=
  { s with openConnections := insert socket s.openConnections }

/-- `unRegisterConnection`. -/
def unRegisterConnection (s : Service ρ) (socket : ℕ) : Service ρ :=
  { s with openConnections := s.openConnections.erase socket }

/-- `closeAllConnections`. -/
def closeAllConnections (s : Service ρ) : Service ρ :=
  { s with
    sockets := s.sockets.mapIdx fun i c =>
      if i ∈ s.openConnections then { c with connection := c.connection.close } else c }

/-- `stopStream`. -/
def stopStream (s : Service ρ) : Service ρ := s.closeAllConnections

/-- A connection comes in. -/
def accept (s : Service ρ) (wire : List (Arrival UInt8)) : Service ρ :=
  { s with sockets := s.sockets ++ [⟨wire, Connection.start wire⟩] }

/-- A thread that accepts connections goes on. -/
def goOn (s : Service ρ) (thread : ℕ) (l : Listener) : Service ρ :=
  { s with listeners := s.listeners.set thread l }

/-- The loop around `accept`, up to where other threads have a say. -/
def listen (s : Service ρ) (thread : ℕ) (wire : List (Arrival UInt8)) (fails : Bool) : Service ρ :=
  match s.listeners[thread]? with
  | some .calls =>
    match s.myServerSocket.filter fun server => s.serverSockets[server]? = some .bound with
    | some server => s.goOn thread (.waits server)
    -- A `SocketException`, which is ignored.
    | none => s.goOn thread .looks
  | some (.waits server) =>
    if fails || s.serverSockets[server]? ≠ some .bound then s.goOn thread .looks
    else (s.accept wire).goOn thread (.accepted s.sockets.length)
  | some (.accepted socket) => (s.registerConnection socket).goOn thread (.registered socket)
  | some (.registered socket) =>
    -- `setSoTimeout` and `getInputStream` throw if the connection is closed.
    if fails || s.isClosed socket then s.goOn thread .looks
    else { s with processed := insert socket s.processed }.goOn thread .looks
  | some .looks =>
    if (s.myServerSocket.bind fun server => s.serverSockets[server]?) = some .closed then
      s.goOn thread .ended
    else s.goOn thread .calls
  | some .ended | none => s

/-- The thread of a connection: a call of `execute`, or its end. -/
def process (S : Server ρ) (s : Service ρ) (socket : ℕ) : Service ρ :=
  if socket ∈ s.processed then
    if s.isClosed socket then
      { s.unRegisterConnection socket with processed := s.processed.erase socket }
    else
      { s with
        sockets := s.sockets.modify socket fun c =>
          { c with connection := c.connection.execute S } }
  else s

/-- One event. What cannot happen makes no difference. -/
def step (S : Server ρ) (s : Service ρ) : Event → Service ρ
  | .start => s.start
  | .bind taken closes => s.bind taken closes
  | .collect server => s.collect server
  | .listen thread wire fails => s.listen thread wire fails
  | .process socket => s.process S socket
  | .stopStream => s.stopStream

/-- The process after the events. -/
def run (S : Server ρ) (events : List Event) : Service ρ := events.foldl (step S) {}

variable {S : Server ρ} {s : Service ρ} {c : Accepted ρ} {l l' l'' : Listener} {event : Event}
variable {events before after : List Event} {thread server : ℕ}
variable {wire : List (Arrival UInt8)} {taken closes fails : Bool}

theorem run_append : run S (before ++ after) = after.foldl (step S) (run S before) :=
  List.foldl_append

/-! ## The steps -/

theorem sockets_bind : (s.bind taken closes).sockets = s.sockets := by
  unfold bind
  split
  · split <;> rfl
  · rfl

theorem sockets_start : s.start.sockets = s.sockets := by
  unfold start
  split <;> rfl

theorem sockets_collect : (s.collect server).sockets = s.sockets := by
  unfold collect
  split <;> rfl

/-- A thread that accepts connections gets one, or none. -/
theorem sockets_listen (s : Service ρ) (thread : ℕ) (wire : List (Arrival UInt8))
    (fails : Bool) : (s.listen thread wire fails).sockets = s.sockets ∨
    (s.listen thread wire fails).sockets = s.sockets ++ [⟨wire, Connection.start wire⟩] := by
  unfold listen
  split
  · split <;> exact .inl rfl
  · split
    · exact .inl rfl
    · exact .inr rfl
  · exact .inl rfl
  · split <;> exact .inl rfl
  · split <;> exact .inl rfl
  · exact .inl rfl
  · exact .inl rfl

theorem mem_goOn (h : s.listeners[thread]? = some l) :
    l'' ∈ (s.goOn thread l').listeners ↔
      l'' = l' ∨ ∃ t, t ≠ thread ∧ s.listeners[t]? = some l'' := by
  have hlt := (List.getElem?_eq_some_iff.mp h).1
  rw [List.mem_iff_getElem?]
  constructor
  · rintro ⟨t, ht⟩
    rw [goOn, List.getElem?_set, if_pos hlt] at ht
    split at ht
    · exact .inl (Option.some.inj ht).symm
    · rename_i hne
      exact .inr ⟨t, Ne.symm hne, ht⟩
  · rintro (rfl | ⟨t, hne, ht⟩)
    · exact ⟨thread, by rw [goOn, List.getElem?_set_self hlt]⟩
    · exact ⟨t, by rw [goOn, List.getElem?_set_ne (Ne.symm hne), ht]⟩

/-- **What holds of each connection by itself**: of one that has just been
accepted, and after a request and a close. -/
theorem forall_sockets_step {P : Accepted ρ → Prop}
    (hstart : ∀ wire, P ⟨wire, Connection.start wire⟩)
    (hexecute : ∀ c, P c → c.connection.closed = false → P ⟨c.wire, c.connection.execute S⟩)
    (hclose : ∀ c, P c → P ⟨c.wire, c.connection.close⟩) (h : ∀ c ∈ s.sockets, P c) :
    ∀ c ∈ (s.step S event).sockets, P c := by
  cases event with
  | start => exact fun c hc => h c (by rwa [step, sockets_start] at hc)
  | bind taken closes => exact fun c hc => h c (by rwa [step, sockets_bind] at hc)
  | collect server => exact fun c hc => h c (by rwa [step, sockets_collect] at hc)
  | listen thread wire fails =>
    intro c hc
    rw [step] at hc
    rcases sockets_listen s thread wire fails with hsame | hmore
    · exact h c (by rwa [hsame] at hc)
    · rw [hmore, List.mem_append, List.mem_singleton] at hc
      rcases hc with hc | rfl
      · exact h c hc
      · exact hstart wire
  | process socket =>
    intro c hc
    rw [step, process] at hc
    split at hc
    · split at hc
      · exact h c hc
      · rename_i hopen
        obtain ⟨i, hi⟩ := List.mem_iff_getElem?.mp hc
        rw [List.getElem?_modify] at hi
        obtain ⟨c, hget, rfl⟩ := Option.map_eq_some_iff.mp hi
        split
        · rename_i heq
          refine hexecute c (h c (List.mem_of_getElem? hget)) ?_
          rw [isClosed, heq, hget] at hopen
          exact eq_false_of_ne_true hopen
        · exact h c (List.mem_of_getElem? hget)
    · exact h c hc
  | stopStream =>
    intro c hc
    obtain ⟨i, hi⟩ := List.mem_iff_getElem?.mp hc
    rw [step, stopStream, closeAllConnections, List.getElem?_mapIdx] at hi
    obtain ⟨c, hget, rfl⟩ := Option.map_eq_some_iff.mp hi
    split
    · exact hclose c (h c (List.mem_of_getElem? hget))
    · exact h c (List.mem_of_getElem? hget)

theorem forall_sockets_run {P : Accepted ρ → Prop}
    (hstart : ∀ wire, P ⟨wire, Connection.start wire⟩)
    (hexecute : ∀ c, P c → c.connection.closed = false → P ⟨c.wire, c.connection.execute S⟩)
    (hclose : ∀ c, P c → P ⟨c.wire, c.connection.close⟩) :
    ∀ c ∈ (run S events).sockets, P c := by
  refine List.foldlRecOn (motive := fun s => ∀ c ∈ s.sockets, P c) events (step S) ?_
    fun _ h _ _ => forall_sockets_step hstart hexecute hclose h
  exact fun c hc => absurd hc List.not_mem_nil

/-! ## Each connection for itself -/

/-- A connection is where so many requests bring it when it is alone, or was
closed there. -/
theorem connection_run (h : c ∈ (run S events).sockets) :
    ∃ n, c.connection = (Connection.start c.wire).run S n ∨
      c.connection = ((Connection.start c.wire).run S n).close := by
  refine forall_sockets_run (P := fun c => ∃ n, c.connection = (Connection.start c.wire).run S n ∨
    c.connection = ((Connection.start c.wire).run S n).close) ?_ ?_ ?_ c h
  · exact fun wire => ⟨0, .inl rfl⟩
  · rintro c ⟨n, hrun | hrun⟩ hopen
    · refine ⟨n + 1, .inl ?_⟩
      rw [hrun] at hopen ⊢
      rw [Connection.run_succ_last, if_neg (by rw [hopen]; exact Bool.false_ne_true)]
    · rw [hrun] at hopen
      cases hopen
  · rintro c ⟨n, hrun | hrun⟩
    · exact ⟨n, .inr (by rw [hrun])⟩
    · exact ⟨n, .inr (by rw [hrun]; rfl)⟩

/-- **Each connection is served as if there were no other**: what was sent
on it is what so many requests send on it when it is alone, and a beginning of
the replies to the heads it brings. -/
theorem sent_run (h : c ∈ (run S events).sockets) :
    (∃ n, c.connection.sent = ((Connection.start c.wire).run S n).sent) ∧
      ∀ heads : List Head, Steady c.wire → arrived c.wire = heads.flatMap Head.bytes →
        c.connection.sent <+: Exchange.replies S ⟨fun _ => none, none⟩ heads := by
  obtain ⟨n, hrun | hrun⟩ := connection_run h
  · exact ⟨⟨n, by rw [hrun]⟩, fun heads hsteady hwire =>
      hrun ▸ Connection.sent_run_replies hsteady hwire⟩
  · exact ⟨⟨n, by rw [hrun, Connection.close]⟩, fun heads hsteady hwire =>
      hrun ▸ Connection.sent_run_replies (n := n) hsteady hwire⟩

/-- The service is created, and waits for a connection. -/
def created : List Event := [.start, .bind false false, .listen 0 [] false]

/-- A connection with a request comes in. -/
def request : List Event :=
  created ++ [.listen 0 (leave getHead.bytes []) false, .listen 0 [] false, .listen 0 [] false,
    .process 0]

/-- A connection with a request that was processed. -/
def requested : Accepted (List Char) where
  wire := leave getHead.bytes []
  connection := (Connection.start (leave getHead.bytes [])).execute pathServer

/-- A request for another path. -/
def otherHead : Head where
  first := "GET /b".toList
  lines := getHead.lines
  first_oneLine := by simp
  lines_oneLine := getHead.lines_oneLine
  lines_ne := getHead.lines_ne
  length_le := by decide

/-- A connection with three requests comes in, and while they are processed
another one. -/
def together : List Event :=
  created ++ [.listen 0 (leave ([getHead, getHead, getHead].flatMap Head.bytes) []) false,
    .listen 0 [] false, .listen 0 [] false, .listen 0 [] false, .listen 0 [] false, .process 0,
    .listen 0 (leave otherHead.bytes []) false, .listen 0 [] false, .listen 0 [] false, .process 1,
    .process 0]

/-- Two of the three requests were processed, and the one in between them. -/
theorem sent_together :
    (run pathServer together).sockets.map (fun c => (c.wire, c.connection.sent)) =
      [(leave ([getHead, getHead, getHead].flatMap Head.bytes) [], ["/a".toList, "/a".toList]),
        (leave otherHead.bytes [], ["/b".toList])] := by decide +kernel

/-- Each of the two connections is sent a beginning of its own replies. -/
theorem sent_run_together :
    ∃ c₀ c₁, (run pathServer together).sockets = [c₀, c₁] ∧
      c₀.connection.sent = ["/a".toList, "/a".toList] ∧
      (∃ n, ((Connection.start c₀.wire).run pathServer n).sent = ["/a".toList, "/a".toList]) ∧
      c₀.connection.sent <+: ["/a".toList, "/a".toList, "/a".toList] ∧
      c₁.connection.sent = ["/b".toList] ∧
      (∃ n, ((Connection.start c₁.wire).run pathServer n).sent = ["/b".toList]) ∧
      c₁.connection.sent <+: ["/b".toList] := by
  have hlen : (run pathServer together).sockets.length = 2 := by
    rw [← List.length_map, sent_together]
    rfl
  obtain ⟨c₀, c₁, hsockets⟩ := List.length_eq_two.mp hlen
  have hsent := sent_together
  rw [hsockets, List.map_cons, List.map_cons, List.map_nil, List.cons.injEq, List.cons.injEq,
    Prod.mk.injEq, Prod.mk.injEq] at hsent
  obtain ⟨⟨hwire₀, hsent₀⟩, ⟨hwire₁, hsent₁⟩, -⟩ := hsent
  have hreplies₀ : Exchange.replies pathServer ⟨fun _ => none, none⟩ [getHead, getHead, getHead] =
      ["/a".toList, "/a".toList, "/a".toList] := by decide
  have hreplies₁ : Exchange.replies pathServer ⟨fun _ => none, none⟩ [otherHead] =
      ["/b".toList] := by decide
  obtain ⟨⟨n₀, hn₀⟩, hprefix₀⟩ :=
    sent_run (S := pathServer) (c := c₀) (by rw [hsockets]; exact List.mem_cons_self)
  obtain ⟨⟨n₁, hn₁⟩, hprefix₁⟩ := sent_run (S := pathServer) (c := c₁)
    (by rw [hsockets]; exact List.mem_cons_of_mem c₀ List.mem_cons_self)
  refine ⟨c₀, c₁, hsockets, hsent₀, ⟨n₀, hn₀ ▸ hsent₀⟩, hreplies₀ ▸ hprefix₀ _ ?_ ?_, hsent₁,
    ⟨n₁, hn₁ ▸ hsent₁⟩, hreplies₁ ▸ hprefix₁ _ ?_ ?_⟩
  · exact hwire₀ ▸ Connection.steady_piece
  · rw [hwire₀, Pushback.arrived_leave]
    exact List.append_nil _
  · exact hwire₁ ▸ Connection.steady_piece
  · rw [hwire₁, Pushback.arrived_leave]
    rfl

end Service

end NanoHTTPD

end SambaProvider

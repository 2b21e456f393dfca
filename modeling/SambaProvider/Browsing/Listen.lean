import SambaProvider.Browsing.BroadcastUtils

/-!
# Listening for servers

`BroadcastBrowsingProvider.listenForServers`. The parser gets the whole
receive buffer, of which the payload is only the beginning, and what it
throws leaves the loop. So a response that breaks off may be completed by
the zeros behind it, and a negative one ends the listening.
-/

namespace SambaProvider

open Lib

/-- A datagram: the address of its sender, and its payload. -/
structure Datagram where
  sender : String
  payload : List UInt8
  length_le : payload.length ≤ 1024

/-- The receive buffer: the payload, and the zeros it was made with. -/
def Datagram.data (d : Datagram) : List UInt8 :=
  d.payload ++ List.replicate (1024 - d.payload.length) 0

/-- The calls of `addServiceData` for the servers of a response. -/
def Datagram.calls (d : Datagram) (servers : List String) : List (String × String) :=
  servers.map fun name => (d.sender, name)

/-- `listenForServers` on the datagrams that come before the timeout: the
calls made for each of them. -/
def listenForServers (transId : ℤ) : List Datagram → List (List (String × String))
  -- `SocketTimeoutException` breaks the loop.
  | [] => []
  | packet :: packets =>
    match extractServers packet.data transId with
    | .ok servers => packet.calls servers :: listenForServers transId packets
    -- The `catch` around the loop only logs.
    | .error _ => []

/-! ## What the datagrams say -/

/-- The names `extractServers` yields, if it yields any. -/
def found (transId : ℤ) (data : List UInt8) : List String :=
  match extractServers data transId with
  | .ok servers => servers
  | .error _ => []

/-- What a datagram contributes by its own payload. -/
def Datagram.own (transId : ℤ) (d : Datagram) : List (String × String) :=
  d.calls (found transId d.payload)

/-- **Discovery is not spoiled**: every datagram contributes what it says
itself, whatever the others are, and that is all that is handed on, in
order. -/
structure Discovers (transId : ℤ) (ds : List Datagram) : Prop where
  handed : (listenForServers transId ds).flatten = ds.flatMap (Datagram.own transId)
  each : ∀ (i : ℕ) (d : Datagram), ds[i]? = some d →
    (listenForServers transId ds)[i]?.getD [] = d.own transId

/-- The data begin with a response that lists a server. -/
def ListsServer (id : ℤ) (data : List UInt8) : Prop :=
  ∃ w servers, ResponseWord id w servers ∧ servers ≠ [] ∧ w <+: data

/-- **Nothing disturbs the others.** Until a negative response, whatever
lists a server with the zeros behind it does so without them; and behind a
negative response nothing lists one. -/
def Undisturbed (id : ℤ) (ds : List Datagram) : Prop :=
  ∀ pre d post, ds = pre ++ d :: post →
    ((∀ e ∈ pre, ¬ Negative id e.data) → ListsServer id d.data → ListsServer id d.payload) ∧
      ((∃ e ∈ pre, Negative id e.data) → ¬ ListsServer id d.payload)

variable {id : ℤ} {d : Datagram} {ds : List Datagram} {data : List UInt8}
variable {servers : List String}

/-! ## One datagram -/

theorem found_of_ok (h : extractServers data id = .ok servers) : found id data = servers := by
  rw [found, h]

theorem found_of_error {e : PacketError} (h : extractServers data id = .error e) :
    found id data = [] := by
  rw [found, h]

theorem listsServer_iff : ListsServer id data ↔ found id data ≠ [] := by
  constructor
  · rintro ⟨w, servers, hw, hne, rest, rfl⟩
    rw [found_of_ok (extractServers_of_word hw rest)]
    exact hne
  · intro h
    cases hdata : extractServers data id with
    | ok servers =>
      rw [found_of_ok hdata] at h
      obtain ⟨w, hw, hp⟩ := extractServers_eq_ok hdata h
      exact ⟨w, servers, hw, h, hp⟩
    | error e => exact absurd (found_of_error hdata) h

/-- What the payload lists is what the buffer lists. -/
theorem found_data (h : ListsServer id d.payload) : found id d.data = found id d.payload := by
  obtain ⟨w, servers, hw, -, rest, hrest⟩ := h
  rw [Datagram.data, ← hrest, List.append_assoc, found_of_ok (extractServers_of_word hw _),
    found_of_ok (extractServers_of_word hw _)]

/-- **The zeros make no difference** where they complete no response. -/
theorem found_eq_iff : found id d.data = found id d.payload ↔
    (ListsServer id d.data → ListsServer id d.payload) := by
  constructor
  · intro h
    rw [listsServer_iff, listsServer_iff, h]
    exact fun hne => hne
  · intro h
    by_cases hpayload : ListsServer id d.payload
    · exact found_data hpayload
    · have hdata : ¬ ListsServer id d.data := fun hdata => hpayload (h hdata)
      rw [listsServer_iff, not_not] at hpayload hdata
      rw [hpayload, hdata]

/-- A negative response lists nothing. -/
theorem not_listsServer_of_negative (h : Negative id d.data) : ¬ ListsServer id d.payload := by
  intro hlists
  have hfound := found_data hlists
  rw [found_of_error (extractServers_eq_error_iff.mpr ⟨h, rfl⟩)] at hfound
  exact listsServer_iff.mp hlists hfound.symm

theorem calls_inj {l l' : List String} : d.calls l = d.calls l' ↔ l = l' := by
  refine ⟨fun h => ?_, fun h => by rw [h]⟩
  exact List.map_injective_iff.mpr (fun _ _ hab => (Prod.mk.inj hab).2) h

/-! ## The loop -/

/-- A datagram that throws nothing: the loop goes on. -/
theorem listenForServers_cons (h : ¬ Negative id d.data) :
    listenForServers id (d :: ds) = d.calls (found id d.data) :: listenForServers id ds := by
  rw [listenForServers]
  cases hdata : extractServers d.data id with
  | ok servers => rw [found_of_ok hdata]
  | error e => exact absurd (extractServers_eq_error_iff.mp hdata).1 h

/-- A negative response ends it. -/
theorem listenForServers_negative (h : Negative id d.data) :
    listenForServers id (d :: ds) = [] := by
  rw [listenForServers, extractServers_eq_error_iff.mpr ⟨h, rfl⟩]

theorem own_eq_nil_iff : d.own id = [] ↔ ¬ ListsServer id d.payload := by
  rw [listsServer_iff, not_not, Datagram.own, Datagram.calls, List.map_eq_nil_iff]

/-- **What a run contributes**, by its first datagram. -/
theorem discovers_cons (h : ¬ Negative id d.data) : Discovers id (d :: ds) ↔
    (ListsServer id d.data → ListsServer id d.payload) ∧ Discovers id ds := by
  rw [← found_eq_iff, ← @calls_inj d]
  constructor
  · rintro ⟨hhanded, heach⟩
    rw [listenForServers_cons h] at hhanded heach
    have hfirst : d.calls (found id d.data) = d.own id := heach 0 d rfl
    refine ⟨hfirst, ?_, fun i e he => heach (i + 1) e he⟩
    rw [List.flatten_cons, List.flatMap_cons, hfirst] at hhanded
    exact List.append_cancel_left hhanded
  · rintro ⟨hfirst, hhanded, heach⟩
    refine ⟨?_, fun i e he => ?_⟩
    · rw [listenForServers_cons h, List.flatten_cons, List.flatMap_cons, hfirst, hhanded]
      rfl
    · rw [listenForServers_cons h]
      cases i with
      | zero =>
        cases he
        exact hfirst
      | succ i => exact heach i e he

theorem discovers_negative (h : Negative id d.data) : Discovers id (d :: ds) ↔
    ∀ e ∈ ds, ¬ ListsServer id e.payload := by
  constructor
  · rintro ⟨-, heach⟩ e he
    obtain ⟨i, hi⟩ := List.mem_iff_getElem?.mp he
    have howns := heach (i + 1) e hi
    rw [listenForServers_negative h] at howns
    exact own_eq_nil_iff.mp howns.symm
  · intro hall
    have howns : ∀ e ∈ d :: ds, e.own id = [] := by
      intro e he
      rcases List.mem_cons.mp he with rfl | he
      · exact own_eq_nil_iff.mpr (not_listsServer_of_negative h)
      · exact own_eq_nil_iff.mpr (hall e he)
    refine ⟨?_, fun i e he => ?_⟩
    · rw [listenForServers_negative h, List.flatMap_eq_nil_iff.mpr howns]
      rfl
    · rw [listenForServers_negative h, howns e (List.mem_of_getElem? he)]
      rfl

/-- What disturbs nothing, by the first datagram. -/
theorem undisturbed_cons : Undisturbed id (d :: ds) ↔
    (ListsServer id d.data → ListsServer id d.payload) ∧
      (Negative id d.data → ∀ e ∈ ds, ¬ ListsServer id e.payload) ∧
      (¬ Negative id d.data → Undisturbed id ds) := by
  constructor
  · intro h
    refine ⟨(h [] d ds rfl).1 nofun, fun hneg e he => ?_, fun hnot pre e post heq => ?_⟩
    · obtain ⟨pre, post, rfl⟩ := List.append_of_mem he
      exact (h (d :: pre) e post rfl).2 ⟨d, List.mem_cons_self, hneg⟩
    · obtain ⟨hbefore, hbehind⟩ := h (d :: pre) e post (by rw [heq]; rfl)
      refine ⟨fun hpre => hbefore fun x hx => ?_, fun ⟨x, hx, hneg⟩ =>
        hbehind ⟨x, List.mem_cons_of_mem d hx, hneg⟩⟩
      rcases List.mem_cons.mp hx with rfl | hx
      · exact hnot
      · exact hpre x hx
  · rintro ⟨hfirst, hneg, hnot⟩ pre e post heq
    cases pre with
    | nil =>
      cases heq
      exact ⟨fun _ => hfirst, fun ⟨x, hx, _⟩ => absurd hx List.not_mem_nil⟩
    | cons x pre =>
      cases heq
      by_cases h : Negative id d.data
      · exact ⟨fun hall => absurd h (hall d List.mem_cons_self),
          fun _ => hneg h e (List.mem_append_right pre List.mem_cons_self)⟩
      · obtain ⟨hbefore, hbehind⟩ := hnot h pre e post rfl
        refine ⟨fun hall => hbefore fun y hy => hall y (List.mem_cons_of_mem d hy), ?_⟩
        rintro ⟨y, hy, hyneg⟩
        rcases List.mem_cons.mp hy with rfl | hy
        · exact absurd hyneg h
        · exact hbehind ⟨y, hy, hyneg⟩

/-- **Discovery is not spoiled** exactly where nothing disturbs it. -/
theorem discovers_iff (id : ℤ) (ds : List Datagram) : Discovers id ds ↔ Undisturbed id ds := by
  induction ds with
  | nil =>
    constructor
    · rintro - pre d post h
      cases (List.append_eq_nil_iff.mp h.symm).2
    · exact fun _ => ⟨rfl, nofun⟩
  | cons d ds ih =>
    rw [undisturbed_cons, ← ih]
    by_cases h : Negative id d.data
    · rw [discovers_negative h]
      constructor
      · intro hall
        have hdata : ¬ ListsServer id d.data := by
          rw [listsServer_iff, not_not]
          exact found_of_error (extractServers_eq_error_iff.mpr ⟨h, rfl⟩)
        exact ⟨fun hlists => absurd hlists hdata, fun _ => hall, fun hnot => absurd h hnot⟩
      · exact fun hall => hall.2.1 h
    · rw [discovers_cons h]
      constructor
      · exact fun hall => ⟨hall.1, fun hneg => absurd hneg h, fun _ => hall.2⟩
      · exact fun hall => ⟨hall.1, hall.2.2 h⟩

/-- The head of a response to the first request, with a record of the
type. -/
def responseHead (type : UInt8) : List UInt8 :=
  [0, 1] ++ (List.replicate 10 0 ++ 0 :: ([] ++ [0, 0, type]))

theorem headWord_responseHead (type : UInt8) :
    HeadWord 1 (responseHead type) (some (charOf 0 type)) :=
  .record rfl (.record rfl rfl)

/-- The entry of a file server. -/
def nasEntry : NameEntry := ⟨Vector.replicate 15 0x4e, 0x20, #v[0, 0]⟩

/-- A negative response, and one that lists a server. -/
def refused : Datagram := ⟨"192.168.1.2", responseHead 0x0a, by decide⟩

def answered : Datagram :=
  ⟨"192.168.1.3", responseHead 0x21 ++
    (List.replicate 8 0 ++ 1 :: [nasEntry].flatMap NameEntry.toBytes),
    by simp [responseHead, NameEntry.toBytes]⟩

/-- The server that answers after the negative response is not found. -/
theorem not_discovers_refused : ¬ Discovers 1 [refused, answered] := by
  have hneg : Negative 1 refused.data :=
    ⟨_, _, headWord_responseHead 0x0a, by decide, by decide, List.prefix_append _ _⟩
  have hlists : ListsServer 1 answered.payload :=
    ⟨_, _, .nodes (headWord_responseHead 0x21) (.inr rfl) (.nodes rfl rfl),
      by simp [NameEntry.servers, nasEntry], List.prefix_refl _⟩
  rw [discovers_negative hneg]
  exact fun hall => hall answered List.mem_cons_self hlists

end SambaProvider

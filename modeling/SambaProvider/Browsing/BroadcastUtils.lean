import SambaProvider.Base.Bytes
import SambaProvider.Lib.Reader

/-!
# Node status packets

`BroadcastUtils.java`: the request that is broadcast, and the parser of
what comes back. The parser takes its bytes from a buffer one after
another; `get` gives a signed byte, so a length or a count from 128 on is
negative and its loop has no rounds. An underflow anywhere makes the
response an empty one, and a type that is no node status throws.
-/

namespace SambaProvider

open Lib

/-! ## The buffer -/

/-- What ends the parser early. -/
inductive PacketError
  /-- `BufferUnderflowException` -/
  | underflow
  /-- `BrowsingException` -/
  | browsing (message : String)
deriving DecidableEq, Repr

/-- Work on a `ByteBuffer`: what is left of it, and what is thrown. -/
abbrev BufferM := StateT (List UInt8) (Except PacketError)

/-- Two bytes as a `char`, the high one first. -/
def charOf (high low : UInt8) : ℕ := high.toNat * 256 + low.toNat

/-- `ByteBuffer.get()`. -/
def getByte : BufferM UInt8
  | [] => .error .underflow
  | b :: bytes => .ok (b, bytes)

/-- `ByteBuffer.getChar()`. -/
def getChar : BufferM ℕ
  | high :: low :: bytes => .ok (charOf high low, bytes)
  | _ => .error .underflow

/-- `ByteBuffer.get(byte[], 0, length)`. -/
def getArray (length : ℕ) : BufferM (List UInt8) := fun bytes =>
  if length ≤ bytes.length then .ok (bytes.take length, bytes.drop length) else .error .underflow

/-- `skipBytes`; a negative number skips none. -/
def skipBytes : ℕ → BufferM Unit
  | 0 => pure ()
  | n + 1 => do
    let _ ← getByte
    skipBytes n

/-! ## Names -/

/-- A byte in `US-ASCII`. -/
def asciiChar (b : UInt8) : Char := if b < 0x80 then Char.ofNat b.toNat else Char.ofNat 0xFFFD

/-- `String.trim()`. -/
def trim (text : List Char) : List Char :=
  ((text.dropWhile (· ≤ ' ')).reverse.dropWhile (· ≤ ' ')).reverse

/-- `FILE_SERVER_NODE_TYPE`. -/
def fileServerNodeType : ℤ := 0x20

/-- The server an entry stands for, if it is one. -/
def serverOf (name : List UInt8) (type : ℤ) : List String :=
  if type = fileServerNodeType then [String.ofList (trim (name.map asciiChar))] else []

/-! ## The parser -/

/-- `createPacket`. -/
def createPacket (transId : ℕ) : List UInt8 :=
  let putChar (c : ℕ) : List UInt8 := [UInt8.ofNat (c / 256), UInt8.ofNat c]
  putChar transId ++ putChar 0x0010 ++ putChar 1 ++ putChar 0 ++ putChar 0 ++ putChar 0 ++
    -- The length of the name, the name `*` and its padding.
    [0x20, 0x43, 0x4b] ++ List.replicate 30 0x41 ++ [0] ++
    -- The type of the question, and its class.
    putChar 0x21 ++ putChar 0x01

/-- The rest of the header, the name and the type. -/
def readRecord : BufferM ℕ := do
  skipBytes 2
  skipBytes 2
  skipBytes 2
  skipBytes 2
  skipBytes 2
  let nameLength ← getByte
  skipBytes (signed nameLength).toNat
  skipBytes 1
  getChar

/-- The transaction and the type of the record: `none` where the response
is not to our broadcast. -/
def readHead (expectedTransId : ℤ) : BufferM (Option ℕ) := do
  let transId ← getChar
  if (transId : ℤ) ≠ expectedTransId then pure none
  else
    let nodeStatus ← readRecord
    pure (some nodeStatus)

/-- The loop over the entries. -/
def readEntries : ℕ → List String → BufferM (List String)
  | 0, servers => pure servers
  | n + 1, servers => do
    let nameArray ← getArray 15
    let type ← getByte
    let servers := servers ++ serverOf nameArray (signed type)
    skipBytes 2
    readEntries n servers

/-- What follows the type. -/
def readNodes : BufferM (List String) := do
  skipBytes 2
  skipBytes 4
  skipBytes 2
  let addressListEntryCount ← getByte
  readEntries (signed addressListEntryCount).toNat []

/-- The exception for another type. -/
def negativeResponse : PacketError :=
  .browsing "Browsing failed: Received negative response for the broadcast"

/-- The body of the `try` of `extractServers`. -/
def readServers (expectedTransId : ℤ) : BufferM (List String) := do
  match ← readHead expectedTransId with
  | none => pure []
  | some nodeStatus =>
    if nodeStatus ≠ 0x20 ∧ nodeStatus ≠ 0x21 then throw negativeResponse else readNodes

/-- `extractServers`. -/
def extractServers (data : List UInt8) (expectedTransId : ℤ) : Except PacketError (List String) :=
  match readServers expectedTransId data with
  | .ok (servers, _) => .ok servers
  | .error .underflow => .ok []
  | .error e => .error e

/-! ## Entries -/

/-- An entry of a node status response: a name, its suffix and its
flags. -/
structure NameEntry where
  name : Vector UInt8 15
  suffix : UInt8
  flags : Vector UInt8 2

/-- The bytes of an entry. -/
def NameEntry.toBytes (e : NameEntry) : List UInt8 := e.name.toList ++ e.suffix :: e.flags.toList

/-- The name of an entry with the suffix of file servers. -/
def NameEntry.servers (e : NameEntry) : List String :=
  if e.suffix = 0x20 then [String.ofList (trim (e.name.toList.map asciiChar))] else []

/-! ## What the parser reads -/

/-- The buffer is too short. -/
def Underflows (e : PacketError) : Prop := e = .underflow

variable {w data : List UInt8} {id : ℤ}

theorem reads_getByte : Reads Underflows (Token some) Prod.mk getByte :=
  reads_token PacketError.underflow (show Underflows .underflow from rfl) rfl fun _ _ => rfl

/-- Words of a length. -/
def Chunk (n : ℕ) : Language UInt8 Unit := fun w _ => w.length = n

theorem reads_skipBytes (n : ℕ) : Reads Underflows (Chunk n) Prod.mk (skipBytes n) := by
  induction n with
  | zero =>
    refine (reads_ok ()).congr fun w u => ?_
    simp [Only, Chunk]
  | succ n ih =>
    refine (reads_getByte.bind fun _ => ih).congr fun w u => ?_
    constructor
    · rintro ⟨w₁, b, w₂, ⟨b', -, rfl⟩, hw₂, rfl⟩
      exact congrArg Nat.succ hw₂
    · intro h
      cases w with
      | nil => cases h
      | cons b w => exact ⟨[b], b, w, ⟨b, rfl, rfl⟩, Nat.succ.inj h, rfl⟩

/-- Skipping one part after another is skipping both. -/
theorem skipBytes_bind {α : Type} (m n : ℕ) (k : BufferM α) :
    (do skipBytes m; skipBytes n; k) = (do skipBytes (m + n); k) := by
  induction m with
  | zero => rw [skipBytes, pure_bind, Nat.zero_add]
  | succ m ih =>
    rw [Nat.succ_add, skipBytes, skipBytes, bind_assoc, bind_assoc, ih]

/-- A `char` is two bytes. -/
theorem getChar_eq : getChar = (do
    let high ← getByte
    let low ← getByte
    pure (charOf high low)) := by
  funext bytes
  rcases bytes with _ | ⟨high, _ | ⟨low, bytes⟩⟩
  · rfl
  · rfl
  · rfl

theorem reads_getChar :
    Reads Underflows (fun w c => ∃ a b, w = [a, b] ∧ c = charOf a b) Prod.mk getChar := by
  rw [getChar_eq]
  refine (reads_getByte.bind fun a => reads_getByte.map fun b => charOf a b).congr fun w c => ?_
  constructor
  · rintro ⟨w₁, a, w₂, ⟨a', ha, rfl⟩, ⟨b, ⟨b', hb, rfl⟩, rfl⟩, rfl⟩
    cases ha
    cases hb
    exact ⟨a, b, rfl, rfl⟩
  · rintro ⟨a, b, rfl, rfl⟩
    exact ⟨[a], a, [b], ⟨a, rfl, rfl⟩, ⟨b, ⟨b, rfl, rfl⟩, rfl⟩, rfl⟩

theorem reads_getArray (n : ℕ) :
    Reads Underflows (fun w a => w.length = n ∧ a = w) Prod.mk (getArray n) where
  word := by
    rintro w a ⟨rfl, rfl⟩ rest
    rw [getArray, if_pos (by simp), List.take_left, List.drop_left]
  cut := by
    rintro w a ⟨rfl, rfl⟩ p hp hne
    refine ⟨.underflow, if_neg fun hle => hne (hp.eq_of_length_le hle), rfl⟩
  ok := by
    intro bytes c hc
    unfold getArray at hc
    split at hc
    · rename_i hle
      cases hc
      exact ⟨bytes.take n, _, bytes.drop n, ⟨List.length_take_of_le hle, rfl⟩,
        (List.take_append_drop n bytes).symm, rfl⟩
    · cases hc
  wrong := by
    intro bytes e he hnot
    unfold getArray at he
    split at he
    · cases he
    · cases he
      exact absurd rfl hnot

/-! ### The head -/

/-- The words of `readRecord`. -/
inductive RecordWord : Language UInt8 ℕ
  | record {length separator c d : UInt8} {skipped name : List UInt8} :
      skipped.length = 10 → name.length = (signed length).toNat →
      RecordWord (skipped ++ length :: (name ++ [separator, c, d])) (charOf c d)

theorem reads_readRecord : Reads Underflows RecordWord Prod.mk readRecord := by
  have hskip : readRecord = (do
      skipBytes 10
      let nameLength ← getByte
      skipBytes ((signed nameLength).toNat + 1)
      getChar) := by
    unfold readRecord
    simp only [skipBytes_bind]
  rw [hskip]
  refine ((reads_skipBytes 10).bind fun _ => reads_getByte.bind fun nameLength =>
    (reads_skipBytes ((signed nameLength).toNat + 1)).bind fun _ => reads_getChar).congr
      fun w v => ?_
  constructor
  · rintro ⟨skipped, u, w₁, hskipped, ⟨w₂, length, w₃, ⟨t, ht, rfl⟩,
      ⟨name, u', w₄, hname, ⟨c, d, rfl, rfl⟩, rfl⟩, rfl⟩, rfl⟩
    cases ht
    rcases List.eq_nil_or_concat name with rfl | ⟨front, separator, rfl⟩
    · cases hname
    · rw [List.concat_eq_append] at hname ⊢
      rw [List.append_assoc]
      refine .record hskipped ?_
      rw [Chunk, List.length_append] at hname
      exact Nat.succ.inj hname
  · intro h
    cases h with
    | @record length separator c d skipped name hskipped hname =>
      refine ⟨skipped, (), _, hskipped, ⟨[length], length, _, ⟨length, rfl, rfl⟩,
        ⟨name ++ [separator], (), _, ?_, ⟨c, d, rfl, rfl⟩, rfl⟩, rfl⟩, ?_⟩
      · rw [Chunk, List.length_append, hname]
        rfl
      · simp

/-- The head of a packet: of another transaction, or up to the type of
the record. -/
inductive HeadWord (id : ℤ) : Language UInt8 (Option ℕ)
  | other {a b : UInt8} : (charOf a b : ℤ) ≠ id → HeadWord id [a, b] none
  | record {a b : UInt8} {w : List UInt8} {nodeStatus : ℕ} : (charOf a b : ℤ) = id →
      RecordWord w nodeStatus → HeadWord id (a :: b :: w) (some nodeStatus)

theorem reads_readHead (id : ℤ) : Reads Underflows (HeadWord id) Prod.mk (readHead id) := by
  have hrest (transId : ℕ) : Reads Underflows
      (fun w v => ((transId : ℤ) ≠ id ∧ Only none w v) ∨
        (transId : ℤ) = id ∧ ∃ c, RecordWord w c ∧ v = some c) Prod.mk
      (if (transId : ℤ) ≠ id then (pure none : BufferM (Option ℕ))
        else readRecord >>= fun nodeStatus => pure (some nodeStatus)) := by
    by_cases hid : (transId : ℤ) ≠ id
    · rw [if_pos hid]
      refine (reads_ok none).congr fun w v => ?_
      simp [hid]
    · rw [if_neg hid]
      refine (reads_readRecord.map some).congr fun w v => ?_
      simp [not_not.mp hid]
  refine (reads_getChar.bind hrest).congr fun w v => ?_
  constructor
  · rintro ⟨w₁, transId, w₂, ⟨a, b, rfl, rfl⟩, ⟨hid, rfl, rfl⟩ | ⟨hid, c, hw₂, rfl⟩, rfl⟩
    · exact .other hid
    · exact .record hid hw₂
  · intro h
    cases h with
    | other hid => exact ⟨_, _, [], ⟨_, _, rfl, rfl⟩, .inl ⟨hid, rfl, rfl⟩, rfl⟩
    | record hid hw => exact ⟨_, _, _, ⟨_, _, rfl, rfl⟩, .inr ⟨hid, _, hw, rfl⟩, rfl⟩

/-! ### The entries -/

/-- A suffix is read as a signed byte, and compared as one. -/
theorem serverOf_signed (e : NameEntry) :
    serverOf e.name.toList (signed e.suffix) = e.servers := by
  have hsuffix : signed e.suffix = fileServerNodeType ↔ e.suffix = 0x20 := by
    constructor
    · intro h
      have h20 : signed e.suffix = signed 0x20 := h
      exact congrArg Int8.toUInt8 (Int8.toInt_inj.mp h20)
    · intro h
      rw [h]
      rfl
  simp only [serverOf, NameEntry.servers, hsuffix]

theorem reads_readEntries (n : ℕ) (servers : List String) :
    Reads Underflows (fun w l => ∃ entries : List NameEntry, entries.length = n ∧
      w = entries.flatMap NameEntry.toBytes ∧ l = servers ++ entries.flatMap NameEntry.servers)
      Prod.mk (readEntries n servers) := by
  induction n generalizing servers with
  | zero =>
    refine (reads_ok servers).congr fun w l => ?_
    constructor
    · rintro ⟨rfl, rfl⟩
      exact ⟨[], rfl, rfl, (List.append_nil _).symm⟩
    · rintro ⟨entries, hlength, rfl, rfl⟩
      obtain rfl := List.eq_nil_of_length_eq_zero hlength
      exact ⟨rfl, List.append_nil _⟩
  | succ n ih =>
    refine ((reads_getArray 15).bind fun nameArray => reads_getByte.bind fun type =>
      (reads_skipBytes 2).bind fun _ => ih (servers ++ serverOf nameArray (signed type))).congr
        fun w l => ?_
    constructor
    · rintro ⟨w₀, name, w₁, ⟨hname, rfl⟩, ⟨w₂, type, w₃, ⟨t, ht, rfl⟩,
        ⟨flags, u, w₄, hflags, ⟨entries, hlength, rfl, rfl⟩, rfl⟩, rfl⟩, rfl⟩
      cases ht
      have hflags' : flags.length = 2 := hflags
      let e : NameEntry := ⟨⟨name.toArray, hname⟩, type, ⟨flags.toArray, hflags'⟩⟩
      refine ⟨e :: entries, congrArg Nat.succ hlength, ?_, ?_⟩
      · simp [NameEntry.toBytes, e]
      · rw [List.flatMap_cons, ← serverOf_signed, List.append_assoc]
        rfl
    · rintro ⟨_ | ⟨e, entries⟩, hlength, rfl, rfl⟩
      · cases hlength
      · refine ⟨e.name.toList, _, _, ⟨e.name.length_toList, rfl⟩, ⟨[e.suffix], e.suffix, _,
          ⟨_, rfl, rfl⟩, ⟨e.flags.toList, (), _, e.flags.length_toList,
          ⟨entries, Nat.succ.inj hlength, rfl, ?_⟩, rfl⟩, rfl⟩, ?_⟩
        · rw [List.flatMap_cons, serverOf_signed, List.append_assoc]
        · simp [NameEntry.toBytes]

/-- The words of `readNodes`. -/
inductive NodesWord : Language UInt8 (List String)
  | nodes {skipped : List UInt8} {count : UInt8} {entries : List NameEntry} :
      skipped.length = 8 → entries.length = (signed count).toNat →
      NodesWord (skipped ++ count :: entries.flatMap NameEntry.toBytes)
        (entries.flatMap NameEntry.servers)

theorem reads_readNodes : Reads Underflows NodesWord Prod.mk readNodes := by
  have hskip : readNodes = (do
      skipBytes 8
      let addressListEntryCount ← getByte
      readEntries (signed addressListEntryCount).toNat []) := by
    unfold readNodes
    simp only [skipBytes_bind]
  rw [hskip]
  refine ((reads_skipBytes 8).bind fun _ => reads_getByte.bind fun count =>
    reads_readEntries (signed count).toNat []).congr fun w l => ?_
  constructor
  · rintro ⟨skipped, u, w₁, hskipped, ⟨w₂, count, w₃, ⟨t, ht, rfl⟩,
      ⟨entries, hlength, rfl, rfl⟩, rfl⟩, rfl⟩
    cases ht
    exact .nodes hskipped hlength
  · intro h
    cases h with
    | @nodes skipped count entries hskipped hlength =>
      exact ⟨skipped, (), _, hskipped, ⟨[count], count, _, ⟨_, rfl, rfl⟩,
        ⟨entries, hlength, rfl, rfl⟩, rfl⟩, rfl⟩

/-! ### The packet -/

/-- **The responses**, and the servers each lists: none where the
transaction is another one. -/
inductive ResponseWord (id : ℤ) : Language UInt8 (List String)
  | other {w : List UInt8} : HeadWord id w none → ResponseWord id w []
  | nodes {w w' : List UInt8} {nodeStatus : ℕ} {servers : List String} :
      HeadWord id w (some nodeStatus) → nodeStatus = 0x20 ∨ nodeStatus = 0x21 →
      NodesWord w' servers → ResponseWord id (w ++ w') servers

/-- A negative response: the record is of another type. -/
def Negative (id : ℤ) (data : List UInt8) : Prop :=
  ∃ w nodeStatus, HeadWord id w (some nodeStatus) ∧ nodeStatus ≠ 0x20 ∧ nodeStatus ≠ 0x21 ∧
    w <+: data

/-- **`extractServers` reads the responses**, and whatever follows. -/
theorem reads_readServers (id : ℤ) :
    Reads Underflows (ResponseWord id) Prod.mk (readServers id) := by
  have hrest (head : Option ℕ) : Reads Underflows
      (fun w l => (head = none ∧ Only [] w l) ∨ ∃ nodeStatus, head = some nodeStatus ∧
        (nodeStatus = 0x20 ∨ nodeStatus = 0x21) ∧ NodesWord w l) Prod.mk
      (match head with
        | none => (pure [] : BufferM (List String))
        | some nodeStatus =>
          if nodeStatus ≠ 0x20 ∧ nodeStatus ≠ 0x21 then
            (throw negativeResponse : BufferM (List String))
          else readNodes) := by
    cases head with
    | none => exact (reads_ok []).congr fun w l => by simp
    | some nodeStatus =>
      dsimp only
      by_cases htype : nodeStatus ≠ 0x20 ∧ nodeStatus ≠ 0x21
      · rw [if_pos htype]
        refine (reads_ofExcept (.error negativeResponse) Prod.mk).congr fun w l => ?_
        simp [htype]
      · rw [if_neg htype]
        have htype' : nodeStatus = 0x20 ∨ nodeStatus = 0x21 := by omega
        refine reads_readNodes.congr fun w l => ?_
        simp [htype']
  refine ((reads_readHead id).bind hrest).congr fun w l => ?_
  constructor
  · rintro ⟨w₁, head, w₂, hw₁, ⟨rfl, rfl, rfl⟩ | ⟨nodeStatus, rfl, htype, hw₂⟩, rfl⟩
    · rw [List.append_nil]
      exact .other hw₁
    · exact .nodes hw₁ htype hw₂
  · intro h
    cases h with
    | other hw => exact ⟨w, none, [], hw, .inl ⟨rfl, rfl, rfl⟩, (List.append_nil w).symm⟩
    | nodes hw htype hw' => exact ⟨_, _, _, hw, .inr ⟨_, rfl, htype, hw'⟩, rfl⟩

/-! ## What the parser returns -/

/-- What begins with a response is read as that. -/
theorem extractServers_of_word {servers : List String} (h : ResponseWord id w servers)
    (rest : List UInt8) : extractServers (w ++ rest) id = .ok servers := by
  rw [extractServers, (reads_readServers id).word w servers h rest]

/-- What breaks off in a response is none. -/
theorem extractServers_of_prefix {servers : List String} (h : ResponseWord id w servers)
    (hp : data <+: w) (hne : data ≠ w) : extractServers data id = .ok [] := by
  obtain ⟨e, he, hended⟩ := (reads_readServers id).cut w servers h data hp hne
  cases hended
  rw [extractServers, he]

/-- **Where servers are found**, the data begin with a response that lists
them. -/
theorem extractServers_eq_ok {servers : List String} (h : extractServers data id = .ok servers)
    (hne : servers ≠ []) : ∃ w, ResponseWord id w servers ∧ w <+: data := by
  unfold extractServers at h
  cases hr : readServers id data with
  | ok p =>
    rw [hr] at h
    cases h
    obtain ⟨w, l, rest, hw, hdata, rfl⟩ := (reads_readServers id).ok data p hr
    exact ⟨w, hw, hdata ▸ List.prefix_append w rest⟩
  | error e =>
    rw [hr] at h
    cases e with
    | underflow =>
      cases h
      exact absurd rfl hne
    | browsing m => cases h

/-- Nothing but an underflow ends the work. -/
def OnlyUnderflows {α : Type} (r : BufferM α) : Prop :=
  ∀ data e, r data = .error e → Underflows e

theorem OnlyUnderflows.bind {α β : Type} {r : BufferM α} {k : α → BufferM β}
    (hr : OnlyUnderflows r) (hk : ∀ a, OnlyUnderflows (k a)) : OnlyUnderflows (r >>= k) := by
  intro data e he
  cases hdata : r data with
  | ok p =>
    refine hk p.1 p.2 e ?_
    change (r data >>= fun p => k p.1 p.2) = .error e at he
    rw [hdata] at he
    exact he
  | error e' =>
    change (r data >>= fun p => k p.1 p.2) = .error e at he
    rw [hdata] at he
    cases he
    exact hr data e hdata

theorem onlyUnderflows_getByte : OnlyUnderflows getByte := by
  rintro (_ | ⟨b, bytes⟩) e he
  · cases he
    rfl
  · cases he

theorem onlyUnderflows_skipBytes (n : ℕ) : OnlyUnderflows (skipBytes n) := by
  induction n with
  | zero =>
    intro data e he
    cases he
  | succ n ih => exact onlyUnderflows_getByte.bind fun _ => ih

theorem onlyUnderflows_getArray (n : ℕ) : OnlyUnderflows (getArray n) := by
  intro data e he
  unfold getArray at he
  split at he
  · cases he
  · cases he
    rfl

theorem onlyUnderflows_pure {α : Type} (a : α) : OnlyUnderflows (pure a) := by
  intro data e he
  cases he

theorem onlyUnderflows_getChar : OnlyUnderflows getChar := by
  rw [getChar_eq]
  exact onlyUnderflows_getByte.bind fun _ => onlyUnderflows_getByte.bind fun _ =>
    onlyUnderflows_pure _

theorem onlyUnderflows_readHead (id : ℤ) : OnlyUnderflows (readHead id) := by
  have hskip := onlyUnderflows_skipBytes
  have hrecord : OnlyUnderflows readRecord :=
    (hskip 2).bind fun _ => (hskip 2).bind fun _ => (hskip 2).bind fun _ => (hskip 2).bind
      fun _ => (hskip 2).bind fun _ => onlyUnderflows_getByte.bind fun _ => (hskip _).bind
        fun _ => (hskip 1).bind fun _ => onlyUnderflows_getChar
  refine onlyUnderflows_getChar.bind fun transId => ?_
  split
  · exact onlyUnderflows_pure none
  · exact hrecord.bind fun nodeStatus => onlyUnderflows_pure (some nodeStatus)

theorem onlyUnderflows_readEntries (n : ℕ) (servers : List String) :
    OnlyUnderflows (readEntries n servers) := by
  induction n generalizing servers with
  | zero => exact onlyUnderflows_pure servers
  | succ n ih =>
    exact (onlyUnderflows_getArray 15).bind fun _ => onlyUnderflows_getByte.bind fun _ =>
      (onlyUnderflows_skipBytes 2).bind fun _ => ih _

theorem onlyUnderflows_readNodes : OnlyUnderflows readNodes := by
  have hskip := onlyUnderflows_skipBytes
  exact (hskip 2).bind fun _ => (hskip 4).bind fun _ => (hskip 2).bind fun _ =>
    onlyUnderflows_getByte.bind fun _ => onlyUnderflows_readEntries _ []

/-- A response is negative by its head. -/
theorem negative_iff : Negative id data ↔ ∃ nodeStatus rest,
    readHead id data = .ok (some nodeStatus, rest) ∧ nodeStatus ≠ 0x20 ∧ nodeStatus ≠ 0x21 := by
  constructor
  · rintro ⟨w, nodeStatus, hw, h20, h21, rest, rfl⟩
    exact ⟨nodeStatus, rest, (reads_readHead id).word w _ hw rest, h20, h21⟩
  · rintro ⟨nodeStatus, rest, hr, h20, h21⟩
    obtain ⟨w, head, rest', hw, rfl, hc⟩ := (reads_readHead id).ok _ _ hr
    cases hc
    exact ⟨w, nodeStatus, hw, h20, h21, List.prefix_append w rest⟩

/-- **What is thrown**, and where: at negative responses. -/
theorem extractServers_eq_error_iff {e : PacketError} :
    extractServers data id = .error e ↔ Negative id data ∧ e = negativeResponse := by
  have hbind : readServers id data = (readHead id data >>= fun p => (match p.1 with
    | none => (pure [] : BufferM (List String))
    | some nodeStatus =>
      if nodeStatus ≠ 0x20 ∧ nodeStatus ≠ 0x21 then
        (throw negativeResponse : BufferM (List String))
      else readNodes) p.2) := rfl
  rw [negative_iff, extractServers, hbind]
  rcases hr : readHead id data with e' | ⟨_ | nodeStatus, rest⟩
  · cases onlyUnderflows_readHead id data e' hr
    exact ⟨nofun, fun ⟨⟨_, _, hhead, _⟩, _⟩ => (by cases hhead)⟩
  · exact ⟨nofun, fun ⟨⟨_, _, hhead, _⟩, _⟩ => (by cases hhead)⟩
  · change (match (if nodeStatus ≠ 0x20 ∧ nodeStatus ≠ 0x21 then
        (throw negativeResponse : BufferM (List String)) else readNodes) rest with
      | .ok (servers, _) => Except.ok servers
      | .error .underflow => .ok []
      | .error e => .error e) = .error e ↔ _
    by_cases htype : nodeStatus ≠ 0x20 ∧ nodeStatus ≠ 0x21
    · rw [if_pos htype]
      exact ⟨fun h => ⟨⟨nodeStatus, rest, rfl, htype⟩, (Except.error.inj h).symm⟩,
        fun h => by rw [h.2]; rfl⟩
    · rw [if_neg htype]
      constructor
      · intro h
        cases hn : readNodes rest with
        | ok p =>
          rw [hn] at h
          cases h
        | error e' =>
          cases onlyUnderflows_readNodes rest e' hn
          rw [hn] at h
          cases h
      · rintro ⟨⟨nodeStatus', rest', hhead, h20, h21⟩, -⟩
        cases hhead
        exact absurd ⟨h20, h21⟩ htype

end SambaProvider

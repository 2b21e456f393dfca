import SambaProvider.Browsing.BroadcastUtils

/-!
# Node status responses

The response the wire format prescribes, and what the parser makes of it.
The number of entries is one byte, and the parser reads it as a signed
one: from 128 entries on it is negative and none of them is read.
-/

namespace SambaProvider

open Lib

/-! ## The format -/

/-- The two bytes of a transaction id. -/
def idBytes (id : UInt16) : List UInt8 := [UInt8.ofNat (id.toNat / 256), UInt8.ofNat id.toNat]

/-- **A node status response**: its flags and counts, the encoded name,
the class, the TTL and the length of the record, and the entries. -/
structure NodeStatusResponse where
  flags : Vector UInt8 2
  counts : Vector UInt8 8
  name : Vector UInt8 0x20
  recordClass : Vector UInt8 2
  ttl : Vector UInt8 4
  rdLength : Vector UInt8 2
  entries : List NameEntry
  entries_le : entries.length ≤ 255

namespace NodeStatusResponse

/-- From the flags to the type. -/
def recordBytes (r : NodeStatusResponse) : List UInt8 :=
  (r.flags.toList ++ r.counts.toList) ++ 0x20 :: (r.name.toList ++ [0, 0x00, 0x21])

/-- From the class to the entries. -/
def nodesBytes (r : NodeStatusResponse) : List UInt8 :=
  (r.recordClass.toList ++ r.ttl.toList ++ r.rdLength.toList) ++
    UInt8.ofNat r.entries.length :: r.entries.flatMap NameEntry.toBytes

def toBytes (id : UInt16) (r : NodeStatusResponse) : List UInt8 :=
  idBytes id ++ r.recordBytes ++ r.nodesBytes

/-- The names of the file servers, in order. -/
def servers (r : NodeStatusResponse) : List String := r.entries.flatMap NameEntry.servers

end NodeStatusResponse

/-- **Decoding inverts the format**: the servers come out whatever
follows, nothing comes out where the response breaks off, only the
transaction of the request is accepted, and of an arbitrary array nothing
else becomes than a list or a `BrowsingException`. -/
structure Decodes (id : UInt16) (r : NodeStatusResponse) : Prop where
  whole : ∀ trailing, extractServers (r.toBytes id ++ trailing) id.toNat = .ok r.servers
  broken : ∀ data, data <+: r.toBytes id → data ≠ r.toBytes id →
    extractServers data id.toNat = .ok []
  request : (createPacket id.toNat).take 2 = (r.toBytes id).take 2
  others : ∀ id', id' ≠ id → ∀ trailing,
    extractServers (r.toBytes id' ++ trailing) id.toNat = .ok []
  arbitrary : ∀ data, (∃ l, extractServers data id.toNat = .ok l) ∨
    ∃ message, extractServers data id.toNat = .error (.browsing message)

variable {id id' : UInt16} {r : NodeStatusResponse} {data : List UInt8}

/-! ## Signed bytes -/

theorem charOf_idBytes :
    charOf (UInt8.ofNat (id.toNat / 256)) (UInt8.ofNat id.toNat) = id.toNat := by
  have hlt : id.toNat < 65536 := id.toNat_lt
  simp only [charOf, UInt8.toNat_ofNat']
  omega

/-- **The number of rounds**: the count, or none where it is negative. -/
theorem toNat_signed_ofNat {n : ℕ} (h : n ≤ 255) :
    (signed (UInt8.ofNat n)).toNat = if n ≤ 127 then n else 0 := by
  have hall : ∀ n < 256, (signed (UInt8.ofNat n)).toNat = if n ≤ 127 then n else 0 := by
    decide +kernel
  exact hall n (by omega)

/-! ## The words of a response -/

theorem recordWord : RecordWord r.recordBytes 0x21 :=
  .record (by simp) (by simp; rfl)

/-- The head is of the transaction, or of another one. -/
theorem headWord : HeadWord id.toNat (idBytes id ++ r.recordBytes) (some 0x21) :=
  .record (by rw [charOf_idBytes]) recordWord

theorem headWord_other (h : id' ≠ id) : HeadWord id.toNat (idBytes id') none := by
  refine .other ?_
  rw [charOf_idBytes]
  exact fun heq => h (UInt16.toNat_inj.mp (Int.ofNat_inj.mp heq))

/-- **A response of another transaction** is none. -/
theorem extractServers_other (h : id' ≠ id) (trailing : List UInt8) :
    extractServers (r.toBytes id' ++ trailing) id.toNat = .ok [] := by
  rw [NodeStatusResponse.toBytes, List.append_assoc, List.append_assoc]
  exact extractServers_of_word (.other (headWord_other h)) _

/-- **Up to 127 entries** the response is a word of the parser. -/
theorem responseWord (h : r.entries.length ≤ 127) :
    ResponseWord id.toNat (r.toBytes id) r.servers := by
  refine .nodes headWord (.inr rfl) (.nodes (by simp) ?_)
  rw [toNat_signed_ofNat r.entries_le, if_pos h]

/-- **From 128 entries on** the word ends with the count. -/
theorem exists_responseWord (h : 127 < r.entries.length) : ∃ w,
    ResponseWord id.toNat w [] ∧ w <+: r.toBytes id := by
  refine ⟨idBytes id ++ r.recordBytes ++ ((r.recordClass.toList ++ r.ttl.toList ++
    r.rdLength.toList) ++ UInt8.ofNat r.entries.length :: [].flatMap NameEntry.toBytes),
    .nodes headWord (.inr rfl) (.nodes (by simp) ?_), ?_⟩
  · rw [toNat_signed_ofNat r.entries_le, if_neg (by omega)]
    rfl
  · refine (List.prefix_append_right_inj _).mpr ((List.prefix_append_right_inj _).mpr ?_)
    exact List.cons_prefix_cons.mpr ⟨rfl, List.nil_prefix⟩

/-- So none of the entries is found, whatever follows. -/
theorem extractServers_many (h : 127 < r.entries.length) (trailing : List UInt8) :
    extractServers (r.toBytes id ++ trailing) id.toNat = .ok [] := by
  obtain ⟨w, hw, rest, hrest⟩ : ∃ w, ResponseWord id.toNat w [] ∧ w <+: r.toBytes id :=
    exists_responseWord h
  rw [← hrest, List.append_assoc]
  exact extractServers_of_word hw _

/-- Nothing is found in what breaks off, however many entries there
are. -/
theorem extractServers_broken (hp : data <+: r.toBytes id) (hne : data ≠ r.toBytes id) :
    extractServers data id.toNat = .ok [] := by
  by_cases h : r.entries.length ≤ 127
  · exact extractServers_of_prefix (responseWord h) hp hne
  · obtain ⟨w, hw, hwr⟩ : ∃ w, ResponseWord id.toNat w [] ∧ w <+: r.toBytes id :=
      exists_responseWord (Nat.lt_of_not_le h)
    rcases comparable_of_prefix hwr hp with ⟨rest, rfl⟩ | hdata
    · exact extractServers_of_word hw rest
    · by_cases heq : data = w
      · rw [heq, ← List.append_nil w]
        exact extractServers_of_word hw []
      · exact extractServers_of_prefix hw hdata heq

/-- Whatever the data, there is a list or a `BrowsingException`. -/
theorem extractServers_cases (data : List UInt8) (id : ℤ) :
    (∃ l, extractServers data id = .ok l) ∨
      ∃ message, extractServers data id = .error (.browsing message) := by
  cases h : extractServers data id with
  | ok l => exact .inl ⟨l, rfl⟩
  | error e =>
    obtain ⟨-, rfl⟩ := extractServers_eq_error_iff.mp h
    exact .inr ⟨_, rfl⟩

/-! ## The result -/

/-- **Decoding inverts the format** exactly for the responses of up to
127 entries, and those without a file server. -/
theorem decodes_iff (id : UInt16) (r : NodeStatusResponse) :
    Decodes id r ↔ r.entries.length ≤ 127 ∨ ∀ e ∈ r.entries, e.suffix ≠ 0x20 := by
  have hservers : r.servers = [] ↔ ∀ e ∈ r.entries, e.suffix ≠ 0x20 := by
    simp [NodeStatusResponse.servers, NameEntry.servers]
  rw [← hservers]
  constructor
  · intro h
    by_cases hle : r.entries.length ≤ 127
    · exact .inl hle
    · have hwhole := h.whole []
      rw [extractServers_many (Nat.lt_of_not_le hle)] at hwhole
      exact .inr (Except.ok.inj hwhole).symm
  · intro h
    refine ⟨fun trailing => ?_, fun data hp hne => extractServers_broken hp hne, ?_,
      fun id' hid trailing => extractServers_other hid trailing,
      fun data => extractServers_cases data id.toNat⟩
    · by_cases hle : r.entries.length ≤ 127
      · exact extractServers_of_word (responseWord hle) trailing
      · rw [extractServers_many (Nat.lt_of_not_le hle), h.resolve_left hle]
    · rfl

/-- 128 file servers. -/
def manyServers : NodeStatusResponse where
  flags := #v[0x84, 0]
  counts := #v[0, 0, 0, 1, 0, 0, 0, 0]
  name := Vector.replicate 0x20 0x41
  recordClass := #v[0, 1]
  ttl := #v[0, 0, 0, 0]
  rdLength := #v[0x09, 0x2f]
  entries := List.replicate 128 ⟨Vector.replicate 15 0x4e, 0x20, #v[0x04, 0x00]⟩
  entries_le := by simp

/-- The 128 servers are lost. -/
theorem not_decodes_manyServers : ¬ Decodes 1 manyServers := by
  intro h
  have hwhole := h.whole []
  rw [extractServers_many (by simp [manyServers])] at hwhole
  have hempty : manyServers.servers = [] := (Except.ok.inj hwhole).symm
  simp [NodeStatusResponse.servers, manyServers, NameEntry.servers] at hempty

end SambaProvider

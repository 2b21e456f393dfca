import Mathlib.Data.List.Basic
import SambaProvider.Base.Bytes
import SambaProvider.Lib.Run

/-!
# The input stream over a buffer

`SmbFileInputStream.java`: two methods that read from one buffer. The one
that reads a byte hands out a signed one, so that one byte looks like the
end of the stream; the one that fills an array never tells the end.
-/

namespace SambaProvider

open Lib

/-- The stream, as what remains in its `mBuf`. -/
structure SmbFileInputStream where
  mBuf : List UInt8

/-- The arguments of `read(bytes, off, len)`, with valid bounds. -/
structure ReadArgs where
  bytes : List UInt8
  off : ℕ
  len : ℕ
  len_pos : 0 < len
  bounds : off + len ≤ bytes.length

/-- A call of one of the two methods. -/
inductive ReadCall
  | read
  | readBytes (args : ReadArgs)

namespace SmbFileInputStream

/-- `read()`. -/
def read (s : SmbFileInputStream) : ℤ × SmbFileInputStream :=
  match s.mBuf with
  | [] => (-1, s)
  | b :: rest => (signed b, ⟨rest⟩)

/-- `read(bytes, off, len)`: what is returned, the array, and the
stream. -/
def readBytes (s : SmbFileInputStream) (bytes : List UInt8) (off len : ℕ) :
    ℤ × List UInt8 × SmbFileInputStream :=
  let len := min len s.mBuf.length
  (len, bytes.take off ++ (s.mBuf.take len ++ bytes.drop (off + len)), ⟨s.mBuf.drop len⟩)

/-- What a call returns. -/
def value (s : SmbFileInputStream) : ReadCall → ℤ
  | .read => s.read.1
  | .readBytes a => (s.readBytes a.bytes a.off a.len).1

/-- What the caller takes for the bytes it was given: the value, if it is
not `-1`, or the part of the array that was filled. -/
def given (s : SmbFileInputStream) : ReadCall → List ℤ
  | .read => if s.read.1 = -1 then [] else [s.read.1]
  | .readBytes a =>
    let (n, bytes, _) := s.readBytes a.bytes a.off a.len
    ((bytes.drop a.off).take n.toNat).map fun b => (b.toNat : ℤ)

def next (s : SmbFileInputStream) : ReadCall → SmbFileInputStream
  | .read => s.read.2
  | .readBytes a => (s.readBytes a.bytes a.off a.len).2.2

end SmbFileInputStream

/-- A stream that is read, and the bytes it has delivered. -/
structure Reading where
  stream : SmbFileInputStream
  delivered : List ℤ := []

namespace Reading

/-- One call. -/
def step (s : Reading) (c : ReadCall) : Reading :=
  ⟨s.stream.next c, s.delivered ++ s.stream.given c⟩

/-- Bytes as they should be delivered. -/
def unsigned (content : List UInt8) : List ℤ := content.map fun b => (b.toNat : ℤ)

/-- The call is answered as it should be, the content being what was to be
delivered in all. -/
structure Answers (content : List UInt8) (s : Reading) (c : ReadCall) : Prop where
  inOrder : (s.step c).delivered <+: unsigned content
  ended : s.stream.value c = -1 ↔ s.delivered = unsigned content
  filled : ∀ a, c = .readBytes a → s.stream.value c ≠ -1 →
    1 ≤ s.stream.value c ∧ s.stream.value c ≤ a.len

/-- **The stream is faithful**: every call is answered as it should be, and
of more calls than there are bytes one returns `-1`, everything having been
delivered. -/
structure Faithful (content : List UInt8) (calls : List ReadCall) : Prop where
  answers : EveryStep step (Answers content) ⟨⟨content⟩, []⟩ calls
  ends : content.length < calls.length → ∃ pre c post, calls = pre ++ c :: post ∧
    (pre.foldl step ⟨⟨content⟩, []⟩).stream.value c = -1 ∧
    (pre.foldl step ⟨⟨content⟩, []⟩).delivered = unsigned content

/-- A byte is read alone only where it is less than 128, and an array is
filled only while something remains. -/
def Plain (s : Reading) : ReadCall → Prop
  | .read => ∀ b ∈ s.stream.mBuf.head?, b < 0x80
  | .readBytes _ => s.stream.mBuf ≠ []

variable {content : List UInt8} {s : Reading} {c : ReadCall} {calls : List ReadCall}
variable {a : ReadArgs} {b : UInt8} {rest : List UInt8}

/-! ## One call -/

/-- A byte that is read alone. -/
theorem read_cons (h : s.stream.mBuf = b :: rest) : s.stream.read = (signed b, ⟨rest⟩) := by
  rw [SmbFileInputStream.read, h]

/-- The end, read alone. -/
theorem read_nil (h : s.stream.mBuf = []) : s.stream.read = (-1, s.stream) := by
  rw [SmbFileInputStream.read, h]

/-- **An array gets the first of the bytes that remain.** -/
theorem given_readBytes : s.stream.given (.readBytes a) = unsigned (s.stream.mBuf.take a.len) := by
  have hoff : (a.bytes.take a.off).length = a.off :=
    List.length_take_of_le (Nat.le_trans (Nat.le_add_right _ _) a.bounds)
  have hlen : (s.stream.mBuf.take (min a.len s.stream.mBuf.length)).length =
      min a.len s.stream.mBuf.length := List.length_take_of_le (Nat.min_le_right _ _)
  simp only [SmbFileInputStream.given, SmbFileInputStream.readBytes, Int.toNat_natCast]
  rw [List.drop_left' hoff, List.take_left' hlen, ← List.take_eq_take_min]
  rfl

theorem value_readBytes :
    s.stream.value (.readBytes a) = (min a.len s.stream.mBuf.length : ℕ) := rfl

theorem next_readBytes :
    (s.stream.next (.readBytes a)).mBuf = s.stream.mBuf.drop a.len := by
  change s.stream.mBuf.drop (min a.len s.stream.mBuf.length) = _
  rcases Nat.le_total a.len s.stream.mBuf.length with h | h
  · rw [Nat.min_eq_left h]
  · rw [Nat.min_eq_right h, List.drop_length, List.drop_eq_nil_of_le h]

/-! ## The invariant -/

/-- What was delivered and what remains is the content. -/
def Kept (content : List UInt8) (s : Reading) : Prop :=
  s.delivered ++ unsigned s.stream.mBuf = unsigned content

theorem kept_start (content : List UInt8) : Kept content ⟨⟨content⟩, []⟩ := rfl

/-- Everything was delivered where nothing remains. -/
theorem Kept.delivered_eq_iff (h : Kept content s) :
    s.delivered = unsigned content ↔ s.stream.mBuf = [] := by
  rw [← h, List.self_eq_append_right, unsigned, List.map_eq_nil_iff]

/-- What is delivered next is in order where it is what remains first. -/
theorem Kept.inOrder_iff (h : Kept content s) :
    (s.step c).delivered <+: unsigned content ↔
      s.stream.given c <+: unsigned s.stream.mBuf := by
  rw [← h]
  exact List.prefix_append_right_inj s.delivered

/-- **A plain call delivers what remains first.** -/
theorem Kept.step (h : Kept content s) (hc : Plain s c) : Kept content (s.step c) := by
  cases c with
  | read =>
    cases hbuf : s.stream.mBuf with
    | nil =>
      have hgiven : s.step .read = s := by
        simp [Reading.step, SmbFileInputStream.given, SmbFileInputStream.next, read_nil hbuf]
      rwa [hgiven]
    | cons b rest =>
      have hb : signed b = b.toNat := signed_eq_toNat_iff.mpr (hc b (by rw [hbuf]; rfl))
      unfold Kept at h ⊢
      rw [hbuf] at h
      rw [← h]
      simp [Reading.step, SmbFileInputStream.given, SmbFileInputStream.next, read_cons hbuf,
        unsigned, hb]
  | readBytes a =>
    unfold Kept at h ⊢
    rw [← h]
    change (s.delivered ++ s.stream.given (.readBytes a)) ++
      unsigned (s.stream.next (.readBytes a)).mBuf = _
    rw [given_readBytes, next_readBytes, List.append_assoc, unsigned, unsigned, ← List.map_append,
      List.take_append_drop]
    rfl

/-- **A call is answered as it should be** exactly where it is a plain
one. -/
theorem Kept.answers_iff (h : Kept content s) : Answers content s c ↔ Plain s c := by
  constructor
  · intro hanswers
    cases c with
    | read =>
      intro b hb
      obtain ⟨rest, hbuf⟩ := List.head?_eq_some_iff.mp hb
      have hne : signed b ≠ -1 := by
        intro heq
        have hvalue : s.stream.value .read = -1 := by
          rw [SmbFileInputStream.value, read_cons hbuf, heq]
        have hnil := h.delivered_eq_iff.mp (hanswers.ended.mp hvalue)
        rw [hbuf] at hnil
        cases hnil
      have hprefix := h.inOrder_iff.mp hanswers.inOrder
      rw [SmbFileInputStream.given, read_cons hbuf, if_neg hne, hbuf] at hprefix
      exact signed_eq_toNat_iff.mp (List.cons_prefix_cons.mp hprefix).1
    | readBytes a =>
      intro hnil
      have hvalue := hanswers.ended.mpr (h.delivered_eq_iff.mpr hnil)
      rw [value_readBytes] at hvalue
      omega
  · intro hplain
    have hkept := h.step hplain
    refine ⟨⟨_, hkept⟩, ?_, ?_⟩
    · rw [h.delivered_eq_iff]
      cases c with
      | read =>
        cases hbuf : s.stream.mBuf with
        | nil => simp [SmbFileInputStream.value, read_nil hbuf]
        | cons b rest =>
          have hb : signed b = b.toNat := signed_eq_toNat_iff.mpr (hplain b (by rw [hbuf]; rfl))
          have hne : signed b ≠ -1 := by omega
          simp [SmbFileInputStream.value, read_cons hbuf, hne]
      | readBytes a =>
        rw [value_readBytes]
        exact iff_of_false (by omega) hplain
    · rintro a rfl -
      have hpos : 0 < s.stream.mBuf.length := List.length_pos_of_ne_nil hplain
      have hlen := a.len_pos
      rw [value_readBytes]
      omega

/-! ## The result -/

/-- A plain call that does not return `-1` takes at least a byte. -/
theorem length_next_lt (hc : Plain s c) (hvalue : s.stream.value c ≠ -1) :
    (s.step c).stream.mBuf.length < s.stream.mBuf.length := by
  cases c with
  | read =>
    cases hbuf : s.stream.mBuf with
    | nil => exact absurd (by rw [SmbFileInputStream.value, read_nil hbuf]) hvalue
    | cons b rest => simp [Reading.step, SmbFileInputStream.next, read_cons hbuf]
  | readBytes a =>
    have hpos : 0 < s.stream.mBuf.length := List.length_pos_of_ne_nil hc
    have hlen := a.len_pos
    change (s.stream.next (.readBytes a)).mBuf.length < _
    rw [next_readBytes, List.length_drop]
    omega

/-- **Plain calls come to the end**, and then have delivered everything. -/
theorem Kept.ends (h : Kept content s) (hplain : EveryStep Reading.step Plain s calls)
    (hlength : s.stream.mBuf.length < calls.length) : ∃ pre c post, calls = pre ++ c :: post ∧
      (pre.foldl Reading.step s).stream.value c = -1 ∧
      (pre.foldl Reading.step s).delivered = unsigned content := by
  induction calls generalizing s with
  | nil => exact absurd hlength (Nat.not_lt_zero _)
  | cons c calls ih =>
    by_cases hvalue : s.stream.value c = -1
    · refine ⟨[], c, calls, rfl, hvalue, ?_⟩
      exact (h.answers_iff.mpr hplain.1).ended.mp hvalue
    · have hlt := length_next_lt hplain.1 hvalue
      rw [List.length_cons] at hlength
      obtain ⟨pre, c', post, rfl, hend, hall⟩ := ih (h.step hplain.1) hplain.2 (by omega)
      exact ⟨c :: pre, c', post, rfl, hend, hall⟩

/-- Where every call is answered, every one is plain, and the other way
round. -/
theorem Kept.everyStep_answers_iff (h : Kept content s) :
    EveryStep Reading.step (Answers content) s calls ↔
      EveryStep Reading.step Plain s calls := by
  induction calls generalizing s with
  | nil => exact Iff.rfl
  | cons c calls ih =>
    constructor
    · rintro ⟨hc, hcalls⟩
      have hplain := h.answers_iff.mp hc
      exact ⟨hplain, (ih (h.step hplain)).mp hcalls⟩
    · rintro ⟨hplain, hcalls⟩
      exact ⟨h.answers_iff.mpr hplain, (ih (h.step hplain)).mpr hcalls⟩

/-- **The stream is faithful** for exactly the calls that are plain, each
in its place. -/
theorem faithful_iff (content : List UInt8) (calls : List ReadCall) :
    Faithful content calls ↔ EveryStep step Plain ⟨⟨content⟩, []⟩ calls := by
  constructor
  · intro h
    exact (kept_start content).everyStep_answers_iff.mp h.answers
  · intro h
    have hkept := kept_start content
    exact ⟨hkept.everyStep_answers_iff.mpr h, hkept.ends h⟩

/-- One byte, `0xff`, read alone: it looks like the end. -/
theorem not_faithful_lastByte : ¬ Faithful [0xff] [.read] := by
  intro h
  have hall := h.answers.1.ended.mp rfl
  cases hall

end Reading

end SambaProvider

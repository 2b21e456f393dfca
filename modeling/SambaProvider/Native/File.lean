import Mathlib.Algebra.Group.Int.Defs
import Mathlib.Algebra.Group.Nat.Defs
import Mathlib.Logic.Function.Basic
import SambaProvider.Lib.Ends
import SambaProvider.Lib.Run

/-!
# An open file

`SambaFile.java` with the native code under it, down to the calls of the
library. The library keeps the position in the file; `SambaFile` keeps
its own idea of it, and leaves a seek out that it takes for needless. The
offset passes `jlong`, the 32 bits of `off_t` and `jlong` again.

What the library does in one call is left open as far as its
documentation does: every call may fail, and a transfer may be short. A
seek to a negative offset is stored and returned like any other, and what
a transfer at such a position does is left open.
-/

namespace SambaProvider

open Lib

/-! ## The library -/

/-- The bytes behind a direct `ByteBuffer`, and its position. All have
the same capacity, and the limit is never moved. -/
structure ByteBuffer where
  bytes : ℕ → UInt8
  position : ℕ

namespace ByteBuffer

/-- `n` bytes from an index on. -/
def slice (b : ByteBuffer) (i n : ℕ) : List UInt8 :=
  (List.range n).map fun j => b.bytes (i + j)

/-- Bytes stored from an index on. -/
def store (b : ByteBuffer) (i : ℕ) (l : List UInt8) : ByteBuffer :=
  { b with bytes := fun j => if i ≤ j then l.getD (j - i) (b.bytes j) else b.bytes j }

end ByteBuffer

/-- `ByteBuffer.allocateDirect`. -/
def ByteBuffer.new : ByteBuffer := ⟨fun _ => 0, 0⟩

/-- A file, its position in the library, the field `mOffset`, the offsets
`smbc_lseek` was called with; the buffer in use, and those in the pool. -/
structure OpenFile where
  content : List UInt8
  position : ℤ
  seeks : List ℤ
  mOffset : ℤ
  buffer : ByteBuffer
  pool : List ByteBuffer

/-- What a function of the library returns, and `errno` after it. -/
structure SmbcResult where
  result : ℤ
  errno : ℤ

/-- The calls of the library, and what is done to the field and to the
buffers. -/
inductive FileEffect
  | lseek (fd offset whence : ℤ)
  /-- Into the buffer in use. -/
  | read (fd : ℤ) (maxLen : ℕ)
  /-- From the buffer in use. -/
  | write (fd : ℤ) (length : ℕ)
  | getOffset
  | setOffset (offset : ℤ)
  | obtainBuffer
  | recycleBuffer
  | bufferGet (n : ℕ)
  | bufferPut (bytes : List UInt8)
  | bufferClear

@[reducible] def FileEffect.Answer : FileEffect → Type
  | .lseek _ _ _ | .read _ _ | .write _ _ => SmbcResult
  | .getOffset => ℤ
  | .bufferGet _ => List UInt8
  | .setOffset _ | .obtainBuffer | .recycleBuffer | .bufferPut _ | .bufferClear => Unit

/-- Bytes written at a position; a gap behind the end is filled with
zeros. -/
def pwrite (content : List UInt8) (position : ℕ) (bytes : List UInt8) : List UInt8 :=
  content.take position ++ List.replicate (position - content.length) 0 ++ bytes ++
    content.drop (position + bytes.length)

namespace OpenFile

/-- A call has failed. -/
def Failed (a : SmbcResult) : Prop := a.result = -1 ∧ 0 < a.errno

/-- The pool keeps 16 buffers. -/
def poolSize : ℕ := 16

/-- What a read may get: a beginning of what stands at the position, which
is empty at the end of the file only. -/
def ReadsAt (content : List UInt8) (position : ℕ) (maxLen : ℕ) (bytes : List UInt8) : Prop :=
  bytes <+: content.drop position ∧ (bytes = [] → maxLen = 0 ∨ content.length ≤ position)

/-- One effect. A call of the library that fails leaves the position; a
transfer that succeeds moves it by its count. A seek that succeeds returns
the offset, and where this is negative nothing is said of `errno`. -/
def Step : (e : FileEffect) → OpenFile → e.Answer → OpenFile → Prop
  | .lseek _ offset _, s, a, t =>
    (Failed a ∧ t = { s with seeks := s.seeks ++ [offset] }) ∨
      (a.result = offset ∧ t = { s with seeks := s.seeks ++ [offset], position := offset })
  | .read _ maxLen, s, a, t =>
    (Failed a ∧ t = s) ∨
      ∃ bytes : List UInt8, a.result = bytes.length ∧ bytes.length ≤ maxLen ∧
        (0 ≤ s.position → ReadsAt s.content s.position.toNat maxLen bytes) ∧
        t = { s with
          position := s.position + bytes.length
          buffer := s.buffer.store 0 bytes }
  | .write _ length, s, a, t =>
    (Failed a ∧ ∃ content, t = { s with content := content }) ∨
      ∃ (n : ℕ) (content : List UInt8), a.result = n ∧ n ≤ length ∧ (n = 0 → length = 0) ∧
        (0 ≤ s.position →
          content = pwrite s.content s.position.toNat (s.buffer.slice 0 n)) ∧
        t = { s with position := s.position + n, content := content }
  | .getOffset, s, a, t => a = s.mOffset ∧ t = s
  | .setOffset offset, s, _, t => t = { s with mOffset := offset }
  | .obtainBuffer, s, _, t =>
    t = { s with buffer := s.pool.headD .new, pool := s.pool.tail }
  | .recycleBuffer, s, _, t =>
    let buffer := { s.buffer with position := 0 }
    t = { s with
      buffer := buffer
      pool := if s.pool.length < poolSize then buffer :: s.pool else s.pool }
  | .bufferGet n, s, a, t =>
    a = s.buffer.slice s.buffer.position n ∧
      t = { s with buffer.position := s.buffer.position + n }
  | .bufferPut bytes, s, _, t =>
    t = { s with buffer :=
      { s.buffer.store s.buffer.position bytes with
        position := s.buffer.position + bytes.length } }
  | .bufferClear, s, _, t => t = { s with buffer.position := 0 }

end OpenFile

/-! ## The native side -/

/-- The exceptions of the file: `ErrnoException`, and an `IOException`
with its cause. -/
inductive FileExn
  | errno (functionName : String) (errno : ℤ)
  | io (message : String) (functionName : String) (errno : ℤ)
deriving DecidableEq, Repr

/-- What `catch (ErrnoException e)` catches. -/
def FileExn.isErrno : FileExn → Bool
  | .errno _ _ => true
  | .io _ _ _ => false

/-- What `catch (IOException e)` catches. -/
def FileExn.isIO (x : FileExn) : Bool := !x.isErrno

/-- A method of the file. -/
abbrev FileProg (α : Type) := Prog FileEffect FileEffect.Answer FileExn α

def fileEffect (e : FileEffect) : FileProg e.Answer := .act e .pure

/-- A `jlong` passed as an `off_t`: its low 32 bits, signed. -/
def toOffT (offset : ℤ) : ℤ :=
  if offset % 2 ^ 32 < 2 ^ 31 then offset % 2 ^ 32 else offset % 2 ^ 32 - 2 ^ 32

namespace SambaClient

/-- The convention of the functions of `SambaClient`: the negated `errno`
of a call that has failed. -/
def resultOrErrno (a : SmbcResult) : ℤ := if a.result < 0 then -a.errno else a.result

def SeekFile (fd offset whence : ℤ) : FileProg ℤ := do
  return resultOrErrno (← fileEffect (.lseek fd offset whence))

def ReadFile (fd : ℤ) (maxlen : ℕ) : FileProg ℤ := do
  return resultOrErrno (← fileEffect (.read fd maxlen))

def WriteFile (fd : ℤ) (length : ℕ) : FileProg ℤ := do
  return resultOrErrno (← fileEffect (.write fd length))

end SambaClient

/-- The wrappers of `JniHelper.cc` throw for a negative result. -/
def JniHelper.checked (functionName : String) (call : FileProg ℤ) : FileProg ℤ := do
  let result ← call
  if result < 0 then .throw (.errno functionName (-result))
  else return result

namespace OpenFile

/-! ## The methods of `SambaFile` -/

/-- `catch (ErrnoException e) { throw new IOException(message, e); }`. -/
def wrapping (message : String) (body : FileProg ℤ) : FileProg ℤ :=
  body.catching FileExn.isErrno fun x =>
    match x with
    | .errno functionName errno => .throw (.io message functionName errno)
    | .io _ _ _ => .throw x

/-- `mOffset += n; return n;`. -/
def advance (n : ℤ) : FileProg ℤ := do
  let mOffset ← fileEffect .getOffset
  fileEffect (.setOffset (mOffset + n))
  return n

variable (fd : ℤ)

/-- `read`, into a buffer of the given capacity. -/
def read (capacity maxLen : ℕ) : FileProg ℤ :=
  wrapping ("Failed to read file. Fd: " ++ toString fd) do
    let bytesRead ← JniHelper.checked "read" (SambaClient.ReadFile fd (min maxLen capacity))
    advance bytesRead

def write (length : ℕ) : FileProg ℤ :=
  wrapping ("Failed to write file. Fd: " ++ toString fd) do
    let bytesWritten ← JniHelper.checked "write" (SambaClient.WriteFile fd length)
    advance bytesWritten

/-- The native part of `seek`. -/
def nativeSeek (offset : ℤ) : FileProg ℤ :=
  JniHelper.checked "seek" (SambaClient.SeekFile fd (toOffT offset) 0)

/-- `seek`, which leaves out a seek to the offset it is at. -/
def seek (offset : ℤ) : FileProg ℤ := do
  let mOffset ← fileEffect .getOffset
  if mOffset = offset then return mOffset
  else
    wrapping ("Failed to move to offset in file. Fd: " ++ toString fd) do
      let result ← nativeSeek fd offset
      fileEffect (.setOffset result)
      return result

end OpenFile

/-! ## What a method can do -/

section Effects

open OpenFile

variable {s t : OpenFile} {res : Result FileExn ℤ} {offset fd : ℤ} {capacity n p : ℕ}

/-- An exception stays one. -/
theorem ends_wrapping {message : String} {body : FileProg ℤ}
    (h : (wrapping message body).Ends Step s res t) :
    body.Ends Step s res t ∨ (∃ x, res = .threw x) ∧ ∃ y, body.Ends Step s (.threw y) t := by
  obtain ⟨res', u, hbody, hcaught⟩ := Prog.ends_catching.mp h
  rcases res' with m | x | _
  · obtain ⟨rfl, rfl⟩ := hcaught
    exact .inl hbody
  · rcases x with ⟨f, e⟩ | ⟨m, f, e⟩
    all_goals
      obtain ⟨rfl, rfl⟩ := hcaught
      exact .inr ⟨⟨_, rfl⟩, _, hbody⟩
  · obtain ⟨rfl, rfl⟩ := hcaught
    exact .inl hbody

/-- **A wrapper throws** when the call of the library has failed, and
returns its result else. -/
theorem ends_checked {name : String} {call : FileProg ℤ} {P : SmbcResult → OpenFile → Prop}
    (h : (JniHelper.checked name call).Ends Step s res t)
    (hcall : ∀ r u, call.Ends Step s r u →
      ∃ a, P a u ∧ r = .returned (SambaClient.resultOrErrno a))
    (hresult : ∀ a u, P a u → Failed a ∨ 0 ≤ a.result) :
    ∃ a, P a t ∧ ((Failed a ∧ ∃ x, res = .threw x) ∨
      (0 ≤ a.result ∧ res = .returned a.result)) := by
  obtain ⟨r', u, hc, hf⟩ := Prog.ends_bind.mp h
  obtain ⟨a, hP, rfl⟩ := hcall r' u hc
  change Prog.Ends _ (if SambaClient.resultOrErrno a < 0 then _ else _) u res t at hf
  unfold SambaClient.resultOrErrno at hf
  rcases hresult a u hP with ⟨hfailed, herrno⟩ | hok
  · rw [if_pos (by omega), if_pos (by omega)] at hf
    obtain ⟨rfl, rfl⟩ := hf
    exact ⟨a, hP, .inl ⟨⟨hfailed, herrno⟩, _, rfl⟩⟩
  · rw [if_neg (by omega), if_neg (by omega)] at hf
    obtain ⟨rfl, rfl⟩ := hf
    exact ⟨a, hP, .inr ⟨hok, rfl⟩⟩

theorem not_failed_of_nonneg {a : SmbcResult} (h : 0 ≤ a.result) : ¬ Failed a := by
  intro hfailed
  have hneg := hfailed.1
  omega

/-- **The native seek** goes to the low 32 bits of the offset and returns
them, or it fails and throws. Where they are negative it goes there too,
and what it returns is made of `errno`. -/
theorem ends_nativeSeek (h : (nativeSeek fd offset).Ends Step s res t) :
    ∃ position, t = { s with seeks := s.seeks ++ [toOffT offset], position := position } ∧
      ((position = s.position ∧ ∃ x, res = .threw x) ∨
        (position = toOffT offset ∧
          (res = .returned (toOffT offset) ∨ toOffT offset < 0))) := by
  obtain ⟨r', u, hcall, hf⟩ := Prog.ends_bind.mp h
  obtain ⟨a, v, hstep, rfl, rfl⟩ := hcall
  change Prog.Ends _ (if SambaClient.resultOrErrno a < 0 then _ else _) u res t at hf
  rcases hstep with ⟨⟨hneg, herrno⟩, rfl⟩ | ⟨hresult, rfl⟩
  · unfold SambaClient.resultOrErrno at hf
    rw [if_pos (by omega), if_pos (by omega)] at hf
    obtain ⟨rfl, rfl⟩ := hf
    exact ⟨s.position, rfl, .inl ⟨rfl, _, rfl⟩⟩
  · by_cases h0 : 0 ≤ toOffT offset
    · have hok : SambaClient.resultOrErrno a = toOffT offset := by
        rw [SambaClient.resultOrErrno, if_neg (by omega), hresult]
      rw [hok, if_neg (by omega)] at hf
      obtain ⟨rfl, rfl⟩ := hf
      exact ⟨_, rfl, .inr ⟨rfl, .inl rfl⟩⟩
    · split at hf
      all_goals
        obtain ⟨_, rfl⟩ := hf
        exact ⟨_, rfl, .inr ⟨rfl, .inr (by omega)⟩⟩

/-- A transfer: the native call, and then `mOffset`. -/
theorem ends_transfer {message name : String} {call : FileProg ℤ}
    {P : SmbcResult → OpenFile → Prop}
    (h : (wrapping message (JniHelper.checked name call >>= advance)).Ends Step s res t)
    (hcall : ∀ r u, call.Ends Step s r u →
      ∃ a, P a u ∧ r = .returned (SambaClient.resultOrErrno a))
    (hresult : ∀ a u, P a u → Failed a ∨ 0 ≤ a.result) :
    ∃ a u, P a u ∧ ((Failed a ∧ (∃ x, res = .threw x) ∧ t = u) ∨
      (0 ≤ a.result ∧ res = .returned a.result ∧
        t = { u with mOffset := u.mOffset + a.result })) := by
  rcases ends_wrapping h with h | ⟨hres, y, h⟩
  all_goals
    obtain ⟨r', u, hn, hf⟩ := Prog.ends_bind.mp h
    obtain ⟨a, hP, ⟨hfailed, x, rfl⟩ | ⟨hnonneg, rfl⟩⟩ := ends_checked hn hcall hresult
  · obtain ⟨rfl, rfl⟩ := hf
    exact ⟨a, _, hP, .inl ⟨hfailed, ⟨x, rfl⟩, rfl⟩⟩
  · obtain ⟨_, _, ⟨rfl, rfl⟩, _, _, rfl, rfl, rfl⟩ := hf
    exact ⟨a, _, hP, .inr ⟨hnonneg, rfl, rfl⟩⟩
  · obtain ⟨_, rfl⟩ := hf
    exact ⟨a, _, hP, .inl ⟨hfailed, hres, rfl⟩⟩
  · obtain ⟨_, _, _, _, _, _, hx, _⟩ := hf
    cases hx

/-- **A read** throws and leaves all as it is, or fills the buffer with
what stands at the position, and moves both positions behind it. -/
theorem ends_read (h : (read fd capacity n).Ends Step s res t) (hp : s.position = p) :
    (t = s ∧ ∃ x, res = .threw x) ∨
      ∃ k : ℕ, res = .returned k ∧ k ≤ min n capacity ∧
        k ≤ s.content.length - p ∧
        (k = 0 → min n capacity = 0 ∨ s.content.length ≤ p) ∧
        t = { s with
          position := (p + k : ℕ)
          mOffset := s.mOffset + k
          buffer := s.buffer.store 0 ((s.content.drop p).take k) } := by
  obtain ⟨a, u, hstep, hres⟩ := ends_transfer (P := Step (.read fd (min n capacity)) s) h
    (fun r u hr => by
      obtain ⟨a, v, hstep, rfl, rfl⟩ := hr
      exact ⟨a, hstep, rfl⟩)
    fun a u hstep => by
      rcases hstep with ⟨hfailed, _⟩ | ⟨bytes, hk, _⟩
      · exact .inl hfailed
      · exact .inr (by omega)
  rcases hstep with ⟨hfailed, rfl⟩ | ⟨bytes, hk, hle, hat, rfl⟩
  · rcases hres with ⟨_, hx, rfl⟩ | ⟨hnonneg, _⟩
    · exact .inl ⟨rfl, hx⟩
    · exact absurd hfailed (not_failed_of_nonneg hnonneg)
  · rcases hres with ⟨hfailed, _⟩ | ⟨_, hx, rfl⟩
    · exact absurd hfailed (not_failed_of_nonneg (by omega))
    · obtain ⟨hpre, hend⟩ := hat (by omega)
      rw [hp, Int.toNat_natCast] at hpre hend
      have hlen := hpre.length_le
      rw [List.length_drop] at hlen
      refine .inr ⟨bytes.length, by rw [hx, hk], hle, hlen,
        fun h0 => hend (List.length_eq_zero_iff.mp h0), ?_⟩
      rw [← List.prefix_iff_eq_take.mp hpre, hk, hp]
      rfl

/-- **A write** throws and leaves both positions, or stores the first
bytes of the buffer, and moves both positions behind them. -/
theorem ends_write (h : (write fd n).Ends Step s res t) (hp : s.position = p) :
    ((∃ content, t = { s with content := content }) ∧ ∃ x, res = .threw x) ∨
      ∃ k : ℕ, res = .returned k ∧ k ≤ n ∧ (k = 0 → n = 0) ∧
        t = { s with
          position := (p + k : ℕ)
          mOffset := s.mOffset + k
          content := pwrite s.content p (s.buffer.slice 0 k) } := by
  obtain ⟨a, u, hstep, hres⟩ := ends_transfer (P := Step (.write fd n) s) h
    (fun r u hr => by
      obtain ⟨a, v, hstep, rfl, rfl⟩ := hr
      exact ⟨a, hstep, rfl⟩)
    fun a u hstep => by
      rcases hstep with ⟨hfailed, _⟩ | ⟨k, content, hk, _⟩
      · exact .inl hfailed
      · exact .inr (by omega)
  rcases hstep with ⟨hfailed, content, rfl⟩ | ⟨k, content, hk, hle, hsome, hat, rfl⟩
  · rcases hres with ⟨_, hx, rfl⟩ | ⟨hnonneg, _⟩
    · exact .inl ⟨⟨content, rfl⟩, hx⟩
    · exact absurd hfailed (not_failed_of_nonneg hnonneg)
  · rcases hres with ⟨hfailed, _⟩ | ⟨_, hx, rfl⟩
    · exact absurd hfailed (not_failed_of_nonneg (by omega))
    · obtain rfl := hat (by omega)
      refine .inr ⟨k, by rw [hx, hk], hle, hsome, ?_⟩
      rw [hk, hp]
      rfl

/-- **A seek** does nothing where the offset is the cached one; else it
throws and leaves both positions, or sets both to the low 32 bits. Where
these are negative, the position is moved and the cached offset is not set
to it. -/
theorem ends_seek (h : (seek fd offset).Ends Step s res t) :
    (s.mOffset = offset ∧ res = .returned offset ∧ t = s) ∨
      (s.mOffset ≠ offset ∧ ((∃ x, res = .threw x) ∧
          t = { s with seeks := s.seeks ++ [toOffT offset] } ∨
        (res = .returned (toOffT offset) ∧
          t = { s with
            seeks := s.seeks ++ [toOffT offset]
            position := toOffT offset
            mOffset := toOffT offset }) ∨
        toOffT offset < 0)) := by
  obtain ⟨_, u, ⟨rfl, rfl⟩, h⟩ := h
  change Prog.Ends _ (if u.mOffset = offset then _ else _) u res t at h
  split at h
  · rename_i heq
    obtain ⟨rfl, rfl⟩ := h
    exact .inl ⟨heq, by rw [heq], rfl⟩
  · rename_i hne
    refine .inr ⟨hne, ?_⟩
    rcases ends_wrapping h with h | ⟨hres, y, h⟩
    all_goals
      obtain ⟨r', u, hn, hf⟩ := Prog.ends_bind.mp h
      obtain ⟨position, rfl, ⟨rfl, x, rfl⟩ | ⟨rfl, rfl | hneg⟩⟩ := ends_nativeSeek hn
    · obtain ⟨rfl, rfl⟩ := hf
      exact .inl ⟨⟨x, rfl⟩, rfl⟩
    · obtain ⟨_, _, rfl, rfl, rfl⟩ := hf
      exact .inr (.inl ⟨rfl, rfl⟩)
    · exact .inr (.inr hneg)
    · obtain ⟨_, rfl⟩ := hf
      exact .inl ⟨hres, rfl⟩
    · obtain ⟨_, _, _, hx, _⟩ := hf
      cases hx
    · exact .inr (.inr hneg)

/-- A seek that is made can return: the low 32 bits, or 0 where these are
negative and `errno` is 0. -/
theorem seek_returns (hne : s.mOffset ≠ offset) :
    (seek fd offset).Ends Step s (.returned (max (toOffT offset) 0))
      { s with
        seeks := s.seeks ++ [toOffT offset]
        position := toOffT offset
        mOffset := max (toOffT offset) 0 } := by
  let u : OpenFile := { s with
    seeks := s.seeks ++ [toOffT offset]
    position := toOffT offset }
  have hresult : SambaClient.resultOrErrno ⟨toOffT offset, 0⟩ = max (toOffT offset) 0 := by
    unfold SambaClient.resultOrErrno
    split <;> dsimp only at * <;> omega
  have hnative : (nativeSeek fd offset).Ends Step s (.returned (max (toOffT offset) 0)) u := by
    refine Prog.ends_bind.mpr ⟨.returned (max (toOffT offset) 0), u,
      ⟨⟨toOffT offset, 0⟩, u, .inr ⟨rfl, rfl⟩, congrArg Result.returned hresult.symm, rfl⟩, ?_⟩
    change Prog.Ends _ (if max (toOffT offset) 0 < 0 then _ else _) u _ u
    rw [if_neg (by omega)]
    exact ⟨rfl, rfl⟩
  refine ⟨s.mOffset, s, ⟨rfl, rfl⟩, ?_⟩
  change Prog.Ends _ (if s.mOffset = offset then _ else _) s _ _
  rw [if_neg hne]
  refine Prog.ends_catching.mpr ⟨.returned (max (toOffT offset) 0),
    { u with mOffset := max (toOffT offset) 0 },
    Prog.ends_bind.mpr ⟨_, u, hnative, ?_⟩, rfl, rfl⟩
  exact ⟨(), _, rfl, rfl, rfl⟩

end Effects

/-! ## Seeking -/

section Seeking

open OpenFile

variable {s : OpenFile} {offset fd : ℤ}

/-- A seek that returns has returned the offset, and called the library
for no other; where the cached offset was the position, the offset is the
position now. A seek that throws leaves the cached offset. -/
def OpenFile.SeekExact (fd : ℤ) (s : OpenFile) (offset : ℤ) : Prop :=
  ∀ res t, (seek fd offset).Ends Step s res t →
    (res = .returned offset ∧ (t.seeks = s.seeks ∨ t.seeks = s.seeks ++ [offset]) ∧
      (s.mOffset = s.position → offset = t.position)) ∨
    ((∃ x, res = .threw x) ∧ t.mOffset = s.mOffset)

/-- The offset fits into 31 bits, or the file is there already. -/
def OpenFile.Lands (s : OpenFile) (offset : ℤ) : Prop :=
  s.mOffset = offset ∨ offset < 2 ^ 31

theorem toOffT_of_lands (h0 : 0 ≤ offset) (h : s.Lands offset) (hne : s.mOffset ≠ offset) :
    toOffT offset = offset := by
  unfold toOffT
  rcases h with heq | hlt
  · exact absurd heq hne
  · rw [Int.emod_eq_of_lt h0 (by omega), if_pos hlt]

theorem toOffT_lt (offset : ℤ) : toOffT offset < 2 ^ 31 := by
  unfold toOffT
  have hlt := Int.emod_lt_of_pos offset (by decide : (0 : ℤ) < 2 ^ 32)
  split
  · assumption
  · omega

/-- **A seek is exact**, if and only if the offset fits into 31 bits or is
the cached one. -/
theorem seekExact_iff (h0 : 0 ≤ offset) (h63 : offset < 2 ^ 63) :
    SeekExact fd s offset ↔ s.Lands offset := by
  constructor
  · intro h
    by_contra hlands
    obtain ⟨hne, hbig⟩ : s.mOffset ≠ offset ∧ 2 ^ 31 ≤ offset := by
      unfold Lands at hlands
      omega
    rcases h _ _ (seek_returns hne) with ⟨hres, _⟩ | ⟨⟨x, hx⟩, _⟩
    · have heq := Result.returned.inj hres
      have hlt := toOffT_lt offset
      omega
    · cases hx
  · intro hlands res t hseek
    rcases ends_seek hseek with ⟨heq, rfl, rfl⟩ | ⟨hne, hmade⟩
    · exact .inl ⟨rfl, .inl rfl, fun hp => heq ▸ hp⟩
    · have heq := toOffT_of_lands h0 hlands hne
      rw [heq] at hmade
      rcases hmade with ⟨hx, rfl⟩ | ⟨rfl, rfl⟩ | hneg
      · exact .inr ⟨hx, rfl⟩
      · exact .inl ⟨rfl, .inr rfl, fun _ => rfl⟩
      · exact absurd h0 (Int.not_le.mpr hneg)

/-- A file that has just been opened. -/
def OpenFile.opened (content : List UInt8) (pool : List ByteBuffer) : OpenFile :=
  ⟨content, 0, [], 0, .new, pool⟩

theorem seekExact_near : SeekExact 3 (opened [] []) 5 :=
  (seekExact_iff (by decide) (by decide)).mpr (.inr (by decide))

/-- **A seek behind 4 GiB** goes somewhere else, and returns. -/
theorem not_seekExact_far : ¬ SeekExact 3 (opened [] []) (2 ^ 32 + 1) := by
  intro h
  rcases h _ _ (seek_returns (by decide)) with ⟨hres, _⟩ | ⟨⟨x, hx⟩, _⟩
  · exact absurd (Result.returned.inj hres) (by decide)
  · cases hx

end Seeking

end SambaProvider

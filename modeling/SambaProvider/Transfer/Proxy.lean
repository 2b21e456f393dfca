import SambaProvider.Native.File
import SambaProvider.Transfer.Task

/-!
# Random access to an open file

`SambaProxyFileCallback.java`: reads and writes at an offset, each a seek
and then a loop over a buffer of the pool. A client sees plain positioned
access, whatever the transfers below are split into and wherever one of
them fails, as long as the offset of the file and its position in the
library agree.
-/

namespace SambaProvider

open Lib

/-! ## The callback -/

/-- The exceptions of the callback: `throwErrnoException` hands out the
cause of the `IOException`. -/
def throwErrnoException {α : Type} : FileExn → FileProg α
  | .io _ functionName errno | .errno functionName errno => .throw (.errno functionName errno)

namespace SambaProxyFileCallback

/-- `buffer.get(data, at, n)`, on the array. -/
def place (data : List UInt8) (at' : ℕ) (bytes : List UInt8) : List UInt8 :=
  data.take at' ++ bytes ++ data.drop (at' + bytes.length)

variable (fd : ℤ)

/-- The loop of `onRead`: the count, and the array. A read is of no more
than the buffer holds, so it is all there to get. -/
def readLoop (size : ℕ) : ℕ → ℕ → List UInt8 → FileProg (ℕ × List UInt8)
  | 0, _, _ => .outOfFuel
  | fuel + 1, total, data =>
    if size > total then do
      let readSize ← OpenFile.read fd bufferCapacity (size - total)
      if readSize > 0 then
        let bytes ← fileEffect (.bufferGet readSize.toNat)
        fileEffect .bufferClear
        readLoop size fuel (total + readSize.toNat) (place data total bytes)
      else return (total, data)
    else return (total, data)

/-- A buffer of the pool for the body, given back on every way out. -/
def withBuffer {α : Type} (body : FileProg α) : FileProg α := do
  fileEffect .obtainBuffer
  Prog.withResource (fileEffect .recycleBuffer) (body.catching FileExn.isIO throwErrnoException)

/-- `onRead`, with the array it leaves. -/
def onRead (fuel : ℕ) (offset size : ℕ) (data : List UInt8) : FileProg (ℕ × List UInt8) :=
  withBuffer do
    let _ ← OpenFile.seek fd offset
    readLoop fd size fuel 0 data

/-- The loop of `onWrite`. -/
def writeLoop (size : ℕ) (data : List UInt8) : ℕ → ℕ → FileProg ℕ
  | 0, _ => .outOfFuel
  | fuel + 1, written =>
    if written < size then do
      let willWrite := min (size - written) bufferCapacity
      fileEffect (.bufferPut ((data.drop written).take willWrite))
      let res ← OpenFile.write fd willWrite
      fileEffect .bufferClear
      writeLoop size data fuel (written + res.toNat)
    else return written

def onWrite (fuel : ℕ) (offset size : ℕ) (data : List UInt8) : FileProg ℕ :=
  withBuffer do
    let _ ← OpenFile.seek fd offset
    writeLoop fd size data fuel 0

end SambaProxyFileCallback

open SambaProxyFileCallback

/-! ## Buffers -/

section Buffers

variable {b : ByteBuffer} {l l' : List UInt8} {i n p : ℕ}

@[simp] theorem length_slice : (b.slice i n).length = n := by
  simp [ByteBuffer.slice]

/-- What is stored is what is there. -/
theorem slice_store (h : n ≤ l.length) : (b.store i l).slice i n = l.take n := by
  refine List.ext_getElem (by simp [h]) fun j hj _ => ?_
  have hjn : j < n := by simpa using hj
  have hjl : j < l.length := by omega
  simp [ByteBuffer.slice, ByteBuffer.store, List.getD_eq_getElem?_getD, hjl]

/-- **Two writes in a row** are one. -/
theorem pwrite_pwrite (content : List UInt8) (p : ℕ) (l l' : List UInt8) :
    pwrite (pwrite content p l) (p + l.length) l' = pwrite content p (l ++ l') := by
  have hlen : (content.take p ++ List.replicate (p - content.length) 0).length = p := by
    simp only [List.length_append, List.length_take, List.length_replicate]
    omega
  have hlen' : (content.take p ++ List.replicate (p - content.length) 0 ++ l).length =
      p + l.length := by
    rw [List.length_append, hlen]
  have hgap : p + l.length - (pwrite content p l).length = 0 := by
    unfold pwrite
    rw [List.length_append, hlen']
    omega
  have htake : (pwrite content p l).take (p + l.length) =
      content.take p ++ List.replicate (p - content.length) 0 ++ l := by
    unfold pwrite
    rw [← hlen', List.take_left]
  have hdrop : (pwrite content p l).drop (p + l.length + l'.length) =
      content.drop (p + (l ++ l').length) := by
    unfold pwrite
    rw [← hlen', List.drop_length_add_append, List.drop_drop, hlen', List.length_append]
    congr 1
    omega
  rw [pwrite, hgap, htake, hdrop, pwrite]
  simp

theorem take_place {data : List UInt8} (hi : i ≤ data.length) :
    (place data i l).take (i + l.length) = data.take i ++ l := by
  have hlen : (data.take i ++ l).length = i + l.length := by
    rw [List.length_append, List.length_take]
    omega
  rw [place, ← hlen, List.take_left]

theorem length_place {data : List UInt8} (h : i + l.length ≤ data.length) :
    (place data i l).length = data.length := by
  simp only [place, List.length_append, List.length_take, List.length_drop]
  omega

end Buffers

/-! ## The loops -/

section Loops

open OpenFile

variable {s t : OpenFile} {fd : ℤ} {size fuel total written p : ℕ} {data : List UInt8}

/-- What a transfer keeps: the pool, and how far the cached offset is from
the position, which only goes forward. -/
structure Moved (s t : OpenFile) : Prop where
  pool : t.pool = s.pool
  drift : t.mOffset - t.position = s.mOffset - s.position
  forward : s.position ≤ t.position

theorem Moved.refl : Moved s s := ⟨rfl, rfl, Int.le_refl _⟩

/-- **The loop of `onRead`** gets what stands at the position, up to the
size or the end of the file. -/
theorem ends_readLoop {res : Result FileExn (ℕ × List UInt8)}
    (h : (readLoop fd size fuel total data).Ends Step s res t) (htotal : total ≤ size)
    (hdata : size ≤ data.length) (hbuffer : s.buffer.position = 0) (hp : s.position = p) :
    Moved s t ∧ t.content = s.content ∧ (res = .outOfFuel → fuel ≤ size - total) ∧
      ∀ r data', res = .returned (r, data') →
        r = total + min (size - total) (s.content.length - p) ∧
        data'.take r = data.take total ++ (s.content.drop p).take (size - total) := by
  induction fuel generalizing s total data p with
  | zero =>
    obtain ⟨rfl, rfl⟩ := h
    exact ⟨.refl, rfl, fun _ => Nat.zero_le _, fun _ _ hr => by cases hr⟩
  | succ fuel ih =>
    change Prog.Ends _ (if size > total then _ else _) s res t at h
    split at h
    swap
    · rename_i hfull
      obtain ⟨rfl, rfl⟩ := h
      refine ⟨.refl, rfl, fun hr => (by cases hr), fun r data' hr => ?_⟩
      obtain ⟨rfl, rfl⟩ := Prod.mk.inj (Result.returned.inj hr)
      have hzero : size - total = 0 := by omega
      rw [hzero]
      simp
    rename_i hmore
    obtain ⟨r', u, hread, hf⟩ := Prog.ends_bind.mp h
    rcases ends_read hread hp with ⟨rfl, x, rfl⟩ | ⟨k, rfl, hk, hlen, hend, rfl⟩
    · obtain ⟨rfl, rfl⟩ := hf
      exact ⟨.refl, rfl, fun hr => (by cases hr), fun _ _ hr => (by cases hr)⟩
    change Prog.Ends _ (if (k : ℤ) > 0 then _ else _) _ res t at hf
    split at hf
    swap
    · -- the end of the file, since neither the rest nor the buffer is empty
      rename_i hzero
      obtain ⟨rfl, rfl⟩ := hf
      obtain rfl : k = 0 := by omega
      have hcapacity : 0 < bufferCapacity := by decide
      have hpast : s.content.length ≤ p := by
        rcases hend rfl with hnone | hpast
        · omega
        · exact hpast
      refine ⟨⟨rfl, by simp [hp], by simp [hp]⟩, rfl, fun hr => (by cases hr),
        fun r data' hr => ?_⟩
      obtain ⟨rfl, rfl⟩ := Prod.mk.inj (Result.returned.inj hr)
      rw [List.drop_eq_nil_of_le hpast]
      simp only [List.take_nil, List.append_nil, and_true]
      omega
    · obtain ⟨_, _, ⟨rfl, rfl⟩, _, _, rfl, hrest⟩ := hf
      let bytes := (s.content.drop p).take k
      have hcount : bytes.length = k := by
        rw [List.length_take, List.length_drop]
        omega
      have hbytes : (s.buffer.store 0 bytes).slice s.buffer.position k = bytes := by
        rw [hbuffer, slice_store (Nat.le_of_eq hcount.symm), List.take_of_length_le]
        exact Nat.le_of_eq hcount
      replace hrest : (readLoop fd size fuel (total + k) (place data total
          ((s.buffer.store 0 bytes).slice s.buffer.position k))).Ends Step
          { s with
            position := (p + k : ℕ)
            mOffset := s.mOffset + k
            buffer := { s.buffer.store 0 bytes with position := 0 } } res t := hrest
      rw [hbytes] at hrest
      have hlength : (place data total bytes).length = data.length := length_place (by omega)
      obtain ⟨⟨hpool, hdrift, hforward⟩, hcontent, hfuel, hgot⟩ :=
        ih hrest (by omega) (by omega) rfl rfl
      dsimp only at hdrift hforward
      refine ⟨⟨hpool, by omega, by omega⟩, hcontent, fun hr => ?_, fun r data' hr => ?_⟩
      · have hle := hfuel hr
        omega
      · obtain ⟨hr', htake⟩ := hgot r data' hr
        have hplaced : (place data total bytes).take (total + k) = data.take total ++ bytes :=
          hcount ▸ take_place (by omega)
        have hsplit : size - total = k + (size - (total + k)) := by omega
        dsimp only at hr' htake
        refine ⟨by omega, ?_⟩
        rw [htake, hplaced, List.append_assoc, ← List.drop_drop, hsplit, List.take_add]

/-- **The loop of `onWrite`** stores the rest of the data at the
position. -/
theorem ends_writeLoop {res : Result FileExn ℕ}
    (h : (writeLoop fd size data fuel written).Ends Step s res t) (hwritten : written ≤ size)
    (hdata : size ≤ data.length) (hbuffer : s.buffer.position = 0) (hp : s.position = p) :
    Moved s t ∧ (res = .outOfFuel → fuel ≤ size - written) ∧
      ∀ n, res = .returned n → n = size ∧
        t.content = if written < size then
          pwrite s.content p ((data.take size).drop written) else s.content := by
  induction fuel generalizing s written p with
  | zero =>
    obtain ⟨rfl, rfl⟩ := h
    exact ⟨.refl, fun _ => Nat.zero_le _, fun _ hr => (by cases hr)⟩
  | succ fuel ih =>
    change Prog.Ends _ (if written < size then _ else _) s res t at h
    split at h
    swap
    · rename_i hfull
      obtain ⟨rfl, rfl⟩ := h
      refine ⟨.refl, fun hr => (by cases hr), fun n hr => ?_⟩
      obtain rfl := Result.returned.inj hr
      exact ⟨by omega, by rw [if_neg hfull]⟩
    rename_i hmore
    let willWrite := min (size - written) bufferCapacity
    have hcapacity : 0 < bufferCapacity := by decide
    let chunk := (data.drop written).take willWrite
    have hchunk : chunk.length = willWrite := by
      rw [List.length_take, List.length_drop]
      omega
    obtain ⟨_, _, rfl, h⟩ := h
    replace h : (write fd willWrite >>= fun res => fileEffect .bufferClear >>= fun _ =>
        writeLoop fd size data fuel (written + res.toNat)).Ends Step
        { s with buffer := { s.buffer.store s.buffer.position chunk with
          position := s.buffer.position + chunk.length } } res t := h
    obtain ⟨r', v, hwrite, hf⟩ := Prog.ends_bind.mp h
    rcases ends_write hwrite hp with ⟨⟨content, rfl⟩, x, rfl⟩ | ⟨k, rfl, hk, hsome, rfl⟩
    · obtain ⟨rfl, rfl⟩ := hf
      exact ⟨⟨rfl, rfl, Int.le_refl _⟩, fun hr => (by cases hr), fun _ hr => (by cases hr)⟩
    · obtain ⟨_, _, rfl, hrest⟩ := hf
      have hstored : (s.buffer.store s.buffer.position chunk).slice 0 k = chunk.take k := by
        rw [hbuffer]
        exact slice_store (hchunk ▸ hk)
      replace hrest : (writeLoop fd size data fuel (written + k)).Ends Step
          { s with
            position := (p + k : ℕ)
            mOffset := s.mOffset + k
            content := pwrite s.content p
              ((s.buffer.store s.buffer.position chunk).slice 0 k)
            buffer := { s.buffer.store s.buffer.position chunk with position := 0 } } res t :=
        hrest
      rw [hstored] at hrest
      obtain ⟨⟨hpool, hdrift, hforward⟩, hfuel, hwrote⟩ := ih hrest (by omega) rfl rfl
      dsimp only at hdrift hforward
      refine ⟨⟨hpool, by omega, by omega⟩, fun hr => ?_, fun n hr => ?_⟩
      · have hle := hfuel hr
        omega
      · obtain ⟨rfl, hcontent⟩ := hwrote n hr
        refine ⟨rfl, ?_⟩
        rw [hcontent, if_pos hmore]
        have htook : chunk.take k = ((data.take n).drop written).take k := by
          rw [List.take_take, List.drop_take, List.take_take]
          congr 1
          omega
        have hsplit : (data.take n).drop written =
            chunk.take k ++ (data.take n).drop (written + k) := by
          rw [htook, ← List.drop_drop, List.take_append_drop]
        have hlen : (chunk.take k).length = k := by
          rw [List.length_take]
          omega
        split
        · have htwo := pwrite_pwrite s.content p (chunk.take k)
            ((data.take n).drop (written + k))
          rw [hlen] at htwo
          rw [hsplit]
          exact htwo
        · have hrest : (data.take n).drop (written + k) = [] := by
            refine List.drop_eq_nil_of_le ?_
            rw [List.length_take]
            omega
          rw [hsplit, hrest, List.append_nil]

end Loops

/-! ## The calls -/

/-- A call of a client, with the array it is given. -/
inductive ProxyCall
  | onRead (offset size : ℕ) (data : List UInt8)
  | onWrite (offset size : ℕ) (data : List UInt8)

namespace ProxyCall

def offset : ProxyCall → ℕ
  | onRead offset _ _ | onWrite offset _ _ => offset

def size : ProxyCall → ℕ
  | onRead _ size _ | onWrite _ size _ => size

def data : ProxyCall → List UInt8
  | onRead _ _ data | onWrite _ _ data => data

/-- The array is as large as the call says. -/
def Valid (c : ProxyCall) : Prop := c.size ≤ c.data.length

/-- The call, with what is in the array afterwards. A round of a loop
that goes on has moved a byte at least. -/
def body (fd : ℤ) : ProxyCall → FileProg (ℕ × List UInt8)
  | onRead offset size data => SambaProxyFileCallback.onRead fd (size + 1) offset size data
  | onWrite offset size data => do
    return (← SambaProxyFileCallback.onWrite fd (size + 1) offset size data, data)

end ProxyCall

/-- The bytes are at the offset, all others that were there are as they
were, and the file is no longer than it has to be. -/
structure Stored (content : List UInt8) (offset : ℕ) (bytes content' : List UInt8) : Prop where
  stored : ∀ i, i < bytes.length → content'[offset + i]? = bytes[i]?
  kept : ∀ i, i < content.length → i < offset ∨ offset + bytes.length ≤ i →
    content'[i]? = content[i]?
  length : content'.length =
    if bytes = [] then content.length else max content.length (offset + bytes.length)

/-- **Positioned access**: a read that returns has got what is at the
offset, a write that returns has stored all its data there. -/
def ProxyCall.Positioned (c : ProxyCall) (s t : OpenFile) (r : ℕ) (data' : List UInt8) : Prop :=
  match c with
  | .onRead offset size _ =>
    r = min size (s.content.length - offset) ∧
      data'.take r = (s.content.drop offset).take r ∧ t.content = s.content
  | .onWrite offset size data =>
    r = size ∧ Stored s.content offset (data.take size) t.content

section Calls

open OpenFile

variable {s t : OpenFile} {fd : ℤ} {c : ProxyCall}

/-- Between two calls the cached offset is the position, which is not
negative, and the buffers of the pool are clear. -/
structure OpenFile.Ready (s : OpenFile) : Prop where
  synced : s.mOffset = s.position
  nonneg : 0 ≤ s.position
  clear : ∀ b ∈ s.pool, b.position = 0

/-- The file is at the offset, or the low 32 bits of the offset are not
negative. -/
def OpenFile.Within (s : OpenFile) (offset : ℤ) : Prop :=
  s.mOffset = offset ∨ offset % 2 ^ 32 < 2 ^ 31

theorem within_of_lands {offset : ℤ} (h0 : 0 ≤ offset) (h : s.Lands offset) :
    s.Within offset := by
  rcases h with heq | hlt
  · exact .inl heq
  · exact .inr (by rwa [Int.emod_eq_of_lt h0 (by omega)])

/-- Any other seek can part the cached offset and the position. -/
theorem seek_parts {offset : ℤ} (h : ¬ s.Within offset) :
    ∃ res t, (OpenFile.seek fd offset).Ends Step s res t ∧ t.mOffset ≠ t.position := by
  refine ⟨_, _, seek_returns fun heq => h (.inl heq), ?_⟩
  have hlow : ¬ offset % 2 ^ 32 < 2 ^ 31 := fun hlt => h (.inr hlt)
  have hlt := Int.emod_lt_of_pos offset (by decide : (0 : ℤ) < 2 ^ 32)
  have hneg : toOffT offset < 0 := by
    unfold toOffT
    rw [if_neg hlow]
    omega
  dsimp only
  omega

/-- A call with its buffer: the body runs on a clear one, which goes back
to the pool. -/
theorem ends_withBuffer {α : Type} {body : FileProg α} {res : Result FileExn α}
    (h : (withBuffer body).Ends Step s res t) (hs : s.Ready) :
    ∃ b res' u, body.Ends Step { s with buffer := b, pool := s.pool.tail } res' u ∧
      b.position = 0 ∧ (res = .outOfFuel → res' = .outOfFuel) ∧
      (∀ a, res = .returned a → res' = .returned a) ∧ t.content = u.content ∧
      (u.mOffset = u.position → 0 ≤ u.position → u.pool = s.pool.tail → res ≠ .outOfFuel →
        t.Ready) := by
  obtain ⟨_, _, rfl, h⟩ := h
  have hclear : (s.pool.headD .new).position = 0 := by
    rcases hp : s.pool with _ | ⟨b, bs⟩
    · rfl
    · exact hs.clear b (by simp [hp])
  obtain ⟨r₁, u₁, hcatch, hclose⟩ := Prog.ends_withResource.mp h
  obtain ⟨res', u, hbody, hcaught⟩ := Prog.ends_catching.mp hcatch
  have hready {b : ByteBuffer} {v : OpenFile} (hb : b.position = 0)
      (hpool : v.pool = if u.pool.length < OpenFile.poolSize then b :: u.pool else u.pool)
      (hoffset : v.mOffset = u.mOffset) (hposition : v.position = u.position)
      (hu : u.mOffset = u.position) (hnonneg : 0 ≤ u.position)
      (htail : u.pool = s.pool.tail) : v.Ready := by
    refine ⟨by rw [hoffset, hposition, hu], hposition ▸ hnonneg, fun b' hb' => ?_⟩
    rw [hpool, htail] at hb'
    split at hb'
    · rcases List.mem_cons.mp hb' with rfl | hmem
      · exact hb
      · exact hs.clear b' (List.mem_of_mem_tail hmem)
    · exact hs.clear b' (List.mem_of_mem_tail hb')
  have hthrew : (∀ x, res' = .threw x → ∃ y, r₁ = .threw y ∧ u₁ = u) ∧
      (∀ a, res' = .returned a → r₁ = .returned a ∧ u₁ = u) ∧
      (res' = .outOfFuel → r₁ = .outOfFuel ∧ u₁ = u) := by
    rcases res' with a | x | _
    · obtain ⟨rfl, rfl⟩ := hcaught
      exact ⟨nofun, fun _ ha => ⟨ha, rfl⟩, nofun⟩
    · refine ⟨fun y hy => ?_, nofun, nofun⟩
      change if x.isIO then _ else _ at hcaught
      split at hcaught
      · cases x
        all_goals
          obtain ⟨rfl, rfl⟩ := hcaught
          exact ⟨_, rfl, rfl⟩
      · obtain ⟨rfl, rfl⟩ := hcaught
        exact ⟨_, rfl, rfl⟩
    · obtain ⟨rfl, rfl⟩ := hcaught
      exact ⟨nofun, nofun, fun _ => ⟨rfl, rfl⟩⟩
  refine ⟨_, res', u, hbody, hclear, ?_⟩
  rcases hclose with ⟨rfl, rfl, rfl⟩ | ⟨hne, cl, ⟨_, _, rfl, rfl, rfl⟩, rfl⟩
  · rcases res' with a | x | _
    · cases (hthrew.2.1 a rfl).1
    · obtain ⟨y, hy, _⟩ := hthrew.1 x rfl
      cases hy
    · obtain ⟨_, rfl⟩ := hthrew.2.2 rfl
      exact ⟨fun _ => rfl, fun _ ha => (by cases ha), rfl, fun _ _ _ hfuel => absurd rfl hfuel⟩
  · rcases res' with a | x | _
    · obtain ⟨rfl, rfl⟩ := hthrew.2.1 a rfl
      exact ⟨fun ha => (by cases ha), fun _ ha => ha, rfl,
        fun hu hnonneg htail _ => hready rfl rfl rfl rfl hu hnonneg htail⟩
    · obtain ⟨y, rfl, rfl⟩ := hthrew.1 x rfl
      exact ⟨fun ha => (by cases ha), fun _ ha => (by cases ha), rfl,
        fun hu hnonneg htail _ => hready rfl rfl rfl rfl hu hnonneg htail⟩
    · exact absurd (hthrew.2.2 rfl).1 hne

/-- The seek before a loop: it throws, and all that changes is what the
library was called with; or it sets both positions to one offset. -/
theorem ends_seek_bind {α : Type} {offset : ℕ} {loop : FileProg α} {res : Result FileExn α}
    (h : (OpenFile.seek fd offset >>= fun _ => loop).Ends Step s res t) (hs : s.Ready)
    (hwithin : s.Within offset) :
    ((∃ x, res = .threw x) ∧ ∃ seeks, t = { s with seeks := seeks }) ∨
      ∃ seeks, ∃ p : ℕ, (s.Lands offset → p = offset) ∧
        loop.Ends Step { s with seeks := seeks, position := p, mOffset := p } res t := by
  obtain ⟨r', u, hseek, hf⟩ := Prog.ends_bind.mp h
  rcases ends_seek hseek with ⟨heq, rfl, rfl⟩ | ⟨hne, hmade⟩
  · -- the seek is left out: the file is at the offset already
    have hu : { u with position := (offset : ℤ), mOffset := (offset : ℤ) } = u := by
      rw [← heq]
      exact congrArg (fun p => { u with position := p }) hs.synced
    refine .inr ⟨u.seeks, offset, fun _ => rfl, ?_⟩
    rw [hu]
    exact hf
  · have hlow : 0 ≤ toOffT offset := by
      unfold toOffT
      rw [if_pos (hwithin.resolve_left hne)]
      exact Int.emod_nonneg _ (by decide)
    obtain ⟨p, hp⟩ := Int.eq_ofNat_of_zero_le hlow
    -- the library got the low 32 bits, which are not negative
    rcases hmade with ⟨⟨x, rfl⟩, rfl⟩ | ⟨rfl, rfl⟩ | hneg
    · obtain ⟨rfl, rfl⟩ := hf
      exact .inl ⟨⟨x, rfl⟩, _, rfl⟩
    · refine .inr ⟨s.seeks ++ [toOffT offset], p, fun hlands => ?_, hp ▸ hf⟩
      have heq := toOffT_of_lands (by omega) hlands hne
      omega
    · exact absurd hlow (Int.not_le.mpr hneg)

theorem stored_pwrite {content bytes : List UInt8} {offset : ℕ} (h : bytes ≠ []) :
    Stored content offset bytes (pwrite content offset bytes) := by
  have hlen : 0 < bytes.length := List.length_pos_of_ne_nil h
  have hfront : (content.take offset ++ List.replicate (offset - content.length) 0).length =
      offset := by
    rw [List.length_append, List.length_take, List.length_replicate]
    omega
  -- the bytes come after `offset` others, old ones and zeros
  refine ⟨fun i hi => ?_, fun i hi hout => ?_, ?_⟩
  · rw [pwrite, List.append_assoc, List.getElem?_append_right (by omega), hfront,
      Nat.add_sub_cancel_left, List.getElem?_append_left hi]
  · rcases hout with hlt | hge
    · rw [pwrite, List.append_assoc, List.append_assoc, List.getElem?_append_left,
        List.getElem?_take_of_lt hlt]
      rw [List.length_take]
      omega
    · rw [pwrite, List.getElem?_append_right, List.length_append, hfront, List.getElem?_drop]
      · congr 1
        omega
      · rw [List.length_append, hfront]
        omega
  · rw [if_neg h, pwrite, List.length_append, List.length_append, hfront, List.length_drop]
    omega

theorem stored_nil {content : List UInt8} {offset : ℕ} : Stored content offset [] content :=
  ⟨fun _ hi => absurd hi (Nat.not_lt_zero _), fun _ _ _ => rfl, rfl⟩

/-- **One call** ends, leaves the file ready for the next one, and is
positioned where its seek lands. -/
theorem ends_body {res : Result FileExn (ℕ × List UInt8)} (hc : c.Valid) (hs : s.Ready)
    (hwithin : s.Within c.offset) (h : (c.body fd).Ends Step s res t) :
    res ≠ .outOfFuel ∧ t.Ready ∧
      (s.Lands c.offset → ∀ r data', res = .returned (r, data') → c.Positioned s t r data') := by
  cases c with
  | onRead offset size data =>
    obtain ⟨b, res', u, hbody, hb, hfuel, hres, hcontent, hready⟩ := ends_withBuffer h hs
    have hready₀ : Ready { s with buffer := b, pool := s.pool.tail } :=
      ⟨hs.synced, hs.nonneg, fun b' hb' => hs.clear b' (List.mem_of_mem_tail hb')⟩
    -- the seek throws, or the loop begins with both positions at `p`
    rcases ends_seek_bind hbody hready₀ hwithin with
      ⟨⟨x, rfl⟩, seeks, rfl⟩ | ⟨seeks, p, hpos, hloop⟩
    · have hne : res ≠ .outOfFuel := fun he => (by cases hfuel he)
      exact ⟨hne, hready hs.synced hs.nonneg rfl hne, fun _ r data' hr => (by cases hres _ hr)⟩
    · obtain ⟨⟨hpool, hdrift, hforward⟩, hsame, hloopFuel, hgot⟩ :=
        ends_readLoop hloop (Nat.zero_le _) hc hb rfl
      dsimp only at hdrift hforward
      have hne : res ≠ .outOfFuel := by
        intro he
        have hle := hloopFuel (hfuel he)
        omega
      refine ⟨hne, hready (by omega) (by omega) hpool hne, fun hlands r data' hr => ?_⟩
      obtain ⟨hr', htake⟩ := hgot r data' (hres _ hr)
      obtain rfl := hpos hlands
      dsimp only at hr' htake
      refine ⟨by simpa using hr', ?_, hcontent.trans hsame⟩
      rw [htake, hr']
      simp [List.take_eq_take_iff]
  | onWrite offset size data =>
    obtain ⟨r₁, v, hwrite, hret⟩ := Prog.ends_bind.mp h
    obtain ⟨b, res', u, hbody, hb, hfuel, hres, hcontent, hready⟩ := ends_withBuffer hwrite hs
    have hres₁ : t = v ∧ (res = .outOfFuel → r₁ = .outOfFuel) ∧
        ∀ r data', res = .returned (r, data') → r₁ = .returned r := by
      rcases r₁ with n | x | _
      all_goals obtain ⟨rfl, rfl⟩ := hret
      · exact ⟨rfl, nofun, fun r data' hr => (by cases hr; rfl)⟩
      · exact ⟨rfl, nofun, nofun⟩
      · exact ⟨rfl, fun _ => rfl, nofun⟩
    obtain ⟨rfl, hfuel₁, hres₁⟩ := hres₁
    have hready₀ : Ready { s with buffer := b, pool := s.pool.tail } :=
      ⟨hs.synced, hs.nonneg, fun b' hb' => hs.clear b' (List.mem_of_mem_tail hb')⟩
    rcases ends_seek_bind hbody hready₀ hwithin with
      ⟨⟨x, rfl⟩, seeks, rfl⟩ | ⟨seeks, p, hpos, hloop⟩
    · have hne : r₁ ≠ .outOfFuel := fun he => (by cases hfuel he)
      exact ⟨fun he => hne (hfuel₁ he), hready hs.synced hs.nonneg rfl hne,
        fun _ r data' hr => (by cases hres _ (hres₁ r data' hr))⟩
    · obtain ⟨⟨hpool, hdrift, hforward⟩, hloopFuel, hwrote⟩ :=
        ends_writeLoop hloop (Nat.zero_le _) hc hb rfl
      dsimp only at hdrift hforward
      have hne : r₁ ≠ .outOfFuel := by
        intro he
        have hle := hloopFuel (hfuel he)
        omega
      refine ⟨fun he => hne (hfuel₁ he), hready (by omega) (by omega) hpool hne,
        fun hlands r data' hr => ?_⟩
      obtain ⟨hn, hstored⟩ := hwrote r (hres _ (hres₁ r data' hr))
      obtain rfl := hpos hlands
      refine ⟨hn, ?_⟩
      rw [hcontent, hstored]
      have hdata : size ≤ data.length := hc
      -- a call with nothing to write leaves the file as long as it is
      split
      · rename_i hsize
        refine stored_pwrite fun hnil => ?_
        have hlength := congrArg List.length hnil
        rw [List.length_take, List.length_nil] at hlength
        omega
      · obtain rfl : size = 0 := by omega
        exact stored_nil

/-- A call completes. -/
def ProxyCall.Completes (fd : ℤ) (s : OpenFile) (c : ProxyCall) (t : OpenFile) : Prop :=
  ∃ res, (c.body fd).Ends Step s res t

/-- A file just opened, with a pool of clear buffers. -/
def OpenFile.IsOpened (s : OpenFile) : Prop :=
  ∃ content pool, (∀ b ∈ pool, b.position = 0) ∧ s = opened content pool

/-- **Random access is positioned access** for every call whose seek
lands, after any sequence of calls none of which seeks to a negative
offset; and a seek is left out only where the file is at the offset
already. -/
theorem positioned_of_reached
    (h : Reached (ProxyCall.Completes fd) (fun s c => c.Valid ∧ s.Within c.offset) IsOpened s) :
    (∀ offset, s.mOffset = offset → s.position = offset) ∧
      ∀ c : ProxyCall, c.Valid → s.Lands c.offset → ∀ res t, (c.body fd).Ends Step s res t →
        res ≠ .outOfFuel ∧ ∀ r data', res = .returned (r, data') → c.Positioned s t r data' := by
  have hready : s.Ready := by
    refine h.inv (I := Ready) (fun s hs => ?_) fun s c t hs ⟨hc, hwithin⟩ ⟨res, hend⟩ =>
      (ends_body hc hs hwithin hend).2.1
    obtain ⟨content, pool, hclear, rfl⟩ := hs
    exact ⟨rfl, Int.le_refl _, hclear⟩
  refine ⟨fun offset ho => hready.synced.symm.trans ho, fun c hc hlands res t hend => ?_⟩
  have hwithin : s.Within c.offset := within_of_lands (Int.natCast_nonneg _) hlands
  obtain ⟨hfuel, _, hpositioned⟩ := ends_body hc hready hwithin hend
  exact ⟨hfuel, hpositioned hlands⟩

end Calls

/-! ## A read at the start, and one behind 4 GiB -/

section Far

open OpenFile

/-- The library as it answers when nothing fails and no transfer is
short. -/
def OpenFile.exec : (e : FileEffect) → OpenFile → e.Answer × OpenFile
  | .lseek _ offset _, s =>
    (⟨offset, 0⟩, { s with seeks := s.seeks ++ [offset], position := offset })
  | .read _ maxLen, s =>
    let bytes := (s.content.drop s.position.toNat).take maxLen
    (⟨bytes.length, 0⟩, { s with
      position := s.position + bytes.length
      buffer := s.buffer.store 0 bytes })
  | .write _ length, s =>
    (⟨length, 0⟩, { s with
      position := s.position + length
      content := pwrite s.content s.position.toNat (s.buffer.slice 0 length) })
  | .getOffset, s => (s.mOffset, s)
  | .setOffset offset, s => ((), { s with mOffset := offset })
  | .obtainBuffer, s => ((), { s with buffer := s.pool.headD .new, pool := s.pool.tail })
  | .recycleBuffer, s =>
    let buffer := { s.buffer with position := 0 }
    ((), { s with
      buffer := buffer
      pool := if s.pool.length < poolSize then buffer :: s.pool else s.pool })
  | .bufferGet n, s =>
    (s.buffer.slice s.buffer.position n,
      { s with buffer.position := s.buffer.position + n })
  | .bufferPut bytes, s =>
    ((), { s with buffer :=
      { s.buffer.store s.buffer.position bytes with
        position := s.buffer.position + bytes.length } })
  | .bufferClear, s => ((), { s with buffer.position := 0 })

theorem step_exec (e : FileEffect) (s : OpenFile) : Step e s (exec e s).1 (exec e s).2 := by
  cases e with
  | lseek fd offset whence => exact .inr ⟨rfl, rfl⟩
  | read fd maxLen =>
    refine .inr ⟨(s.content.drop s.position.toNat).take maxLen, rfl, List.length_take_le _ _,
      fun _ => ⟨List.take_prefix _ _, fun hnil => ?_⟩, rfl⟩
    have hlength := congrArg List.length hnil
    rw [List.length_take, List.length_drop, List.length_nil] at hlength
    omega
  | write fd length =>
    exact .inr ⟨length, _, rfl, Nat.le_refl _, fun h => h, fun _ => rfl, rfl⟩
  | getOffset => exact ⟨rfl, rfl⟩
  | bufferGet n => exact ⟨rfl, rfl⟩
  | _ => rfl

/-- A call on a file, answered so. -/
def OpenFile.after (s : OpenFile) (c : ProxyCall) : Result FileExn (ℕ × List UInt8) × OpenFile :=
  (c.body 3).run exec s

theorem ends_after {s : OpenFile} {c : ProxyCall} :
    (c.body 3).Ends Step s (s.after c).1 (s.after c).2 := Prog.ends_run step_exec

/-- A write behind the end of a file of two bytes. -/
def sampleFile : OpenFile := ((opened [7, 8] []).after (.onWrite 3 2 [1, 2])).2

/-- A read after it gets the second byte, and what fills the gap. -/
theorem positioned_near : sampleFile.content = [7, 8, 0, 1, 2] ∧
    (sampleFile.after (.onRead 1 2 [0, 0])).1 = .returned (2, [8, 0]) ∧
    (ProxyCall.onRead 1 2 [0, 0]).Positioned sampleFile
      (sampleFile.after (.onRead 1 2 [0, 0])).2 2 [8, 0] := by
  have hreached : Reached (ProxyCall.Completes 3) (fun s c => c.Valid ∧ s.Within c.offset)
      IsOpened sampleFile :=
    .next (.start ⟨[7, 8], [], nofun, rfl⟩) ⟨_, ends_after⟩
      ⟨(by decide : 2 ≤ 2), .inr (by decide)⟩
  have hread : (sampleFile.after (.onRead 1 2 [0, 0])).1 = .returned (2, [8, 0]) := by decide
  obtain ⟨_, hpositioned⟩ := (positioned_of_reached hreached).2 (.onRead 1 2 [0, 0])
    (by decide : 2 ≤ 2) (.inr (by decide)) _ _ ends_after
  exact ⟨by decide, hread, hpositioned 2 [8, 0] hread⟩

/-- **A read behind the end of the file** gets what is at the low 32 bits
of its offset. -/
theorem not_positioned_far : ∃ t,
    ((ProxyCall.onRead (2 ^ 32 + 1) 1 [0]).body 3).Ends Step (opened [7, 8] [])
      (.returned (1, [8])) t ∧
    ¬ (ProxyCall.onRead (2 ^ 32 + 1) 1 [0]).Positioned (opened [7, 8] []) t 1 [8] := by
  have hrun : ((opened [7, 8] []).after (.onRead (2 ^ 32 + 1) 1 [0])).1 = .returned (1, [8]) := by
    decide
  refine ⟨((opened [7, 8] []).after (.onRead (2 ^ 32 + 1) 1 [0])).2, ?_, fun h => ?_⟩
  · rw [← hrun]
    exact ends_after
  · exact absurd h.1 (by decide)

end Far

end SambaProvider

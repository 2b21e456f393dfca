import Mathlib.Data.List.Basic

/-!
# Percent encoding

The text of a URI part and back. Encoding keeps the unreserved
characters and writes every other one as the `%XX` of its UTF-8 bytes;
decoding collects the bytes the text stands for and reads them as UTF-8,
with the replacement character where they are none. Decoding inverts
encoding.
-/

namespace SambaProvider

namespace Lib

namespace Percent

/-- The characters that stand for themselves. -/
def isUnreserved (c : Char) : Bool :=
  c.isAlphanum || ['_', '-', '!', '.', '~', '\'', '(', ')', '*'].contains c

/-- A digit of an escape, in upper case. -/
def hexDigit (n : ℕ) : Char := if n < 10 then Char.ofNat (48 + n) else Char.ofNat (55 + n)

/-- The value of a digit of an escape, in either case. -/
def hexValue (c : Char) : Option ℕ :=
  if '0' ≤ c ∧ c ≤ '9' then some (c.toNat - 48)
  else if 'A' ≤ c ∧ c ≤ 'F' then some (c.toNat - 55)
  else if 'a' ≤ c ∧ c ≤ 'f' then some (c.toNat - 87)
  else none

/-- The escape of a byte. -/
def escape (b : UInt8) : List Char := ['%', hexDigit (b.toNat / 16), hexDigit (b.toNat % 16)]

def encodeChar (c : Char) : List Char :=
  if isUnreserved c then [c] else (String.utf8EncodeChar c).flatMap escape

/-- The percent-encoded form of a text. -/
def encode (s : String) : String := String.ofList (s.toList.flatMap encodeChar)

/-- What stands in for octets that are no text. -/
def replacement : Char := Char.ofNat 0xFFFD

/-- The octets a percent-encoded text stands for. A `%` without its two
digits stands for the replacement character. -/
def unescape : List Char → List UInt8
  | '%' :: a :: b :: cs =>
    match hexValue a, hexValue b with
    | some x, some y => UInt8.ofNat (16 * x + y) :: unescape cs
    | _, _ => String.utf8EncodeChar replacement ++ unescape (a :: b :: cs)
  | '%' :: cs => String.utf8EncodeChar replacement ++ unescape cs
  | c :: cs => String.utf8EncodeChar c ++ unescape cs
  | [] => []

/-- The text of a sequence of octets, one character a step. -/
def readUtf8 : ℕ → List UInt8 → List Char
  | 0, _ => []
  | _, [] => []
  | n + 1, b :: bs =>
    match (b :: bs).toByteArray.utf8DecodeChar? 0 with
    | some c => c :: readUtf8 n ((b :: bs).drop c.utf8Size)
    | none => replacement :: readUtf8 n bs

/-- The text of a percent-encoded form. -/
def decode (s : String) : String :=
  let bytes := unescape s.toList
  String.ofList (readUtf8 bytes.length bytes)

/-! ## Digits and octets -/

theorem hexValue_hexDigit {n : ℕ} (h : n < 16) : hexValue (hexDigit n) = some n := by
  have hall : ∀ m < 16, hexValue (hexDigit m) = some m := by decide
  exact hall n h

theorem unescape_escape {b : UInt8} {cs : List Char} :
    unescape (escape b ++ cs) = b :: unescape cs := by
  have hb : b.toNat < 256 := b.toNat_lt
  have hhigh := hexValue_hexDigit (show b.toNat / 16 < 16 by omega)
  have hlow := hexValue_hexDigit (show b.toNat % 16 < 16 by omega)
  have hbyte : UInt8.ofNat (16 * (b.toNat / 16) + b.toNat % 16) = b := by
    rw [Nat.div_add_mod]
    exact UInt8.ofNat_toNat
  change unescape ('%' :: hexDigit _ :: hexDigit _ :: cs) = _
  rw [unescape, hhigh, hlow]
  simp only [hbyte]

theorem unescape_flatMap_escape {bs : List UInt8} {cs : List Char} :
    unescape (bs.flatMap escape ++ cs) = bs ++ unescape cs := by
  induction bs with
  | nil => rfl
  | cons b bs ih =>
    rw [List.flatMap_cons, List.append_assoc, unescape_escape, ih]
    rfl

/-- A character that is no `%` stands for its own octets. -/
theorem unescape_cons {c : Char} (hc : c ≠ '%') {cs : List Char} :
    unescape (c :: cs) = String.utf8EncodeChar c ++ unescape cs := by
  rw [unescape]
  · intro a b cs' h
    exact absurd h hc
  · intro h
    exact absurd h hc

/-- Escaped or not, a character stands for its own octets. -/
theorem unescape_encodeChar {c : Char} {cs : List Char} :
    unescape (encodeChar c ++ cs) = String.utf8EncodeChar c ++ unescape cs := by
  unfold encodeChar
  split
  · rename_i hc
    refine unescape_cons fun h => ?_
    subst h
    exact absurd hc (by decide)
  · exact unescape_flatMap_escape

theorem unescape_flatMap_encodeChar {cs : List Char} :
    unescape (cs.flatMap encodeChar) = cs.flatMap String.utf8EncodeChar := by
  induction cs with
  | nil => rfl
  | cons c cs ih => rw [List.flatMap_cons, unescape_encodeChar, ih, List.flatMap_cons]

/-! ## Octets and text -/

theorem readUtf8_utf8EncodeChar {n : ℕ} {c : Char} {bs : List UInt8} :
    readUtf8 (n + 1) (String.utf8EncodeChar c ++ bs) = c :: readUtf8 n bs := by
  have hlen : (String.utf8EncodeChar c).length = c.utf8Size := String.length_utf8EncodeChar c
  obtain ⟨b, rest, hc⟩ : ∃ b rest, String.utf8EncodeChar c = b :: rest := by
    refine List.exists_cons_of_ne_nil fun h => ?_
    have hpos : 0 < c.utf8Size := c.utf8Size_pos
    rw [h, List.length_nil] at hlen
    omega
  have hdecode : (b :: (rest ++ bs)).toByteArray.utf8DecodeChar? 0 = some c := by
    rw [← List.cons_append, ← hc, List.toByteArray_append]
    exact ByteArray.utf8DecodeChar?_utf8EncodeChar_append
  have hdrop : (b :: (rest ++ bs)).drop c.utf8Size = bs := by
    rw [← List.cons_append, ← hc, ← hlen, List.drop_left]
  rw [hc, List.cons_append, readUtf8, hdecode]
  simp only [hdrop]

/-- Reading the octets of a text gives the text back, whatever is left
of the bound. -/
theorem readUtf8_flatMap {cs : List Char} {n : ℕ} (h : cs.length ≤ n) :
    readUtf8 n (cs.flatMap String.utf8EncodeChar) = cs := by
  induction cs generalizing n with
  | nil => cases n <;> rfl
  | cons c cs ih =>
    obtain ⟨m, rfl⟩ : ∃ m, n = m + 1 := ⟨n - 1, by simp only [List.length_cons] at h; omega⟩
    rw [List.flatMap_cons, readUtf8_utf8EncodeChar, ih (by simpa using h)]

theorem length_le_length_flatMap {cs : List Char} :
    cs.length ≤ (cs.flatMap String.utf8EncodeChar).length := by
  induction cs with
  | nil => exact Nat.zero_le _
  | cons c cs ih =>
    have hpos : 0 < c.utf8Size := c.utf8Size_pos
    rw [List.flatMap_cons, List.length_append, String.length_utf8EncodeChar, List.length_cons]
    omega

/-- **Decoding inverts encoding.** -/
@[simp] theorem decode_encode {s : String} : decode (encode s) = s := by
  unfold decode encode
  simp only [String.toList_ofList, unescape_flatMap_encodeChar]
  rw [readUtf8_flatMap length_le_length_flatMap, String.ofList_toList]

/-! ## Emptiness -/

theorem unescape_ne_nil {c : Char} {cs : List Char} : unescape (c :: cs) ≠ [] := by
  have happend {d : Char} {bs : List UInt8} : String.utf8EncodeChar d ++ bs ≠ [] := by
    refine List.append_ne_nil_of_left_ne_nil (fun h => ?_) _
    have hlen := String.length_utf8EncodeChar d
    have hpos : 0 < d.utf8Size := d.utf8Size_pos
    rw [h, List.length_nil] at hlen
    omega
  unfold unescape
  split
  · split
    · exact List.cons_ne_nil _ _
    · exact happend
  · exact happend
  · exact happend
  · contradiction

/-- **Only the empty text decodes to the empty text.** -/
@[simp] theorem decode_eq_empty {s : String} : decode s = "" ↔ s = "" := by
  constructor
  · intro h
    by_contra hs
    obtain ⟨c, cs, hcs⟩ : ∃ c cs, s.toList = c :: cs :=
      List.exists_cons_of_ne_nil fun h => hs (String.toList_eq_nil_iff.mp h)
    obtain ⟨b, bs, hbs⟩ := List.exists_cons_of_ne_nil (@unescape_ne_nil c cs)
    simp only [decode, hcs, hbs, List.length_cons, readUtf8] at h
    split at h <;> simp at h
  · rintro rfl
    rfl

@[simp] theorem encode_eq_empty {s : String} : encode s = "" ↔ s = "" := by
  rw [← decode_eq_empty, decode_encode]

/-- What an encoded form consists of. -/
theorem mem_encode {s : String} {c : Char} (h : c ∈ (encode s).toList) :
    c = '%' ∨ isUnreserved c = true := by
  have hdigit : ∀ m < 16, isUnreserved (hexDigit m) = true := by decide
  rw [encode, String.toList_ofList, List.mem_flatMap] at h
  obtain ⟨d, -, hd⟩ := h
  unfold encodeChar at hd
  split at hd
  · rename_i hunreserved
    obtain rfl := List.mem_singleton.mp hd
    exact .inr hunreserved
  · obtain ⟨byte, -, hbyte⟩ := List.mem_flatMap.mp hd
    have hlt : byte.toNat < 256 := byte.toNat_lt
    simp only [escape, List.mem_cons, List.not_mem_nil, or_false] at hbyte
    rcases hbyte with rfl | rfl | rfl
    · exact .inl rfl
    · exact .inr (hdigit _ (by omega))
    · exact .inr (hdigit _ (by omega))

/-! ## Length -/

/-- What one step of decoding takes: a character that stands for itself,
or the octet of an escape. -/
def pieces : List Char → List (Char ⊕ UInt8)
  | '%' :: a :: b :: cs =>
    match hexValue a, hexValue b with
    | some x, some y => .inr (UInt8.ofNat (16 * x + y)) :: pieces cs
    | _, _ => .inl replacement :: pieces (a :: b :: cs)
  | '%' :: cs => .inl replacement :: pieces cs
  | c :: cs => .inl c :: pieces cs
  | [] => []

/-- The octets of a piece. -/
def octets : Char ⊕ UInt8 → List UInt8
  | .inl c => String.utf8EncodeChar c
  | .inr b => [b]

theorem unescape_eq_flatMap {cs : List Char} : unescape cs = (pieces cs).flatMap octets := by
  fun_induction unescape cs with
  | case1 a b cs x y hx hy ih => rw [pieces, hx, hy, List.flatMap_cons, ih]; rfl
  | case2 a b cs hnone ih =>
    have hpieces : pieces ('%' :: a :: b :: cs) = .inl replacement :: pieces (a :: b :: cs) := by
      rw [pieces]
      split
      · rename_i x y hx hy
        exact absurd hy (hnone x y hx)
      · rfl
    rw [hpieces, List.flatMap_cons, ih]
    rfl
  | case3 cs hcs ih => rw [pieces, List.flatMap_cons, ih]; rfl; exact hcs
  | case4 c cs h₁ h₂ ih => rw [pieces, List.flatMap_cons, ih]; rfl; exact h₁; exact h₂
  | case5 => rfl

/-- The octets of a character: one that can come first, and others. -/
theorem utf8EncodeChar_eq_cons (c : Char) : ∃ b bs, String.utf8EncodeChar c = b :: bs ∧
    b.IsUTF8FirstByte ∧ ∀ x ∈ bs, ¬ x.IsUTF8FirstByte := by
  cases hc : String.utf8EncodeChar c with
  | nil =>
    have hlen := String.length_utf8EncodeChar c
    have hpos : 0 < c.utf8Size := c.utf8Size_pos
    rw [hc, List.length_nil] at hlen
    omega
  | cons b bs =>
    have hfirst (i : ℕ) (hi : i < (b :: bs).length) :
        (b :: bs)[i].IsUTF8FirstByte ↔ i = 0 := by
      simp only [← hc]
      exact UInt8.isUTF8FirstByte_getElem_utf8EncodeChar
    refine ⟨b, bs, rfl, (hfirst 0 (Nat.succ_pos _)).mpr rfl, fun x hx => ?_⟩
    obtain ⟨i, hi, rfl⟩ := List.mem_iff_getElem.mp hx
    exact fun h => absurd ((hfirst (i + 1) (Nat.succ_lt_succ hi)).mp h) (Nat.succ_ne_zero i)

/-- Octets that cannot come first are octets of escapes. -/
theorem exists_pieces_of_prefix {bs rest : List UInt8} {ps : List (Char ⊕ UInt8)}
    (hbs : ∀ x ∈ bs, ¬ x.IsUTF8FirstByte) (h : ps.flatMap octets = bs ++ rest) :
    ∃ qs : List (Char ⊕ UInt8), rest = qs.flatMap octets ∧ qs.length ≤ ps.length := by
  induction bs generalizing ps with
  | nil => exact ⟨ps, h.symm, Nat.le_refl _⟩
  | cons x bs ih =>
    cases ps with
    | nil => cases h
    | cons p ps =>
      cases p with
      | inl c =>
        obtain ⟨b, bs', hc, hb, -⟩ := utf8EncodeChar_eq_cons c
        rw [List.flatMap_cons, octets, hc] at h
        exact absurd ((List.cons.inj h).1 ▸ hb) (hbs x List.mem_cons_self)
      | inr b =>
        obtain ⟨qs, hqs, hlen⟩ := ih (fun y hy => hbs y (List.mem_cons_of_mem x hy))
          (List.cons.inj h).2
        exact ⟨qs, hqs, Nat.le_succ_of_le hlen⟩

/-- **Reading makes at most one character of a piece.** -/
theorem length_readUtf8_le {n : ℕ} {ps : List (Char ⊕ UInt8)} :
    (readUtf8 n (ps.flatMap octets)).length ≤ ps.length := by
  induction n generalizing ps with
  | zero => exact Nat.zero_le _
  | succ n ih =>
    cases ps with
    | nil => exact Nat.zero_le _
    | cons p ps =>
      cases p with
      | inl c =>
        rw [List.flatMap_cons, octets, readUtf8_utf8EncodeChar]
        exact Nat.succ_le_succ ih
      | inr b =>
        rw [List.flatMap_cons, octets, List.singleton_append, readUtf8]
        split
        · rename_i c hc
          obtain ⟨b', bs, henc, -, hbs⟩ := utf8EncodeChar_eq_cons c
          have hsize : c.utf8Size = bs.length + 1 := by
            rw [← String.length_utf8EncodeChar, henc, List.length_cons]
          obtain ⟨l, hl⟩ := ByteArray.exists_of_utf8DecodeChar?_eq_some hc
          have hlist : b :: ps.flatMap octets = b' :: (bs ++ l.data.toList) := by
            have hdata := congrArg (fun x : ByteArray => x.data.toList) hl
            simpa [henc, ByteArray.data_append] using hdata
          obtain ⟨qs, hqs, hlen⟩ := exists_pieces_of_prefix hbs (List.cons.inj hlist).2
          have hdrop : (b :: ps.flatMap octets).drop c.utf8Size = qs.flatMap octets := by
            rw [hsize, List.drop_succ_cons, (List.cons.inj hlist).2, List.drop_left, hqs]
          rw [hdrop]
          exact Nat.succ_le_succ (Nat.le_trans ih hlen)
        · exact Nat.succ_le_succ ih

/-- One more piece for one more character. -/
theorem length_pieces_cons {ps : List (Char ⊕ UInt8)} {c d : Char} {cs : List Char}
    (hd : '%' ≠ d) (h : ps.length < cs.length ∨
      ∃ l : List Char, ps = l.map .inl ∧ l.length = cs.length ∧ '%' ∉ l) :
    (.inl d :: ps : List (Char ⊕ UInt8)).length < (c :: cs).length ∨
      ∃ l : List Char, .inl d :: ps = l.map .inl ∧ l.length = (c :: cs).length ∧ '%' ∉ l := by
  rcases h with h | ⟨l, rfl, hlen, hmem⟩
  · exact .inl (Nat.succ_lt_succ h)
  · refine .inr ⟨d :: l, rfl, congrArg Nat.succ hlen, ?_⟩
    exact List.not_mem_cons_of_ne_of_not_mem hd hmem

/-- A piece takes a character at least; where none takes more, none is an
escape, and none stands for a percent sign. -/
theorem length_pieces (cs : List Char) : (pieces cs).length < cs.length ∨
    ∃ l : List Char, pieces cs = l.map .inl ∧ l.length = cs.length ∧ '%' ∉ l := by
  have hreplacement : '%' ≠ replacement := by decide
  fun_induction pieces cs with
  | case1 a b cs x y hx hy ih =>
    left
    simp only [List.length_cons]
    rcases ih with ih | ⟨l, hl, hlen, -⟩
    · omega
    · rw [hl, List.length_map]
      omega
  | case2 a b cs hnone ih => exact length_pieces_cons hreplacement ih
  | case3 cs hcs ih => exact length_pieces_cons hreplacement ih
  | case4 c cs h₁ h₂ ih => exact length_pieces_cons (fun hc => h₂ hc.symm) ih
  | case5 => exact .inr ⟨[], rfl, rfl, List.not_mem_nil⟩

theorem toList_decode {s : String} : ∃ n, n = ((pieces s.toList).flatMap octets).length ∧
    (decode s).toList = readUtf8 n ((pieces s.toList).flatMap octets) := by
  refine ⟨_, rfl, ?_⟩
  rw [← unescape_eq_flatMap]
  exact String.toList_ofList

/-- **Decoding makes no text longer.** -/
theorem length_decode_le {s : String} : (decode s).toList.length ≤ s.toList.length := by
  obtain ⟨n, -, hn⟩ := @toList_decode s
  rw [hn]
  refine Nat.le_trans length_readUtf8_le ?_
  rcases length_pieces s.toList with h | ⟨l, hl, hlen, -⟩
  · exact Nat.le_of_lt h
  · exact Nat.le_of_eq (by rw [hl, List.length_map, hlen])

theorem unescape_of_not_mem {cs : List Char} (h : '%' ∉ cs) :
    unescape cs = cs.flatMap String.utf8EncodeChar := by
  induction cs with
  | nil => rfl
  | cons c cs ih =>
    rw [List.mem_cons, not_or] at h
    rw [unescape_cons fun hc => h.1 hc.symm, ih h.2, List.flatMap_cons]

/-- **A text decodes to itself** exactly where it has no percent sign. -/
theorem decode_eq_self_iff {s : String} : decode s = s ↔ '%' ∉ s.toList := by
  constructor
  · intro h hmem
    obtain ⟨n, hn, hread⟩ := @toList_decode s
    rw [h] at hread
    rcases length_pieces s.toList with hlt | ⟨l, hl, -, hl'⟩
    · have hle := @length_readUtf8_le n (pieces s.toList)
      rw [← hread] at hle
      omega
    · have hoctets : (pieces s.toList).flatMap octets = l.flatMap String.utf8EncodeChar := by
        rw [hl, List.flatMap_map]
        rfl
      rw [hoctets] at hn hread
      rw [hread, hn, readUtf8_flatMap length_le_length_flatMap] at hmem
      exact hl' hmem
  · intro h
    simp only [decode, unescape_of_not_mem h]
    rw [readUtf8_flatMap length_le_length_flatMap, String.ofList_toList]

end Percent

end Lib

end SambaProvider

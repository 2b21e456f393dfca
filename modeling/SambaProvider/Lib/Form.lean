import SambaProvider.Lib.Percent

/-!
# Form encoding

The text of a form field and back. A space is written as a plus sign, a
few characters stand for themselves, and every other one is written as the
escapes of its octets. Decoding fails where an escape is malformed; which
digits an escape may have is a parameter.
-/

namespace SambaProvider

namespace Lib

namespace Form

open Percent

/-- The characters that stand for themselves. -/
def isPlain (c : Char) : Bool := c.isAlphanum || ['-', '_', '.', '*'].contains c

def encodeChar (c : Char) : List Char :=
  if c = ' ' then ['+']
  else if isPlain c then [c]
  else (String.utf8EncodeChar c).flatMap escape

/-- The encoded form of a text. -/
def encode (cs : List Char) : List Char := cs.flatMap encodeChar

/-- A plus sign stands for a space. -/
def plusToSpace (c : Char) : Char := if c = '+' then ' ' else c

/-- A text keeps its characters where it has no plus sign. -/
theorem map_plusToSpace_eq_self_iff {cs : List Char} : cs.map plusToSpace = cs ↔ '+' ∉ cs := by
  induction cs with
  | nil => simp
  | cons c cs ih =>
    have hc : plusToSpace c = c ↔ '+' ≠ c := by
      unfold plusToSpace
      split
      · rename_i hplus
        subst hplus
        decide
      · rename_i hplus
        exact iff_of_true rfl (Ne.symm hplus)
    rw [List.map_cons, List.cons.injEq, List.mem_cons, not_or, ih, hc]

variable (byteOf : Char → Char → Option UInt8)

/-- What is decoded step by step: a character, or the octet of an
escape. -/
def decodePieces : List Char → Option (List (Char ⊕ UInt8))
  | '%' :: a :: b :: cs => do
    let byte ← byteOf a b
    let ps ← decodePieces cs
    return .inr byte :: ps
  | '%' :: _ => none
  | c :: cs => do
    let ps ← decodePieces cs
    return .inl (plusToSpace c) :: ps
  | [] => some []

/-- The text an encoded form stands for. -/
def decode (cs : List Char) : Option (List Char) :=
  (decodePieces byteOf cs).map fun ps =>
    let bytes := ps.flatMap octets
    readUtf8 bytes.length bytes

variable {byteOf} {c : Char} {cs : List Char} {ps : List (Char ⊕ UInt8)}

/-! ## Pieces -/

theorem decodePieces_cons (hc : c ≠ '%') :
    decodePieces byteOf (c :: cs) = (decodePieces byteOf cs).map (.inl (plusToSpace c) :: ·) := by
  rw [decodePieces]
  · cases decodePieces byteOf cs <;> rfl
  · exact fun a b cs' h => absurd h hc
  · exact fun h => absurd h hc

/-- **Without a percent sign** every character is a piece. -/
theorem decodePieces_of_not_mem (h : '%' ∉ cs) :
    decodePieces byteOf cs = some ((cs.map plusToSpace).map .inl) := by
  induction cs with
  | nil => rfl
  | cons c cs ih =>
    rw [List.mem_cons, not_or] at h
    rw [decodePieces_cons (Ne.symm h.1), ih h.2]
    rfl

/-- **With a percent sign** there are fewer pieces than characters. -/
theorem length_decodePieces (h : decodePieces byteOf cs = some ps) :
    ps.length ≤ cs.length ∧ ('%' ∈ cs → ps.length < cs.length) := by
  fun_induction decodePieces byteOf cs generalizing ps with
  | case1 a b cs ih =>
    obtain ⟨byte, -, h⟩ := Option.bind_eq_some_iff.mp h
    obtain ⟨qs, hqs, h⟩ := Option.bind_eq_some_iff.mp h
    cases h
    have hle := (ih hqs).1
    simp only [List.length_cons]
    exact ⟨by omega, fun _ => by omega⟩
  | case2 => cases h
  | case3 c cs h₁ h₂ ih =>
    obtain ⟨qs, hqs, h⟩ := Option.bind_eq_some_iff.mp h
    cases h
    obtain ⟨hle, hlt⟩ := ih hqs
    refine ⟨Nat.succ_le_succ hle, fun hmem => Nat.succ_lt_succ (hlt ?_)⟩
    rcases List.mem_cons.mp hmem with heq | hmem
    · exact absurd heq.symm h₂
    · exact hmem
  | case4 =>
    cases h
    simp

/-! ## Decoding -/

/-- What the pieces say where they are characters. -/
theorem readUtf8_map_inl : readUtf8 ((cs.map Sum.inl).flatMap octets).length
    ((cs.map Sum.inl).flatMap octets) = cs := by
  have hoctets : (cs.map Sum.inl).flatMap octets = cs.flatMap String.utf8EncodeChar := by
    rw [List.flatMap_map]
    rfl
  rw [hoctets, readUtf8_flatMap length_le_length_flatMap]

/-- **A text that is decoded** loses characters, or has no percent sign
and only its plus signs change. -/
theorem decode_cases {cs' : List Char} (h : decode byteOf cs = some cs') :
    cs'.length < cs.length ∨ '%' ∉ cs ∧ cs' = cs.map plusToSpace := by
  obtain ⟨ps, hps, rfl⟩ := Option.map_eq_some_iff.mp h
  by_cases hmem : '%' ∈ cs
  · exact .inl (Nat.lt_of_le_of_lt length_readUtf8_le ((length_decodePieces hps).2 hmem))
  · rw [decodePieces_of_not_mem hmem] at hps
    obtain rfl := Option.some.inj hps
    exact .inr ⟨hmem, readUtf8_map_inl⟩

theorem decode_of_not_mem (h : '%' ∉ cs) : decode byteOf cs = some (cs.map plusToSpace) := by
  rw [decode, decodePieces_of_not_mem h]
  exact congrArg some readUtf8_map_inl

/-! ## Decoding what was encoded -/

/-- What an encoded form consists of. -/
theorem mem_encode (h : c ∈ encode cs) : c = '+' ∨ c = '%' ∨ isPlain c = true := by
  have hdigit : ∀ m < 16, isPlain (hexDigit m) = true := by decide
  obtain ⟨d, -, hd⟩ := List.mem_flatMap.mp h
  unfold encodeChar at hd
  split at hd
  · exact .inl (List.mem_singleton.mp hd)
  · split at hd
    · rename_i hplain
      obtain rfl := List.mem_singleton.mp hd
      exact .inr (.inr hplain)
    · obtain ⟨byte, -, hbyte⟩ := List.mem_flatMap.mp hd
      have hlt : byte.toNat < 256 := byte.toNat_lt
      simp only [escape, List.mem_cons, List.not_mem_nil, or_false] at hbyte
      rcases hbyte with rfl | rfl | rfl
      · exact .inr (.inl rfl)
      · exact .inr (.inr (hdigit _ (by omega)))
      · exact .inr (.inr (hdigit _ (by omega)))

section RoundTrip

variable (hbyte : ∀ b : UInt8,
  byteOf (hexDigit (b.toNat / 16)) (hexDigit (b.toNat % 16)) = some b)
include hbyte

theorem decodePieces_flatMap_escape {bs : List UInt8} :
    decodePieces byteOf (bs.flatMap escape ++ cs) =
      (decodePieces byteOf cs).map (bs.map .inr ++ ·) := by
  induction bs with
  | nil => cases hcs : decodePieces byteOf cs <;> simp [hcs]
  | cons b bs ih =>
    have hcons : (b :: bs).flatMap escape ++ cs =
        '%' :: hexDigit (b.toNat / 16) :: hexDigit (b.toNat % 16) ::
          (bs.flatMap escape ++ cs) := rfl
    rw [hcons, decodePieces, hbyte b, ih]
    cases decodePieces byteOf cs <;> rfl

/-- An encoded character stands for its own octets. -/
theorem decodePieces_encodeChar : ∃ qs : List (Char ⊕ UInt8),
    (∀ cs, decodePieces byteOf (encodeChar c ++ cs) = (decodePieces byteOf cs).map (qs ++ ·)) ∧
      qs.flatMap octets = String.utf8EncodeChar c := by
  unfold encodeChar
  split
  · rename_i hspace
    subst hspace
    exact ⟨[.inl ' '], fun cs => decodePieces_cons (by decide), rfl⟩
  · split
    · rename_i hplain
      have hpercent : c ≠ '%' := by
        rintro rfl
        exact absurd hplain (by decide)
      have hplus : plusToSpace c = c := if_neg (by rintro rfl; exact absurd hplain (by decide))
      refine ⟨[.inl c], fun cs => ?_, List.append_nil _⟩
      rw [List.singleton_append, decodePieces_cons hpercent, hplus]
      rfl
    · refine ⟨(String.utf8EncodeChar c).map .inr, fun cs => decodePieces_flatMap_escape hbyte, ?_⟩
      rw [List.flatMap_map]
      exact List.flatMap_singleton' _

/-- **Decoding inverts encoding**, also behind characters that stand for
themselves. -/
theorem decode_append_encode {front : List Char} (hpercent : '%' ∉ front) (hplus : '+' ∉ front) :
    decode byteOf (front ++ encode cs) = some (front ++ cs) := by
  have hpieces : ∃ ps : List (Char ⊕ UInt8), decodePieces byteOf (front ++ encode cs) = some ps ∧
      ps.flatMap octets = (front ++ cs).flatMap String.utf8EncodeChar := by
    induction front with
    | nil =>
      induction cs with
      | nil => exact ⟨[], rfl, rfl⟩
      | cons c cs ih =>
        obtain ⟨ps, hps, hoctets⟩ := ih
        obtain ⟨qs, hqs, hc⟩ := decodePieces_encodeChar (c := c) hbyte
        have hencode : encode (c :: cs) = encodeChar c ++ encode cs := List.flatMap_cons
        rw [List.nil_append] at hps hoctets ⊢
        refine ⟨qs ++ ps, by rw [hencode, hqs, hps]; rfl, ?_⟩
        rw [List.nil_append, List.flatMap_append, hc, hoctets, List.flatMap_cons]
    | cons d front ih =>
      rw [List.mem_cons, not_or] at hpercent hplus
      obtain ⟨ps, hps, hoctets⟩ := ih hpercent.2 hplus.2
      have hd : plusToSpace d = d := if_neg (Ne.symm hplus.1)
      refine ⟨.inl d :: ps, ?_, ?_⟩
      · rw [List.cons_append, decodePieces_cons (Ne.symm hpercent.1), hps, hd]
        rfl
      · rw [List.flatMap_cons, hoctets, List.cons_append, List.flatMap_cons]
        rfl
  obtain ⟨ps, hps, hoctets⟩ := hpieces
  rw [decode, hps]
  simp only [Option.map_some, hoctets]
  rw [readUtf8_flatMap length_le_length_flatMap]

end RoundTrip

end Form

end Lib

end SambaProvider

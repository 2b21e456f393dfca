import SambaProvider.Lib.Percent

/-!
# Texts and their octets

The octets of a text that could be those of a plain character are. So a
mark made of plain characters stands in the octets exactly where it stands
in the text, and what is read from the octets up to it is the text.
-/

namespace SambaProvider

namespace Lib

namespace Percent

/-- The octets of a text. -/
def encodeUtf8 (cs : List Char) : List UInt8 := cs.flatMap String.utf8EncodeChar

/-- The text of all the octets. -/
def decodeUtf8 (bs : List UInt8) : List Char := readUtf8 bs.length bs

variable {c : Char} {cs ds : List Char} {b : UInt8} {bs : List UInt8} {n : ℕ}

theorem encodeUtf8_append : encodeUtf8 (cs ++ ds) = encodeUtf8 cs ++ encodeUtf8 ds :=
  List.flatMap_append

theorem encodeUtf8_cons : encodeUtf8 (c :: cs) = String.utf8EncodeChar c ++ encodeUtf8 cs :=
  List.flatMap_cons

theorem decodeUtf8_encodeUtf8 : decodeUtf8 (encodeUtf8 cs) = cs :=
  readUtf8_flatMap length_le_length_flatMap

/-- An octet with a mark of UTF-8 is not one of a plain character. -/
theorem not_lt_of_or {m : UInt8} (hm : m = 0x80 ∨ m = 0xc0 ∨ m = 0xe0 ∨ m = 0xf0) :
    ¬ b ||| m < 0x80 := by
  have hall : ∀ n < 256, ∀ m ∈ [0x80, 0xc0, 0xe0, 0xf0], ¬ UInt8.ofNat n ||| m < 0x80 := by
    decide +kernel
  have hmem : m ∈ [0x80, 0xc0, 0xe0, 0xf0] := by simpa using hm
  have hb := hall b.toNat b.toNat_lt m hmem
  rw [UInt8.ofNat_toNat] at hb
  exact hb

/-- **An octet of a plain character** is the whole of one. -/
theorem eq_of_mem_utf8EncodeChar (hb : b < 0x80) (h : b ∈ String.utf8EncodeChar c) :
    String.utf8EncodeChar c = [b] := by
  rcases Char.utf8Size_eq c with hsize | hsize | hsize | hsize
  · rw [String.utf8EncodeChar_eq_singleton hsize] at h ⊢
    rw [List.mem_singleton.mp h]
  · rw [String.utf8EncodeChar_eq_cons_cons hsize] at h
    simp only [List.mem_cons, List.not_mem_nil, or_false] at h
    rcases h with rfl | rfl
    · exact absurd hb (not_lt_of_or (by decide))
    · exact absurd hb (not_lt_of_or (by decide))
  · rw [String.utf8EncodeChar_eq_cons_cons_cons hsize] at h
    simp only [List.mem_cons, List.not_mem_nil, or_false] at h
    rcases h with rfl | rfl | rfl
    · exact absurd hb (not_lt_of_or (by decide))
    · exact absurd hb (not_lt_of_or (by decide))
    · exact absurd hb (not_lt_of_or (by decide))
  · rw [String.utf8EncodeChar_eq_cons_cons_cons_cons hsize] at h
    simp only [List.mem_cons, List.not_mem_nil, or_false] at h
    rcases h with rfl | rfl | rfl | rfl
    · exact absurd hb (not_lt_of_or (by decide))
    · exact absurd hb (not_lt_of_or (by decide))
    · exact absurd hb (not_lt_of_or (by decide))
    · exact absurd hb (not_lt_of_or (by decide))

theorem utf8EncodeChar_injective {c d : Char}
    (h : String.utf8EncodeChar c = String.utf8EncodeChar d) : c = d := by
  have hc : decodeUtf8 (encodeUtf8 [c]) = decodeUtf8 (encodeUtf8 [d]) := by
    rw [encodeUtf8_cons, encodeUtf8_cons, h]
  rw [decodeUtf8_encodeUtf8, decodeUtf8_encodeUtf8] at hc
  exact (List.cons.inj hc).1

/-- **A plain character** is in a text where its octet is in the octets. -/
theorem mem_encodeUtf8 (hb : b < 0x80) (hc : String.utf8EncodeChar c = [b]) :
    b ∈ encodeUtf8 cs ↔ c ∈ cs := by
  unfold encodeUtf8
  rw [List.mem_flatMap]
  constructor
  · rintro ⟨d, hd, hmem⟩
    rw [utf8EncodeChar_injective (hc.trans (eq_of_mem_utf8EncodeChar hb hmem).symm)]
    exact hd
  · exact fun h => ⟨c, h, by rw [hc]; exact List.mem_singleton_self b⟩

/-! ## Octets that are no text -/

/-- **The first character** is the one whose octets come first. -/
theorem utf8DecodeChar_eq_some_iff :
    bs.toByteArray.utf8DecodeChar? 0 = some c ↔ String.utf8EncodeChar c <+: bs := by
  constructor
  · intro h
    obtain ⟨l, hl⟩ := ByteArray.exists_of_utf8DecodeChar?_eq_some h
    have hdata := congrArg (fun x : ByteArray => x.data.toList) hl
    exact ⟨l.data.toList, by simpa [ByteArray.data_append] using hdata.symm⟩
  · rintro ⟨rest, rfl⟩
    rw [List.toByteArray_append]
    exact ByteArray.utf8DecodeChar?_utf8EncodeChar_append

theorem readUtf8_cons_of_isPrefix (h : String.utf8EncodeChar c <+: b :: bs) :
    readUtf8 (n + 1) (b :: bs) = c :: readUtf8 n ((b :: bs).drop c.utf8Size) := by
  rw [readUtf8, utf8DecodeChar_eq_some_iff.mpr h]

theorem readUtf8_cons_of_none (h : ∀ c, ¬ String.utf8EncodeChar c <+: b :: bs) :
    readUtf8 (n + 1) (b :: bs) = replacement :: readUtf8 n bs := by
  have hnone : (b :: bs).toByteArray.utf8DecodeChar? 0 = none :=
    Option.eq_none_iff_forall_ne_some.mpr fun c hc => h c (utf8DecodeChar_eq_some_iff.mp hc)
  rw [readUtf8, hnone]

theorem readUtf8_nil : readUtf8 n [] = [] := by
  cases n <;> rfl

/-- Reading takes an octet at least for each character, so more calls than
octets change nothing. -/
theorem readUtf8_congr {m : ℕ} (hn : bs.length ≤ n) (hm : bs.length ≤ m) :
    readUtf8 n bs = readUtf8 m bs := by
  induction n generalizing m bs with
  | zero =>
    rw [List.eq_nil_of_length_eq_zero (Nat.le_zero.mp hn), readUtf8_nil, readUtf8_nil]
  | succ n ih =>
    cases bs with
    | nil => rw [readUtf8_nil, readUtf8_nil]
    | cons b bs =>
      obtain ⟨m, rfl⟩ := Nat.exists_eq_succ_of_ne_zero (Nat.ne_zero_of_lt hm)
      rw [List.length_cons] at hn hm
      by_cases h : ∃ c, String.utf8EncodeChar c <+: b :: bs
      · obtain ⟨c, hc⟩ := h
        have hsize := c.utf8Size_pos
        rw [readUtf8_cons_of_isPrefix hc, readUtf8_cons_of_isPrefix hc, ih (m := m)]
        · rw [List.length_drop, List.length_cons]
          omega
        · rw [List.length_drop, List.length_cons]
          omega
      · have hnone : ∀ c, ¬ String.utf8EncodeChar c <+: b :: bs := not_exists.mp h
        rw [readUtf8_cons_of_none hnone, readUtf8_cons_of_none hnone,
          ih (Nat.le_of_succ_le_succ hn) (Nat.le_of_succ_le_succ hm)]

theorem decodeUtf8_cons_of_isPrefix (h : String.utf8EncodeChar c <+: b :: bs) :
    decodeUtf8 (b :: bs) = c :: decodeUtf8 ((b :: bs).drop c.utf8Size) := by
  have hsize := c.utf8Size_pos
  rw [decodeUtf8, List.length_cons, readUtf8_cons_of_isPrefix h, decodeUtf8]
  refine congrArg _ (readUtf8_congr ?_ (Nat.le_refl _))
  rw [List.length_drop, List.length_cons]
  omega

theorem decodeUtf8_cons_of_none (h : ∀ c, ¬ String.utf8EncodeChar c <+: b :: bs) :
    decodeUtf8 (b :: bs) = replacement :: decodeUtf8 bs :=
  readUtf8_cons_of_none h

/-- An octet of a plain character ends what is before it. -/
theorem prefix_of_prefix_append_cons {d : Char} {a : UInt8} {rest : List UInt8} (hb : b < 0x80)
    (h : String.utf8EncodeChar d <+: a :: bs ++ b :: rest) :
    String.utf8EncodeChar d <+: a :: bs := by
  rcases List.prefix_or_prefix_of_prefix h (List.prefix_append (a :: bs) (b :: rest)) with hd | hd
  · exact hd
  · obtain ⟨tail, htail⟩ := hd
    cases tail with
    | nil =>
      rw [List.append_nil] at htail
      exact htail ▸ List.prefix_rfl
    | cons x tail =>
      rw [← htail, List.prefix_append_right_inj, List.cons_prefix_cons] at h
      have hmem : b ∈ String.utf8EncodeChar d := by
        rw [← htail, ← h.1]
        exact List.mem_append_right _ List.mem_cons_self
      have hlen := congrArg List.length (htail.trans (eq_of_mem_utf8EncodeChar hb hmem))
      simp only [List.length_append, List.length_cons, List.length_nil] at hlen
      omega

/-- **A plain character cuts the octets**: what is before it and what is
behind it are read apart. -/
theorem decodeUtf8_append_cons (hc : String.utf8EncodeChar c = [b]) (hb : b < 0x80)
    (bs rest : List UInt8) :
    decodeUtf8 (bs ++ b :: rest) = decodeUtf8 bs ++ c :: decodeUtf8 rest := by
  induction hn : bs.length using Nat.strongRecOn generalizing bs with
  | ind n ih =>
    subst hn
    cases bs with
    | nil =>
      have hsize : c.utf8Size = 1 := by
        rw [← String.length_utf8EncodeChar, hc, List.length_singleton]
      have hfirst : String.utf8EncodeChar c <+: b :: rest := by
        rw [hc]
        exact List.prefix_append [b] rest
      rw [List.nil_append, decodeUtf8_cons_of_isPrefix hfirst, hsize]
      rfl
    | cons a bs =>
      by_cases h : ∃ d, String.utf8EncodeChar d <+: a :: bs
      · obtain ⟨d, hd⟩ := h
        have hsize := d.utf8Size_pos
        have hle : d.utf8Size ≤ (a :: bs).length := by
          rw [← String.length_utf8EncodeChar]
          exact hd.length_le
        have hmore : String.utf8EncodeChar d <+: a :: (bs ++ b :: rest) :=
          hd.trans (List.prefix_append (a :: bs) (b :: rest))
        rw [decodeUtf8_cons_of_isPrefix hd, List.cons_append, decodeUtf8_cons_of_isPrefix hmore,
          ← List.cons_append, List.drop_append_of_le_length hle,
          ih _ (by rw [List.length_drop, List.length_cons]; omega) _ rfl, List.cons_append]
      · have hnone : ∀ d, ¬ String.utf8EncodeChar d <+: a :: bs := not_exists.mp h
        have hmore : ∀ d, ¬ String.utf8EncodeChar d <+: a :: (bs ++ b :: rest) := fun d hd =>
          hnone d (prefix_of_prefix_append_cons hb hd)
        rw [List.cons_append, decodeUtf8_cons_of_none hmore, decodeUtf8_cons_of_none hnone,
          ih _ (Nat.lt_succ_self _) _ rfl, List.cons_append]

end Percent

end Lib

end SambaProvider

import Mathlib.Algebra.Group.Nat.Defs
import Mathlib.Data.List.Basic
import Mathlib.Data.Int.Notation

/-!
# Numbers in texts

`Long.parseLong` and `Integer.parseInt`: an optional sign and digits, of
any script, whose value is in the range of the type.
-/

namespace SambaProvider

/-- The decimal digits zero of the scripts a `char` can have. -/
def digitZeros : List ℕ :=
  [0x0030, 0x0660, 0x06F0, 0x07C0, 0x0966, 0x09E6, 0x0A66, 0x0AE6, 0x0B66, 0x0BE6, 0x0C66,
    0x0CE6, 0x0D66, 0x0DE6, 0x0E50, 0x0ED0, 0x0F20, 0x1040, 0x1090, 0x17E0, 0x1810, 0x1946,
    0x19D0, 0x1A80, 0x1A90, 0x1B50, 0x1BB0, 0x1C40, 0x1C50, 0xA620, 0xA8D0, 0xA900, 0xA9D0,
    0xA9F0, 0xAA50, 0xABF0, 0xFF10]

/-- The letters `A`, wide and narrow, in both cases. -/
def letterTens : List ℕ := [0x0041, 0x0061, 0xFF21, 0xFF41]

/-- `Character.digit`. -/
def digit (radix : ℕ) (c : Char) : Option ℕ :=
  let value :=
    match digitZeros.find? fun z => z ≤ c.toNat ∧ c.toNat < z + 10 with
    | some z => some (c.toNat - z)
    | none =>
      (letterTens.find? fun ten => ten ≤ c.toNat ∧ c.toNat < ten + 26).map fun ten =>
        c.toNat - ten + 10
  value.filter (· < radix)

/-- The value of digits, behind those that make up `n`. -/
def parseDigits (radix : ℕ) : ℕ → List Char → Option ℕ
  | n, [] => some n
  | n, c :: cs =>
    match digit radix c with
    | some d => parseDigits radix (n * radix + d) cs
    | none => none

/-- The value of one digit at least, if it is at most `max`. -/
def parseMagnitude (radix max : ℕ) (cs : List Char) : Option ℕ :=
  if cs = [] then none else (parseDigits radix 0 cs).filter (· ≤ max)

/-- The number a text stands for, in the range of a type whose greatest
value is `max`; `none` is a `NumberFormatException`. -/
def parseNumber (radix max : ℕ) : List Char → Option ℤ
  | '-' :: cs => (parseMagnitude radix (max + 1) cs).map fun n : ℕ => -(n : ℤ)
  | '+' :: cs => (parseMagnitude radix max cs).map fun n : ℕ => (n : ℤ)
  | cs => (parseMagnitude radix max cs).map fun n : ℕ => (n : ℤ)

/-- `Long.MAX_VALUE`. -/
def longMax : ℕ := 2 ^ 63 - 1

/-- `Integer.MAX_VALUE`. -/
def intMax : ℕ := 2 ^ 31 - 1

/-- `Long.parseLong`. -/
def parseLong (cs : List Char) : Option ℤ := parseNumber 10 longMax cs

/-- A number that is written in plain digits, of any size. -/
def number (cs : List Char) : Option ℕ :=
  if cs ≠ [] ∧ cs.all Char.isDigit then some (Nat.ofDigitChars 10 cs 0) else none

variable {c : Char} {cs : List Char} {n : ℕ} {v : ℤ}

/-! ## Plain digits -/

theorem digit_of_isDigit (h : c.isDigit = true) : digit 10 c = some (c.toNat - '0'.toNat) := by
  obtain ⟨hle, hge⟩ := Char.isDigit_iff_toNat.mp h
  have hzero : digitZeros.find? (fun z => z ≤ c.toNat ∧ c.toNat < z + 10) = some 0x0030 := by
    refine List.find?_cons_of_pos (decide_eq_true ⟨hle, ?_⟩)
    exact Nat.lt_succ_of_le hge
  have hlt : c.toNat - 0x0030 < 10 := by
    change c.toNat ≤ 57 at hge
    omega
  simp only [digit, hzero]
  exact Option.filter_eq_some_iff.mpr ⟨rfl, decide_eq_true hlt⟩

theorem parseDigits_of_isDigit (h : ∀ c ∈ cs, c.isDigit = true) :
    parseDigits 10 n cs = some (Nat.ofDigitChars 10 cs n) := by
  induction cs generalizing n with
  | nil => rw [parseDigits, Nat.ofDigitChars_nil]
  | cons c cs ih =>
    have hc := digit_of_isDigit (h c List.mem_cons_self)
    rw [parseDigits, hc, Nat.ofDigitChars_cons, Nat.mul_comm 10 n]
    exact ih fun d hd => h d (List.mem_cons_of_mem c hd)

/-- The text of a number is a number in plain digits. -/
theorem number_toString : number (toString n).toList = some n := by
  have hdigits : (toString n).toList = Nat.toDigits 10 n := Nat.toList_repr
  have hall : (Nat.toDigits 10 n).all Char.isDigit :=
    List.all_eq_true.mpr fun c hc => Nat.isDigit_of_mem_toDigits (by decide) (by decide) hc
  rw [number, hdigits, if_pos ⟨Nat.toDigits_ne_nil, hall⟩, Nat.ofDigitChars_ten_toDigits]

theorem isDigit_of_number (h : number cs = some n) : cs ≠ [] ∧ ∀ c ∈ cs, c.isDigit = true := by
  unfold number at h
  split at h
  · rename_i hcs
    exact ⟨hcs.1, List.all_eq_true.mp hcs.2⟩
  · cases h

/-- A number in plain digits has no sign. -/
theorem not_mem_of_number (h : number cs = some n) : '-' ∉ cs := fun hmem =>
  absurd ((isDigit_of_number h).2 _ hmem) (by decide)

/-! ## Reading a long -/

theorem parseLong_cons (hminus : c ≠ '-') (hplus : c ≠ '+') : parseLong (c :: cs) =
    (parseMagnitude 10 longMax (c :: cs)).map fun n : ℕ => (n : ℤ) := by
  unfold parseLong parseNumber
  split
  · rename_i heq
    exact absurd (List.cons.inj heq).1 hminus
  · rename_i heq
    exact absurd (List.cons.inj heq).1 hplus
  · rfl

/-- **A number in plain digits is read** where it is in the range. -/
theorem parseLong_of_number (h : number cs = some n) :
    parseLong cs = if n ≤ longMax then some (n : ℤ) else none := by
  obtain ⟨hne, hall⟩ := isDigit_of_number h
  rw [number, if_pos ⟨hne, List.all_eq_true.mpr hall⟩] at h
  obtain ⟨c, cs, rfl⟩ := List.exists_cons_of_ne_nil hne
  have hc := hall c List.mem_cons_self
  rw [parseLong_cons (by rintro rfl; exact absurd hc (by decide))
    (by rintro rfl; exact absurd hc (by decide)), parseMagnitude, if_neg hne,
    parseDigits_of_isDigit hall, h]
  by_cases hle : n ≤ longMax
  · simp only [Option.filter, hle, decide_true, if_true, Option.map_some]
  · simp only [Option.filter, hle, decide_false, if_false, Bool.false_eq_true, Option.map_none]

/-- A text without a sign is read as a number that is not negative. -/
theorem nonneg_of_parseLong (h : parseLong cs = some v) (hminus : '-' ∉ cs) : 0 ≤ v := by
  unfold parseLong parseNumber at h
  split at h
  · exact absurd List.mem_cons_self hminus
  · obtain ⟨n, -, rfl⟩ := Option.map_eq_some_iff.mp h
    exact Int.natCast_nonneg n
  · obtain ⟨n, -, rfl⟩ := Option.map_eq_some_iff.mp h
    exact Int.natCast_nonneg n

/-! ## Hexadecimal digits -/

/-- What is written is a digit. -/
theorem exists_of_mem_toDigits (h : c ∈ Nat.toDigits 16 n) : ∃ d < 16, c = d.digitChar := by
  induction n using Nat.strongRecOn with
  | ind n ih =>
    rcases Nat.lt_or_ge n 16 with hlt | hge
    · rw [Nat.toDigits_of_lt_base hlt, List.mem_singleton] at h
      exact ⟨n, hlt, h⟩
    · rw [Nat.toDigits_of_base_le (by decide) hge, List.mem_append, List.mem_singleton] at h
      rcases h with h | h
      · exact ih (n / 16) (by omega) h
      · exact ⟨n % 16, Nat.mod_lt n (by decide), h⟩

end SambaProvider

import Mathlib.Data.List.Basic
import SambaProvider.Base.Exn

/-!
# JSON text

`android.util.JsonWriter` and `JsonReader` at the level the share manager
uses them: a sequence of tokens, and the text it is stored as. Here is the
writer's own compact format, with a scanner that reads it back.
-/

namespace SambaProvider

/-- The tokens a `JsonReader` hands out. -/
inductive JsonToken
  | beginObject
  | endObject
  | beginArray
  | endArray
  | name (s : String)
  | string (s : String)
  | number (text : String)
  | boolean (b : Bool)
  | null
deriving DecidableEq, Repr

/-- The tokens the share manager writes: it has no arrays and no
numbers. -/
def JsonToken.written : JsonToken → Bool
  | .beginArray | .endArray | .number _ => false
  | _ => true

namespace JsonText

/-! ## The compact format -/

/-- A lower-case hexadecimal digit. -/
def hexDigit (n : ℕ) : Char := Char.ofNat (if n < 10 then 48 + n else 87 + n)

/-- The value of a hexadecimal digit. -/
def hexValue (c : Char) : Option ℕ :=
  if 48 ≤ c.toNat ∧ c.toNat < 58 then some (c.toNat - 48)
  else if 97 ≤ c.toNat ∧ c.toNat < 103 then some (c.toNat - 87)
  else none

theorem hexValue_hexDigit : ∀ n, n < 16 → hexValue (hexDigit n) = some n := by decide

/-- `JsonWriter.string` on one character. -/
def escapeChar (c : Char) : List Char :=
  if c = '\x22' ∨ c = '\x5c' then ['\x5c', c]
  else if c = '\t' then ['\x5c', 't']
  else if c = '\x08' then ['\x5c', 'b']
  else if c = '\n' then ['\x5c', 'n']
  else if c = '\r' then ['\x5c', 'r']
  else if c = '\x0c' then ['\x5c', 'f']
  else if c.toNat ≤ 0x1f ∨ c = '\u2028' ∨ c = '\u2029' then
    ['\x5c', 'u', hexDigit (c.toNat / 4096), hexDigit (c.toNat / 256 % 16),
      hexDigit (c.toNat / 16 % 16), hexDigit (c.toNat % 16)]
  else [c]

/-- What a one-letter escape stands for. -/
def unescape (c : Char) : Char :=
  if c = 't' then '\t' else if c = 'b' then '\x08' else if c = 'n' then '\n'
  else if c = 'r' then '\r' else if c = 'f' then '\x0c' else c

/-- The rest of a quoted string, up to its closing quote. -/
def scanString : List Char → Option (List Char × List Char)
  | [] => none
  | c :: cs =>
    if c = '\x22' then some ([], cs)
    else if c = '\x5c' then
      match cs with
      | 'u' :: h₁ :: h₂ :: h₃ :: h₄ :: rest =>
        match hexValue h₁, hexValue h₂, hexValue h₃, hexValue h₄ with
        | some n₁, some n₂, some n₃, some n₄ =>
          (scanString rest).map fun p =>
            (Char.ofNat (n₁ * 4096 + n₂ * 256 + n₃ * 16 + n₄) :: p.1, p.2)
        | _, _, _, _ => none
      | d :: rest => (scanString rest).map fun p => (unescape d :: p.1, p.2)
      | [] => none
    else (scanString cs).map fun p => (c :: p.1, p.2)

/-- `"`, the escaped text, `"`. -/
def quote (s : String) : List Char := '\x22' :: (s.toList.flatMap escapeChar ++ ['\x22'])

/-- The text of one token; `comma` says whether a name here follows a
member of the same object. -/
def tokenText (comma : Bool) : JsonToken → List Char
  | .beginObject => ['{']
  | .endObject => ['}']
  | .name s => (if comma then [','] else []) ++ (quote s ++ [':'])
  | .string s => quote s
  | .boolean true => ['t', 'r', 'u', 'e']
  | .boolean false => ['f', 'a', 'l', 's', 'e']
  | .null => ['n', 'u', 'l', 'l']
  | .beginArray | .endArray | .number _ => []

/-- Whether a name after the token needs a comma. -/
def needsComma : JsonToken → Bool
  | .beginObject | .name _ => false
  | _ => true

/-- The text of a token sequence. -/
def render : Bool → List JsonToken → List Char
  | _, [] => []
  | comma, t :: ts => tokenText comma t ++ render (needsComma t) ts

/-- The scanner; the fuel is the length of the text. -/
def scan : ℕ → List Char → List JsonToken
  | 0, _ => []
  | _ + 1, [] => []
  | n + 1, c :: cs =>
    if c = ',' then scan n cs
    else if c = '{' then .beginObject :: scan n cs
    else if c = '}' then .endObject :: scan n cs
    else if c = '\x22' then
      match scanString cs with
      | none => []
      | some (s, []) => [.string (String.ofList s)]
      | some (s, d :: rest) =>
        if d = ':' then .name (String.ofList s) :: scan n rest
        else .string (String.ofList s) :: scan n (d :: rest)
    else match c, cs with
      | 'n', 'u' :: 'l' :: 'l' :: rest => .null :: scan n rest
      | 't', 'r' :: 'u' :: 'e' :: rest => .boolean true :: scan n rest
      | 'f', 'a' :: 'l' :: 's' :: 'e' :: rest => .boolean false :: scan n rest
      | _, _ => []

/-! ### The scanner inverts the writer -/

theorem scanString_escapeChar (c : Char) (cs : List Char) :
    scanString (escapeChar c ++ cs) = (scanString cs).map fun p => (c :: p.1, p.2) := by
  unfold escapeChar
  split_ifs with h₁ h₂ h₃ h₄ h₅ h₆ h₇
  · rcases h₁ with rfl | rfl <;> simp [scanString, unescape]
  · subst h₂; simp [scanString, unescape]
  · subst h₃; simp [scanString, unescape]
  · subst h₄; simp [scanString, unescape]
  · subst h₅; simp [scanString, unescape]
  · subst h₆; simp [scanString, unescape]
  · have hlt : c.toNat < 65536 := by
      rcases h₇ with h | rfl | rfl
      · omega
      · decide
      · decide
    have hsum : c.toNat / 4096 * 4096 + c.toNat / 256 % 16 * 256 + c.toNat / 16 % 16 * 16
        + c.toNat % 16 = c.toNat := by omega
    simp [scanString, hexValue_hexDigit _ (show c.toNat / 4096 < 16 by omega),
      hexValue_hexDigit _ (Nat.mod_lt _ (show 0 < 16 by omega)), hsum]
  · rw [not_or] at h₁
    rw [List.singleton_append, scanString.eq_def]
    simp only [if_neg h₁.1, if_neg h₁.2]

/-- A quoted string is scanned back to its text. -/
theorem scanString_quote (s cs : List Char) :
    scanString (s.flatMap escapeChar ++ '\x22' :: cs) = some (s, cs) := by
  induction s with
  | nil => rw [List.flatMap_nil, List.nil_append, scanString.eq_def]; rfl
  | cons c s ih =>
    rw [List.flatMap_cons, List.append_assoc, scanString_escapeChar, ih]
    rfl

/-- After a value the text does not go on with a colon: that is what tells
a string value from a name. -/
theorem render_ne_colon (ts : List JsonToken) {d : Char} {cs : List Char}
    (hw : ∀ t ∈ ts, t.written) (h : render true ts = d :: cs) : d ≠ ':' := by
  cases ts with
  | nil => simp [render] at h
  | cons t ts =>
    rintro rfl
    have ht := hw t (by simp)
    cases t with
    | boolean b => cases b <;> simp [render, tokenText] at h
    | beginArray | endArray | number => simp [JsonToken.written] at ht
    | _ => simp [render, tokenText, quote] at h

theorem scan_name (s : String) (cs : List Char) (n : ℕ) :
    scan (n + 1) (quote s ++ ':' :: cs) = .name s :: scan n cs := by
  have hs := scanString_quote s.toList (':' :: cs)
  rw [quote, List.cons_append, List.append_assoc, List.singleton_append, scan.eq_def]
  simp [hs]

theorem scan_string (s : String) (cs : List Char) (n : ℕ)
    (h : ∀ d rest, cs = d :: rest → d ≠ ':') :
    scan (n + 1) (quote s ++ cs) = .string s :: scan n cs := by
  have hs := scanString_quote s.toList cs
  rw [quote, List.cons_append, List.append_assoc, List.singleton_append, scan.eq_def]
  cases cs with
  | nil => cases n <;> simp [hs, scan]
  | cons d rest => simp [hs, h d rest rfl]

/-- The scanner reads one token of the text per unit of fuel, and one more
for each comma. -/
theorem scan_render (ts : List JsonToken) (hw : ∀ t ∈ ts, t.written) :
    ∀ (comma : Bool) (n : ℕ), (render comma ts).length < n → scan n (render comma ts) = ts := by
  induction ts with
  | nil => intro comma n hn; cases n <;> simp [render, scan] at hn ⊢
  | cons t ts ih =>
    have ih' := ih fun t ht => hw t (by simp [ht])
    have hwt := hw t (by simp)
    intro comma n hn
    obtain ⟨n, rfl⟩ : ∃ m, n = m + 1 := ⟨n - 1, by omega⟩
    simp only [render, List.length_append] at hn ⊢
    cases t with
    | beginObject =>
      simp only [tokenText, List.length_singleton] at hn
      simpa [tokenText, needsComma, scan] using ih' _ n (by simp only [needsComma] at hn; omega)
    | endObject =>
      simp only [tokenText, List.length_singleton] at hn
      simpa [tokenText, needsComma, scan] using ih' _ n (by simp only [needsComma] at hn; omega)
    | null =>
      simp only [tokenText, List.length_cons, List.length_nil] at hn
      simpa [tokenText, needsComma, scan] using ih' _ n (by simp only [needsComma] at hn; omega)
    | boolean b =>
      cases b <;>
      · simp only [tokenText, List.length_cons, List.length_nil] at hn
        simpa [tokenText, needsComma, scan] using ih' _ n (by simp only [needsComma] at hn; omega)
    | name s =>
      have hlen : 0 < (quote s).length := by simp [quote]
      cases comma with
      | false =>
        simp only [tokenText, List.length_append, List.length_singleton] at hn
        have hrest := ih' false n (by simp only [needsComma] at hn; omega)
        simpa [tokenText, needsComma, scan_name] using hrest
      | true =>
        simp only [tokenText, List.length_append, List.length_singleton, if_true] at hn
        obtain ⟨n, rfl⟩ : ∃ m, n = m + 1 := ⟨n - 1, by omega⟩
        have hrest := ih' false n (by simp only [needsComma] at hn; omega)
        simpa [tokenText, needsComma, scan, scan_name] using hrest
    | string s =>
      have hcolon : ∀ d rest, render true ts = d :: rest → d ≠ ':' :=
        fun d rest => render_ne_colon ts fun t ht => hw t (by simp [ht])
      have hlen : 0 < (quote s).length := by simp [quote]
      simp only [tokenText] at hn
      simpa [tokenText, needsComma, scan_string s _ n hcolon] using
        ih' true n (by simp only [needsComma] at hn; omega)
    | beginArray | endArray | number => simp [JsonToken.written] at hwt

/-- What `JsonWriter` writes without an indent. -/
def text (ts : List JsonToken) : String := String.ofList (render false ts)

/-- The tokens of the text. -/
def scanText (s : String) : List JsonToken := scan (s.length + 1) s.toList

/-- **The scanner reads back what was written.** -/
theorem scanText_text {ts : List JsonToken} (hw : ∀ t ∈ ts, t.written) :
    scanText (text ts) = ts := by
  rw [scanText, text, String.toList_ofList]
  exact scan_render ts hw false _ (by simp)

end JsonText

end SambaProvider

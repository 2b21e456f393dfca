import SambaProvider.Lib.Reader
import SambaProvider.Share.Manager

/-!
# The entries of the preference

What a saved string says, and what the loader reads. A string says what
the JSON value at its beginning says: an entry has a URI and a tuple,
whatever other members it has. The loader reads the words of a narrower
language: it takes the name of a member it does not know for all there is
of it, and so never comes past its value.
-/

namespace SambaProvider

open Lib

/-! ## JSON values -/

mutual

/-- A JSON value. -/
inductive Json
  | null
  | boolean (b : Bool)
  | number (text : String)
  | string (s : String)
  | array (items : JsonItems)
  | object (members : JsonMembers)

/-- The items of an array. -/
inductive JsonItems
  | nil
  | cons (item : Json) (items : JsonItems)

/-- The members of an object. -/
inductive JsonMembers
  | nil
  | cons (name : String) (value : Json) (members : JsonMembers)

end

mutual

/-- The tokens of a value. -/
def Json.tokens : Json → List JsonToken
  | .null => [.null]
  | .boolean b => [.boolean b]
  | .number text => [.number text]
  | .string s => [.string s]
  | .array items => .beginArray :: items.tokens
  | .object members => .beginObject :: members.tokens

/-- The tokens of the items and of the end of the array. -/
def JsonItems.tokens : JsonItems → List JsonToken
  | .nil => [.endArray]
  | .cons item items => item.tokens ++ items.tokens

/-- The tokens of the members and of the end of the object. -/
def JsonMembers.tokens : JsonMembers → List JsonToken
  | .nil => [.endObject]
  | .cons name value members => .name name :: (value.tokens ++ members.tokens)

end

/-- The tokens a reader hands out for a text are those of a value, or,
where the text is malformed, the first of them. -/
def Grammatical (ts : List JsonToken) : Prop := ∃ v : Json, Comparable v.tokens ts

/-- The first token tells the end of an array from an item, and the end
of an object from a member. -/
theorem Json.tokens_head (v : Json) : ∃ t ts, v.tokens = t :: ts ∧ t ≠ .endArray ∧
    t ≠ .endObject ∧ ∀ name, t ≠ .name name := by
  cases v <;> exact ⟨_, _, rfl, by simp, by simp, by simp⟩

mutual

/-- **A text is read in one way.** -/
theorem Json.eq_of_tokens_append : ∀ {v w : Json} {x y : List JsonToken},
    v.tokens ++ x = w.tokens ++ y → v = w ∧ x = y := by
  intro v w x y h
  cases v <;> cases w <;>
    simp only [Json.tokens, List.cons_append, List.nil_append, List.cons.injEq, reduceCtorEq,
      false_and, true_and, JsonToken.boolean.injEq, JsonToken.number.injEq,
      JsonToken.string.injEq] at h
  case null.null => exact ⟨rfl, h⟩
  case boolean.boolean => exact ⟨by rw [h.1], h.2⟩
  case number.number => exact ⟨by rw [h.1], h.2⟩
  case string.string => exact ⟨by rw [h.1], h.2⟩
  case array.array items items' =>
    obtain ⟨rfl, hxy⟩ := JsonItems.eq_of_tokens_append h
    exact ⟨rfl, hxy⟩
  case object.object members members' =>
    obtain ⟨rfl, hxy⟩ := JsonMembers.eq_of_tokens_append h
    exact ⟨rfl, hxy⟩

theorem JsonItems.eq_of_tokens_append : ∀ {v w : JsonItems} {x y : List JsonToken},
    v.tokens ++ x = w.tokens ++ y → v = w ∧ x = y := by
  intro v w x y h
  cases v with
  | nil =>
    cases w with
    | nil => exact ⟨rfl, (List.cons.inj h).2⟩
    | cons item items =>
      obtain ⟨t, ts, ht, hend, -⟩ := item.tokens_head
      rw [JsonItems.tokens, JsonItems.tokens, ht] at h
      exact absurd (List.cons.inj h).1.symm hend
  | cons item items =>
    cases w with
    | nil =>
      obtain ⟨t, ts, ht, hend, -⟩ := item.tokens_head
      rw [JsonItems.tokens, JsonItems.tokens, ht] at h
      exact absurd (List.cons.inj h).1 hend
    | cons item' items' =>
      rw [JsonItems.tokens, JsonItems.tokens, List.append_assoc, List.append_assoc] at h
      obtain ⟨rfl, hrest⟩ := Json.eq_of_tokens_append h
      obtain ⟨rfl, hxy⟩ := JsonItems.eq_of_tokens_append hrest
      exact ⟨rfl, hxy⟩

theorem JsonMembers.eq_of_tokens_append : ∀ {v w : JsonMembers} {x y : List JsonToken},
    v.tokens ++ x = w.tokens ++ y → v = w ∧ x = y := by
  intro v w x y h
  cases v with
  | nil =>
    cases w with
    | nil => exact ⟨rfl, (List.cons.inj h).2⟩
    | cons name value members => cases h
  | cons name value members =>
    cases w with
    | nil => cases h
    | cons name' value' members' =>
      rw [JsonMembers.tokens, JsonMembers.tokens, List.cons_append, List.cons_append,
        List.append_assoc, List.append_assoc] at h
      obtain ⟨hname, hvalue⟩ := List.cons.inj h
      obtain ⟨rfl, hrest⟩ := Json.eq_of_tokens_append hvalue
      obtain ⟨rfl, hxy⟩ := JsonMembers.eq_of_tokens_append hrest
      cases hname
      exact ⟨rfl, hxy⟩

end

/-! ## What an entry says -/

/-- The value of the last member of the name. -/
def JsonMembers.find (key : String) : JsonMembers → Option Json
  | .nil => none
  | .cons name value members =>
    match members.find key with
    | some v => some v
    | none => if name = key then some value else none

/-- A string, or a number as it is written. -/
def Json.text : Json → Option String
  | .string s | .number s => some s
  | _ => none

/-- The flag of a tuple, `true` where it has none. -/
def Json.flag : Option Json → Option Bool
  | none => some true
  | some (.boolean b) => some b
  | some _ => none

/-- The tuple a value stands for, if that is complete or `null`. -/
def Json.tuple : Json → Option ShareTuple
  | .null => some .emptyTuple
  | .object fields => do
    let workgroup ← (← fields.find "workgroup").text
    let username ← (← fields.find "username").text
    let password ← (← fields.find "password").text
    return .tuple workgroup username password (← Json.flag (fields.find "mount"))
  | _ => none

/-- The URI and the tuple an entry carries. -/
def Json.entry : Json → Option (String × ShareTuple)
  | .object members => do
    return (← (← members.find "uri").text, ← (← members.find "credentialTuple").tuple)
  | _ => none

/-- The text carries the entry. -/
def Carries (ts : List JsonToken) (p : String × ShareTuple) : Prop :=
  ∃ v : Json, v.tokens <+: ts ∧ v.entry = some p

/-- **A text carries one entry.** -/
theorem Carries.unique {ts : List JsonToken} {p q : String × ShareTuple} (hp : Carries ts p)
    (hq : Carries ts q) : p = q := by
  obtain ⟨v, ⟨x, hx⟩, hv⟩ := hp
  obtain ⟨w, ⟨y, hy⟩, hw⟩ := hq
  obtain ⟨rfl, -⟩ := Json.eq_of_tokens_append (hx.trans hy.symm)
  exact Option.some.inj (hv.symm.trans hw)

/-! ## What the loader reads -/

/-- What `nextString` takes. -/
def JsonToken.text : JsonToken → Option String
  | .string s | .number s => some s
  | _ => none

/-- A round of `decodeTuple`: a member it knows, the name of another one,
or the end of the object. -/
inductive TupleRound (f : TupleFields) : Language JsonToken (TupleFields ⊕ TupleFields)
  | workgroup {v : JsonToken} {s : String} : v.text = some s →
      TupleRound f [.name "workgroup", v] (.inl { f with workgroup := some s })
  | username {v : JsonToken} {s : String} : v.text = some s →
      TupleRound f [.name "username", v] (.inl { f with username := some s })
  | password {v : JsonToken} {s : String} : v.text = some s →
      TupleRound f [.name "password", v] (.inl { f with password := some s })
  | mount {b : Bool} : TupleRound f [.name "mount", .boolean b] (.inl { f with mounted := b })
  | unknown {name : String} : name ∉ ["workgroup", "username", "password", "mount"] →
      TupleRound f [.name name] (.inl f)
  | close : TupleRound f [.endObject] (.inr f)

/-- The tuple the fields make up, if none is missing. -/
def TupleFields.tuple (f : TupleFields) : Except Exn ShareTuple :=
  ShareTuple.new f.workgroup f.username f.password f.mounted

/-- The words `decodeTuple` reads. -/
inductive TupleWord : Language JsonToken ShareTuple
  | null : TupleWord [.null] .emptyTuple
  | object {w : List JsonToken} {f : TupleFields} {t : ShareTuple} :
      LoopWord TupleRound {} w f → f.tuple = .ok t → TupleWord (.beginObject :: w) t

/-- The local variables of `decode`. -/
abbrev EntryFields := Option String × Option ShareTuple

/-- A round of `decode`. -/
inductive EntryRound (s : EntryFields) : Language JsonToken (EntryFields ⊕ EntryFields)
  | uri {v : JsonToken} {u : String} : v.text = some u →
      EntryRound s [.name "uri", v] (.inl (some u, s.2))
  | credentialTuple {w : List JsonToken} {t : ShareTuple} : TupleWord w t →
      EntryRound s (.name "credentialTuple" :: w) (.inl (s.1, some t))
  | unknown {name : String} : name ∉ ["uri", "credentialTuple"] →
      EntryRound s [.name name] (.inl s)
  | close : EntryRound s [.endObject] (.inr s)

/-- The words `decode` reads. -/
inductive EntryWord : Language JsonToken (String × ShareTuple)
  | object {w : List JsonToken} {u : String} {t : ShareTuple} :
      LoopWord EntryRound (none, none) w (some u, some t) → EntryWord (.beginObject :: w) (u, t)

end SambaProvider

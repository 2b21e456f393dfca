import SambaProvider.Share.Entry
import SambaProvider.Share.Restart

/-!
# Reading saved strings

The constructor passes over a string whose reading ends with an
`IOException`, which is what a text that breaks off ends with. Everything
else that can be wrong with an entry leaves the constructor as an
exception of another class: the value of a member the loader does not
know, a value of the wrong kind, and an object that is closed before all
its members have come.
-/

namespace SambaProvider

open Lib

/-! ## The readers of the loader -/

variable {ts w : List JsonToken}

/-- The text has come to its end, or to where it is malformed. -/
def EndsText (e : Exn) : Prop := e.isIOException = true

theorem endsText_endOfText : EndsText endOfText := rfl

theorem not_endsText_wrongToken (expected : String) : ¬ EndsText (wrongToken expected) :=
  Bool.false_ne_true

theorem reads_nextString : Reads EndsText (Token JsonToken.text) Prod.mk nextString :=
  reads_token (wrongToken "a string") endsText_endOfText rfl fun t _ => by
    cases t <;> rfl

theorem viable_nextString : Viable EndsText (Token JsonToken.text) nextString :=
  viable_token (not_endsText_wrongToken "a string")
    (show (JsonToken.string "").text = some "" from rfl) fun t _ => by cases t <;> rfl

/-- What `nextBoolean` takes. -/
def JsonToken.bool : JsonToken → Option Bool
  | .boolean b => some b
  | _ => none

theorem reads_nextBoolean : Reads EndsText (Token JsonToken.bool) Prod.mk nextBoolean :=
  reads_token (wrongToken "a boolean") endsText_endOfText rfl fun t _ => by
    cases t <;> rfl

theorem viable_nextBoolean : Viable EndsText (Token JsonToken.bool) nextBoolean :=
  viable_token (not_endsText_wrongToken "a boolean")
    (show (JsonToken.boolean true).bool = some true from rfl) fun t _ => by cases t <;> rfl

/-- A name, or the end of the object. -/
def JsonToken.head : JsonToken → Option (Option String)
  | .name key => some (some key)
  | .endObject => some none
  | _ => none

/-- `hasNext` and `nextName`. -/
def nextHead : List JsonToken → Except Exn (Option String × List JsonToken)
  | [] => .error endOfText
  | t :: ts =>
    match t.head with
    | some name => .ok (name, ts)
    | none => .error (wrongToken "a name")

theorem reads_nextHead : Reads EndsText (Token JsonToken.head) Prod.mk nextHead :=
  reads_token (wrongToken "a name") endsText_endOfText rfl fun t _ => by
    cases t <;> rfl

/-! ### The members of an object -/

section Members

variable {σ : Type} {member : σ → String → List JsonToken → Except Exn ((σ ⊕ σ) × List JsonToken)}
variable {M : σ → Language JsonToken (σ ⊕ σ)}

/-- A round of a member loop: a member by its name, or the end of the
object. -/
def memberRound (member : σ → String → List JsonToken → Except Exn ((σ ⊕ σ) × List JsonToken))
    (s : σ) (ts : List JsonToken) : Except Exn ((σ ⊕ σ) × List JsonToken) :=
  nextHead ts >>= fun p =>
    match p.1 with
    | some key => member s key p.2
    | none => .ok (.inr s, p.2)

/-- The words of a round begin with a name, or are the end of the
object. -/
def MemberWords (M : σ → Language JsonToken (σ ⊕ σ)) : Prop :=
  ∀ s w x, M s w x ↔ (∃ key w', w = .name key :: w' ∧ M s (.name key :: w') x) ∨
    w = [.endObject] ∧ x = .inr s

theorem MemberWords.close (hM : MemberWords M) {s : σ} : M s [.endObject] (.inr s) :=
  (hM s _ _).mpr (.inr ⟨rfl, rfl⟩)

theorem MemberWords.progress (hM : MemberWords M) : Progress M := by
  rintro s w s' h rfl
  rcases (hM s [] _).mp h with ⟨key, w', hw, -⟩ | ⟨hw, -⟩
  · cases hw
  · cases hw

theorem reads_memberRound (hM : MemberWords M)
    (hmember : ∀ s key, Reads EndsText (fun w x => M s (.name key :: w) x) Prod.mk (member s key))
    (s : σ) : Reads EndsText (M s) Prod.mk (memberRound member s) := by
  have hnext (head : Option String) : Reads EndsText
      (fun w x => match head with
        | some key => M s (.name key :: w) x
        | none => Only (Sum.inr s) w x) Prod.mk
      fun ts => match head with
        | some key => member s key ts
        | none => .ok (.inr s, ts) := by
    cases head with
    | some key => exact hmember s key
    | none => exact reads_ok (Sum.inr s)
  refine (reads_nextHead.bind hnext).congr fun w x => ?_
  constructor
  · rintro ⟨w₁, head, w₂, ⟨t, ht, rfl⟩, hw₂, rfl⟩
    cases t <;> cases ht
    · obtain ⟨rfl, rfl⟩ := hw₂
      exact hM.close
    · exact hw₂
  · intro h
    rcases (hM s w x).mp h with ⟨key, w', rfl, hmember⟩ | ⟨rfl, rfl⟩
    · exact ⟨[.name key], some key, w', ⟨_, rfl, rfl⟩, hmember, rfl⟩
    · exact ⟨[.endObject], none, [], ⟨_, rfl, rfl⟩, ⟨rfl, rfl⟩, rfl⟩

/-- A round that is too short has nothing, or a name whose member is. -/
theorem memberRound_short {s : σ} {e : Exn} (he : memberRound member s ts = .error e)
    (hended : EndsText e) :
    ts = [] ∨ ∃ key rest, ts = .name key :: rest ∧ member s key rest = .error e := by
  rcases ts with _ | ⟨t, ts⟩
  · exact .inl rfl
  · cases t with
    | name key => exact .inr ⟨key, ts, rfl, he⟩
    | endObject => cases he
    | _ =>
      cases he
      exact absurd hended (not_endsText_wrongToken _)

/-- **A member loop can go on**, where its members can and every state can
be brought to an end. -/
theorem viable_memberLoop (hM : MemberWords M)
    (hmember : ∀ s key, Reads EndsText (fun w x => M s (.name key :: w) x) Prod.mk (member s key))
    (hshort : ∀ s key, Viable EndsText (fun w x => ∃ s', x = .inl s' ∧ M s (.name key :: w) x)
      (member s key))
    {V : σ → Prop} (hV : ∀ s, ∃ w s', LoopWord M s w s' ∧ V s') (s : σ) :
    Viable EndsText (fun w s' => LoopWord M s w s' ∧ V s')
      (loopAll endOfText (memberRound member) s) := by
  refine viable_loop hM.progress (reads_memberRound hM hmember) hV
    (fun s w s' w' a hw hw' => ⟨.more hw hw'.1, hw'.2⟩) (fun s ts e he hended => ?_) s
  rcases memberRound_short he hended with rfl | ⟨key, rest, rfl, hrest⟩
  · obtain ⟨w, s', hw⟩ := hV s
    exact .inr ⟨w, s', hw, List.nil_prefix⟩
  · obtain ⟨w, x, ⟨s', rfl, hw⟩, hp⟩ := hshort s key rest e hrest hended
    exact .inl ⟨.name key :: w, s', hw, List.cons_prefix_cons.mpr ⟨rfl, hp⟩⟩

/-- A member that is one value: where the value can be gone on with, so
can the member. -/
theorem viable_member {β : Type} {W : Language JsonToken β} {s : σ} {key : String}
    {r : List JsonToken → Except Exn (β × List JsonToken)} (g : β → σ)
    (h : Viable EndsText W r) (hM : ∀ w b, W w b → M s (.name key :: w) (.inl (g b))) :
    Viable EndsText (fun w x => ∃ s', x = .inl s' ∧ M s (.name key :: w) x)
      fun ts => r ts >>= fun p => (.ok (.inl (g p.1), p.2) : Except Exn ((σ ⊕ σ) × _)) := by
  refine (h.map fun b => Sum.inl (g b)).mono ?_
  rintro w x ⟨b, hw, rfl⟩
  exact ⟨g b, rfl, hM w b hw⟩

end Members

/-! ### The tuple -/

/-- The value of a member of the tuple. -/
def tupleMember (f : TupleFields) (name : String) (ts : List JsonToken) :
    Except Exn ((TupleFields ⊕ TupleFields) × List JsonToken) :=
  if name = "workgroup" then
    nextString ts >>= fun p => .ok (.inl { f with workgroup := some p.1 }, p.2)
  else if name = "username" then
    nextString ts >>= fun p => .ok (.inl { f with username := some p.1 }, p.2)
  else if name = "password" then
    nextString ts >>= fun p => .ok (.inl { f with password := some p.1 }, p.2)
  else if name = "mount" then
    nextBoolean ts >>= fun p => .ok (.inl { f with mounted := p.1 }, p.2)
  else .ok (.inl f, ts)

theorem decodeTupleMembers_eq_loop {n : ℕ} {f : TupleFields} :
    decodeTupleMembers n f ts = loop endOfText (memberRound tupleMember) n f ts := by
  induction n generalizing f ts with
  | zero => rfl
  | succ n ih =>
    rcases ts with _ | ⟨t, ts⟩
    · rfl
    · cases t with
      | name name =>
        rw [decodeTupleMembers, loop]
        simp only [memberRound, nextHead, JsonToken.head, tupleMember, bind, Except.bind]
        split_ifs with h₁ h₂ h₃ h₄
        · cases nextString ts with
          | ok p => exact ih
          | error e => rfl
        · cases nextString ts with
          | ok p => exact ih
          | error e => rfl
        · cases nextString ts with
          | ok p => exact ih
          | error e => rfl
        · cases nextBoolean ts with
          | ok p => exact ih
          | error e => rfl
        · exact ih
      | _ => rfl

theorem tupleRound_iff {f : TupleFields} {x : TupleFields ⊕ TupleFields} :
    TupleRound f w x ↔
      (∃ s, (∃ v : JsonToken, v.text = some s ∧ w = [.name "workgroup", v]) ∧
        x = .inl { f with workgroup := some s }) ∨
      (∃ s, (∃ v : JsonToken, v.text = some s ∧ w = [.name "username", v]) ∧
        x = .inl { f with username := some s }) ∨
      (∃ s, (∃ v : JsonToken, v.text = some s ∧ w = [.name "password", v]) ∧
        x = .inl { f with password := some s }) ∨
      (∃ b, w = [.name "mount", .boolean b] ∧ x = .inl { f with mounted := b }) ∨
      (∃ key, key ∉ ["workgroup", "username", "password", "mount"] ∧ w = [.name key] ∧
        x = .inl f) ∨
      w = [.endObject] ∧ x = .inr f := by
  constructor
  · intro h
    cases h with
    | workgroup hv => exact .inl ⟨_, ⟨_, hv, rfl⟩, rfl⟩
    | username hv => exact .inr (.inl ⟨_, ⟨_, hv, rfl⟩, rfl⟩)
    | password hv => exact .inr (.inr (.inl ⟨_, ⟨_, hv, rfl⟩, rfl⟩))
    | mount => exact .inr (.inr (.inr (.inl ⟨_, rfl, rfl⟩)))
    | unknown hkey => exact .inr (.inr (.inr (.inr (.inl ⟨_, hkey, rfl, rfl⟩))))
    | close => exact .inr (.inr (.inr (.inr (.inr ⟨rfl, rfl⟩))))
  · rintro (⟨s, ⟨v, hv, rfl⟩, rfl⟩ | ⟨s, ⟨v, hv, rfl⟩, rfl⟩ | ⟨s, ⟨v, hv, rfl⟩, rfl⟩ |
      ⟨b, rfl, rfl⟩ | ⟨key, hkey, rfl, rfl⟩ | ⟨rfl, rfl⟩)
    · exact .workgroup hv
    · exact .username hv
    · exact .password hv
    · exact .mount
    · exact .unknown hkey
    · exact .close

theorem bool_eq_some_iff {t : JsonToken} {b : Bool} : t.bool = some b ↔ t = .boolean b := by
  cases t <;> simp [JsonToken.bool]

theorem reads_tupleMember {f : TupleFields} {key : String} :
    Reads EndsText (fun w x => TupleRound f (.name key :: w) x) Prod.mk (tupleMember f key) := by
  unfold tupleMember
  split_ifs with h₁ h₂ h₃ h₄
  · refine (reads_nextString.map fun s =>
      Sum.inl { f with workgroup := some s }).congr fun w x => ?_
    simp [Token, tupleRound_iff, h₁]
  · refine (reads_nextString.map fun s =>
      Sum.inl { f with username := some s }).congr fun w x => ?_
    simp [Token, tupleRound_iff, h₂]
  · refine (reads_nextString.map fun s =>
      Sum.inl { f with password := some s }).congr fun w x => ?_
    simp [Token, tupleRound_iff, h₃]
  · refine (reads_nextBoolean.map fun b => Sum.inl { f with mounted := b }).congr fun w x => ?_
    simp [Token, tupleRound_iff, h₄, bool_eq_some_iff]
  · refine (reads_ok (Sum.inl f)).congr fun w x => ?_
    simp [Only, tupleRound_iff, h₁, h₂, h₃, h₄]

theorem memberWords_tupleRound : MemberWords TupleRound := by
  intro f w x
  constructor
  · intro h
    cases h with
    | close => exact .inr ⟨rfl, rfl⟩
    | workgroup hv => exact .inl ⟨_, _, rfl, .workgroup hv⟩
    | username hv => exact .inl ⟨_, _, rfl, .username hv⟩
    | password hv => exact .inl ⟨_, _, rfl, .password hv⟩
    | mount => exact .inl ⟨_, _, rfl, .mount⟩
    | unknown hkey => exact .inl ⟨_, _, rfl, .unknown hkey⟩
  · rintro (⟨key, w', rfl, h⟩ | ⟨rfl, rfl⟩)
    · exact h
    · exact .close

theorem reads_tupleRound (f : TupleFields) :
    Reads EndsText (TupleRound f) Prod.mk (memberRound tupleMember f) :=
  reads_memberRound memberWords_tupleRound (fun _ _ => reads_tupleMember) f

/-- `null`, or the beginning of an object. -/
def JsonToken.tupleHead : JsonToken → Option Bool
  | .null => some false
  | .beginObject => some true
  | _ => none

def nextTupleHead : List JsonToken → Except Exn (Bool × List JsonToken)
  | [] => .error endOfText
  | t :: ts =>
    match t.tupleHead with
    | some isObject => .ok (isObject, ts)
    | none => .error (wrongToken "BEGIN_OBJECT")

theorem reads_nextTupleHead : Reads EndsText (Token JsonToken.tupleHead) Prod.mk nextTupleHead :=
  reads_token (wrongToken "BEGIN_OBJECT") endsText_endOfText rfl fun t _ => by
    cases t <;> rfl

/-- The members of a tuple and what they make up. -/
def tupleObject (ts : List JsonToken) : Except Exn (ShareTuple × List JsonToken) :=
  loopAll endOfText (memberRound tupleMember) {} ts >>= fun p =>
    p.1.tuple.map fun t => (t, p.2)

theorem decodeTuple_eq : decodeTuple ts = nextTupleHead ts >>= fun p =>
    if p.1 then tupleObject p.2 else .ok (.emptyTuple, p.2) := by
  rcases ts with _ | ⟨t, ts⟩
  · rfl
  · cases t with
    | beginObject =>
      have hobject : decodeTuple (.beginObject :: ts) =
          decodeTupleMembers (ts.length + 1) {} ts >>= fun p =>
            p.1.tuple >>= fun t => pure (t, p.2) := rfl
      rw [hobject, decodeTupleMembers_eq_loop]
      change _ = loopAll endOfText (memberRound tupleMember) {} ts >>= _
      rw [loopAll]
      cases loop endOfText (memberRound tupleMember) (ts.length + 1) {} ts with
      | error e => rfl
      | ok p =>
        change (p.1.tuple >>= fun t => pure (t, p.2)) = p.1.tuple.map fun t => (t, p.2)
        cases p.1.tuple <;> rfl
    | _ => rfl

/-- **`decodeTuple` reads the words of a tuple.** -/
theorem reads_decodeTuple : Reads EndsText TupleWord Prod.mk decodeTuple := by
  have hobject : Reads EndsText (Then (LoopWord TupleRound {}) fun f w t => w = [] ∧
      f.tuple = .ok t) Prod.mk tupleObject :=
    (reads_loop memberWords_tupleRound.progress reads_tupleRound {}).bind fun f =>
      reads_ofExcept f.tuple Prod.mk
  have hvalue (isObject : Bool) : Reads EndsText
      (fun w t => if isObject then Then (LoopWord TupleRound {}) (fun f w t => w = [] ∧
        f.tuple = .ok t) w t else Only .emptyTuple w t) Prod.mk
      fun ts => if isObject then tupleObject ts else .ok (.emptyTuple, ts) := by
    cases isObject
    · exact reads_ok ShareTuple.emptyTuple
    · exact hobject
  rw [show decodeTuple = _ from funext fun ts => decodeTuple_eq]
  refine (reads_nextTupleHead.bind hvalue).congr fun w t => ?_
  constructor
  · rintro ⟨w₁, isObject, w₂, ⟨token, htoken, rfl⟩, hw₂, rfl⟩
    cases token <;> cases htoken
    · obtain ⟨w₃, f, w₄, hw₃, ⟨rfl, ht⟩, rfl⟩ := hw₂
      rw [List.append_nil]
      exact .object hw₃ ht
    · obtain ⟨rfl, rfl⟩ := hw₂
      exact .null
  · intro h
    cases h with
    | null => exact ⟨[.null], false, [], ⟨_, rfl, rfl⟩, ⟨rfl, rfl⟩, rfl⟩
    | object hw ht =>
      exact ⟨[.beginObject], true, _, ⟨_, rfl, rfl⟩,
        ⟨_, _, [], hw, ⟨rfl, ht⟩, (List.append_nil _).symm⟩, rfl⟩

/-! #### What is too short for a tuple -/

/-- Whatever a tuple has so far, it can be completed. -/
theorem exists_tuple_word (f : TupleFields) :
    ∃ w f', LoopWord TupleRound f w f' ∧ ∃ t, f'.tuple = .ok t := by
  have hworkgroup : TupleRound f [.name "workgroup", .string ""]
      (.inl { f with workgroup := some "" }) := .workgroup rfl
  have husername : TupleRound { f with workgroup := some "" } [.name "username", .string ""]
      (.inl { f with workgroup := some "", username := some "" }) := .username rfl
  have hpassword : TupleRound { f with workgroup := some "", username := some "" }
      [.name "password", .string ""]
      (.inl ⟨some "", some "", some "", f.mounted⟩) := .password rfl
  exact ⟨_, _, .more hworkgroup (.more husername (.more hpassword (.stop .close))), _, rfl⟩

/-- A member that breaks off is one that can be gone on with. -/
theorem viable_tupleMember (f : TupleFields) (key : String) :
    Viable EndsText (fun w x => ∃ f', x = .inl f' ∧ TupleRound f (.name key :: w) x)
      (tupleMember f key) := by
  unfold tupleMember
  split_ifs with h₁ h₂ h₃ h₄
  · refine viable_member (fun s => { f with workgroup := some s }) viable_nextString ?_
    rintro w s ⟨v, hv, rfl⟩
    exact h₁ ▸ .workgroup hv
  · refine viable_member (fun s => { f with username := some s }) viable_nextString ?_
    rintro w s ⟨v, hv, rfl⟩
    exact h₂ ▸ .username hv
  · refine viable_member (fun s => { f with password := some s }) viable_nextString ?_
    rintro w s ⟨v, hv, rfl⟩
    exact h₃ ▸ .password hv
  · refine viable_member (fun b => { f with mounted := b }) viable_nextBoolean ?_
    rintro w b ⟨v, hv, rfl⟩
    obtain rfl := bool_eq_some_iff.mp hv
    exact h₄ ▸ .mount
  · exact viable_ok

theorem not_endsText_tuple {f : TupleFields} {e : Exn} (h : f.tuple = .error e) :
    ¬ EndsText e := by
  unfold TupleFields.tuple ShareTuple.new at h
  split at h
  · cases h
    exact Bool.false_ne_true
  · split at h
    · cases h
      exact Bool.false_ne_true
    · split at h
      · cases h
        exact Bool.false_ne_true
      · cases h

theorem viable_tupleObject :
    Viable EndsText (fun w t => TupleWord (.beginObject :: w) t) tupleObject := by
  have hloop := viable_memberLoop memberWords_tupleRound (fun _ _ => reads_tupleMember)
    viable_tupleMember exists_tuple_word {}
  refine hloop.bind_ofExcept (fun _ _ hf => not_endsText_tuple hf) ?_
  rintro w f ⟨hw, t, ht⟩
  exact ⟨t, .object hw ht⟩

/-- **What is too short for a tuple** begins one. -/
theorem viable_decodeTuple : Viable EndsText TupleWord decodeTuple := by
  intro ts e he hended
  rcases ts with _ | ⟨t, ts⟩
  · exact ⟨_, _, .null, List.nil_prefix⟩
  · cases t with
    | null => cases he
    | beginObject =>
      rw [decodeTuple_eq] at he
      obtain ⟨w, t, hw, hp⟩ := viable_tupleObject ts e he hended
      exact ⟨.beginObject :: w, t, hw, List.cons_prefix_cons.mpr ⟨rfl, hp⟩⟩
    | _ =>
      cases he
      exact absurd hended (not_endsText_wrongToken _)

/-! ### The entry -/

theorem entryRound_iff {s : EntryFields} {x : EntryFields ⊕ EntryFields} :
    EntryRound s w x ↔
      (∃ u, (∃ v : JsonToken, v.text = some u ∧ w = [.name "uri", v]) ∧
        x = .inl (some u, s.2)) ∨
      (∃ t, (∃ w', TupleWord w' t ∧ w = .name "credentialTuple" :: w') ∧
        x = .inl (s.1, some t)) ∨
      (∃ key, key ∉ ["uri", "credentialTuple"] ∧ w = [.name key] ∧ x = .inl s) ∨
      w = [.endObject] ∧ x = .inr s := by
  constructor
  · intro h
    cases h with
    | uri hv => exact .inl ⟨_, ⟨_, hv, rfl⟩, rfl⟩
    | credentialTuple hw => exact .inr (.inl ⟨_, ⟨_, hw, rfl⟩, rfl⟩)
    | unknown hkey => exact .inr (.inr (.inl ⟨_, hkey, rfl, rfl⟩))
    | close => exact .inr (.inr (.inr ⟨rfl, rfl⟩))
  · rintro (⟨u, ⟨v, hv, rfl⟩, rfl⟩ | ⟨t, ⟨w', hw, rfl⟩, rfl⟩ | ⟨key, hkey, rfl, rfl⟩ | ⟨rfl, rfl⟩)
    · exact .uri hv
    · exact .credentialTuple hw
    · exact .unknown hkey
    · exact .close

theorem memberWords_entryRound : MemberWords EntryRound := by
  intro s w x
  constructor
  · intro h
    cases h with
    | close => exact .inr ⟨rfl, rfl⟩
    | uri hv => exact .inl ⟨_, _, rfl, .uri hv⟩
    | credentialTuple hw => exact .inl ⟨_, _, rfl, .credentialTuple hw⟩
    | unknown hkey => exact .inl ⟨_, _, rfl, .unknown hkey⟩
  · rintro (⟨key, w', rfl, h⟩ | ⟨rfl, rfl⟩)
    · exact h
    · exact .close

/-- The value of a member of the entry. -/
def entryMember (s : EntryFields) (key : String) (ts : List JsonToken) :
    Except Exn ((EntryFields ⊕ EntryFields) × List JsonToken) :=
  if key = "uri" then nextString ts >>= fun p => .ok (.inl (some p.1, s.2), p.2)
  else if key = "credentialTuple" then decodeTuple ts >>= fun p => .ok (.inl (s.1, some p.1), p.2)
  else .ok (.inl s, ts)

theorem reads_entryMember {s : EntryFields} {key : String} :
    Reads EndsText (fun w x => EntryRound s (.name key :: w) x) Prod.mk (entryMember s key) := by
  unfold entryMember
  split_ifs with h₁ h₂
  · refine (reads_nextString.map fun u => Sum.inl (some u, s.2)).congr fun w x => ?_
    simp [Token, entryRound_iff, h₁]
  · refine (reads_decodeTuple.map fun t => Sum.inl (s.1, some t)).congr fun w x => ?_
    simp [entryRound_iff, h₂]
  · refine (reads_ok (Sum.inl s)).congr fun w x => ?_
    simp [Only, entryRound_iff, h₁, h₂]

theorem viable_entryMember (s : EntryFields) (key : String) :
    Viable EndsText (fun w x => ∃ s', x = .inl s' ∧ EntryRound s (.name key :: w) x)
      (entryMember s key) := by
  unfold entryMember
  split_ifs with h₁ h₂
  · refine viable_member (fun u => (some u, s.2)) viable_nextString ?_
    rintro w u ⟨v, hv, rfl⟩
    exact h₁ ▸ .uri hv
  · refine viable_member (fun t => (s.1, some t)) viable_decodeTuple fun w t hw => ?_
    exact h₂ ▸ .credentialTuple hw
  · exact viable_ok

/-- Whatever an entry has so far, it can be completed. -/
theorem exists_entry_word (s : EntryFields) :
    ∃ w s', LoopWord EntryRound s w s' ∧ ∃ u t, s' = (some u, some t) := by
  have huri : EntryRound s [.name "uri", .string ""] (.inl (some "", s.2)) := .uri rfl
  have htuple : EntryRound (some "", s.2) [.name "credentialTuple", .null]
      (.inl (some "", some .emptyTuple)) := .credentialTuple .null
  exact ⟨_, _, .more huri (.more htuple (.stop .close)), _, _, rfl⟩

theorem decodeMembers_eq_loop {n : ℕ} {s : EntryFields} : decodeMembers n s.1 s.2 ts =
    (loop endOfText (memberRound entryMember) n s ts).map Prod.fst := by
  induction n generalizing s ts with
  | zero => rfl
  | succ n ih =>
    rcases ts with _ | ⟨t, ts⟩
    · rfl
    · cases t with
      | name key =>
        rw [decodeMembers, loop]
        simp only [memberRound, nextHead, JsonToken.head, entryMember, bind, Except.bind]
        split_ifs with h₁ h₂
        · cases nextString ts with
          | ok p => exact ih (s := (some p.1, s.2))
          | error e => rfl
        · cases decodeTuple ts with
          | ok p => exact ih (s := (s.1, some p.1))
          | error e => rfl
        · exact ih
      | _ => rfl

/-- What the members of an entry make up. -/
def entryOf : EntryFields → Except Exn (String × ShareTuple)
  | (some uri, some tuple) => .ok (uri, tuple)
  | _ => .error ⟨.illegalState, "Either uri or tuple is null."⟩

theorem entryOf_eq_ok {s : EntryFields} {p : String × ShareTuple} :
    entryOf s = .ok p ↔ s = (some p.1, some p.2) := by
  obtain ⟨_ | u, _ | t⟩ := s
  all_goals simp [entryOf, Prod.ext_iff]

theorem not_endsText_entryOf {s : EntryFields} {e : Exn} (h : entryOf s = .error e) :
    ¬ EndsText e := by
  unfold entryOf at h
  split at h
  · cases h
  · cases h
    exact Bool.false_ne_true

/-- The beginning of an object. -/
def JsonToken.begins : JsonToken → Option Unit
  | .beginObject => some ()
  | _ => none

def nextBegin : List JsonToken → Except Exn (Unit × List JsonToken)
  | [] => .error endOfText
  | t :: ts =>
    match t.begins with
    | some u => .ok (u, ts)
    | none => .error (wrongToken "BEGIN_OBJECT")

theorem reads_nextBegin : Reads EndsText (Token JsonToken.begins) Prod.mk nextBegin :=
  reads_token (wrongToken "BEGIN_OBJECT") endsText_endOfText rfl fun t _ => by
    cases t <;> rfl

/-- The members of an entry and what they make up. -/
def entryObject (ts : List JsonToken) : Except Exn (String × ShareTuple) :=
  loopAll endOfText (memberRound entryMember) (none, none) ts >>= fun p =>
    (entryOf p.1).map fun q => q

theorem decodeObject_eq : decodeObject ts = nextBegin ts >>= fun p => entryObject p.2 := by
  rcases ts with _ | ⟨t, ts⟩
  · rfl
  · cases t with
    | beginObject =>
      change (decodeMembers (ts.length + 1) none none ts >>= fun s => _) =
        loopAll endOfText (memberRound entryMember) (none, none) ts >>= _
      rw [decodeMembers_eq_loop (s := (none, none)), loopAll]
      cases loop endOfText (memberRound entryMember) (ts.length + 1) (none, none) ts with
      | error e => rfl
      | ok p =>
        obtain ⟨⟨_ | u, _ | t⟩, rest⟩ := p
        all_goals rfl
    | _ => rfl

/-- **`decode` reads the words of an entry**, and whatever follows. -/
theorem reads_decodeObject : Reads EndsText EntryWord (fun p _ => p) decodeObject := by
  have hobject : Reads EndsText (Then (LoopWord EntryRound (none, none)) fun s w p => w = [] ∧
      entryOf s = .ok p) (fun p _ => p) entryObject :=
    (reads_loop memberWords_entryRound.progress
      (reads_memberRound memberWords_entryRound fun _ _ => reads_entryMember) (none, none)).bind
      fun s => reads_ofExcept (entryOf s) fun p _ => p
  rw [show decodeObject = _ from funext fun ts => decodeObject_eq]
  refine (reads_nextBegin.bind fun _ => hobject).congr fun w p => ?_
  constructor
  · rintro ⟨w₁, u, w₂, ⟨token, htoken, rfl⟩, ⟨w₃, s, w₄, hw₃, ⟨rfl, hs⟩, rfl⟩, rfl⟩
    cases token <;> cases htoken
    obtain rfl := entryOf_eq_ok.mp hs
    rw [List.append_nil]
    exact .object hw₃
  · intro h
    cases h with
    | object hw =>
      exact ⟨[.beginObject], (), _, ⟨_, rfl, rfl⟩,
        ⟨_, _, [], hw, ⟨rfl, rfl⟩, (List.append_nil _).symm⟩, rfl⟩

theorem viable_entryObject :
    Viable EndsText (fun w p => EntryWord (.beginObject :: w) p) entryObject := by
  have hloop := viable_memberLoop memberWords_entryRound (fun _ _ => reads_entryMember)
    viable_entryMember exists_entry_word (none, none)
  refine hloop.bind_ofExcept (k := fun p _ => p) (fun _ _ hs => not_endsText_entryOf hs) ?_
  rintro w s ⟨hw, u, t, rfl⟩
  exact ⟨(u, t), .object hw⟩

/-- **What is too short for an entry** begins one. -/
theorem viable_decodeObject : Viable EndsText EntryWord decodeObject := by
  intro ts e he hended
  rcases ts with _ | ⟨t, ts⟩
  · obtain ⟨w, s, hw, u, t, rfl⟩ := exists_entry_word (none, none)
    exact ⟨_, _, .object hw, List.nil_prefix⟩
  · cases t with
    | beginObject =>
      rw [decodeObject_eq] at he
      obtain ⟨w, p, hw, hp⟩ := viable_entryObject ts e he hended
      exact ⟨.beginObject :: w, p, hw, List.cons_prefix_cons.mpr ⟨rfl, hp⟩⟩
    | _ =>
      cases he
      exact absurd hended (not_endsText_wrongToken _)

end SambaProvider

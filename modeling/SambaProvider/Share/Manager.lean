import Mathlib.Data.Finset.Basic
import Mathlib.Data.List.AList
import SambaProvider.Share.Json

/-!
# The share manager

`ShareManager.java` over the credential cache it fills. The saved shares
live in four places: the persisted set of strings, its copy in memory,
the map from URI to the string saved for it, and the set of mounted
URIs; the credentials are in the native cache. The state keeps all of
them, and the outcome of the mount checker is an argument of a save.
-/

namespace SambaProvider

/-! ## The credential cache -/

/-- `CredentialTuple` of the native side. -/
structure CredentialTuple where
  workgroup : String
  username : String
  password : String
deriving DecidableEq, Repr

/-- `emptyTuple_`. -/
def CredentialTuple.empty : CredentialTuple := ⟨"", "", ""⟩

/-- The native map from key to credentials. -/
abbrev CredentialCache := String → Option CredentialTuple

namespace CredentialCache

/-- `CredentialCache::get`: a key that is not there has the empty tuple. -/
def get (c : CredentialCache) (key : String) : CredentialTuple := (c key).getD .empty

/-- `CredentialCache::put`. -/
def put (c : CredentialCache) (key : String) (t : CredentialTuple) : CredentialCache :=
  Function.update c key (some t)

/-- `CredentialCache::remove`. -/
def remove (c : CredentialCache) (key : String) : CredentialCache :=
  Function.update c key none

@[simp] theorem get_put_self (c : CredentialCache) (key : String) (t : CredentialTuple) :
    (c.put key t).get key = t := by simp [get, put]

theorem get_put_ne {key key' : String} (h : key' ≠ key) (c : CredentialCache)
    (t : CredentialTuple) : (c.put key t).get key' = c.get key' := by simp [get, put, h]

end CredentialCache

/-! ## The tuple of a share -/

/-- `ShareTuple`. The code tells `EMPTY_TUPLE` from an equal tuple by
identity, so it is a constructor of its own. -/
inductive ShareTuple
  | emptyTuple
  | tuple (workgroup username password : String) (isMounted : Bool)
deriving DecidableEq, Repr

namespace ShareTuple

def workgroup : ShareTuple → String
  | emptyTuple => ""
  | tuple w _ _ _ => w

def username : ShareTuple → String
  | emptyTuple => ""
  | tuple _ u _ _ => u

def password : ShareTuple → String
  | emptyTuple => ""
  | tuple _ _ p _ => p

/-- `EMPTY_TUPLE` carries the mount flag `true`. -/
def isMounted : ShareTuple → Bool
  | emptyTuple => true
  | tuple _ _ _ m => m

def credential (t : ShareTuple) : CredentialTuple := ⟨t.workgroup, t.username, t.password⟩

/-- The constructor, which refuses a `null` part. -/
def new (workgroup username password : Option String) (isMounted : Bool) :
    Except Exn ShareTuple :=
  match workgroup with
  | none => .error ⟨.illegalArgument, "workgroup is null."⟩
  | some w =>
    match username with
    | none => .error ⟨.illegalArgument, "username is null."⟩
    | some u =>
      match password with
      | none => .error ⟨.illegalArgument, "password is null."⟩
      | some p => .ok (tuple w u p isMounted)

end ShareTuple

/-! ## Encoding and decoding -/

/-- `encodeTuple`. -/
def encodeTuple : ShareTuple → List JsonToken
  | .emptyTuple => [.null]
  | .tuple w u p m =>
    [.beginObject, .name "workgroup", .string w, .name "username", .string u,
      .name "password", .string p, .name "mount", .boolean m, .endObject]

/-- The tokens `encode` writes. -/
def encodeTokens (uri : String) (tuple : ShareTuple) : List JsonToken :=
  [.beginObject, .name "uri", .string uri, .name "credentialTuple"] ++ encodeTuple tuple ++
    [.endObject]

/-- **A JSON writer and reader**, with the one law the share manager relies
on: the reader reads back what it has written. `tokens` of a malformed text
is what the reader hands out before it raises an `IOException`. -/
structure JsonText where
  /-- The text `JsonWriter` produces for the tokens. -/
  write : List JsonToken → String
  /-- The tokens `JsonReader` hands out for the text. -/
  tokens : String → List JsonToken
  tokens_write : ∀ uri tuple, tokens (write (encodeTokens uri tuple)) = encodeTokens uri tuple

namespace JsonText

/-- **The compact format**, and the scanner for it. -/
def compact : JsonText where
  write := text
  tokens := scanText
  tokens_write uri tuple := by
    refine scanText_text ?_
    cases tuple <;> simp [encodeTokens, encodeTuple, JsonToken.written]

end JsonText

section Json

variable (J : JsonText)

/-- `encode`. Writing to a `StringWriter` raises no `IOException`, so the
`null` result of the source does not occur. -/
def encode (uri : String) (tuple : ShareTuple) : String := J.write (encodeTokens uri tuple)

/-- The reader is at the end of the text, or of its well-formed part. -/
def endOfText : Exn := ⟨.ioException, "End of input"⟩

/-- The reader has a token of another kind. -/
def wrongToken (expected : String) : Exn := ⟨.illegalState, "Expected " ++ expected⟩

/-- `JsonReader.nextString`, which also takes a number. -/
def nextString : List JsonToken → Except Exn (String × List JsonToken)
  | [] => .error endOfText
  | .string s :: ts | .number s :: ts => .ok (s, ts)
  | _ :: _ => .error (wrongToken "a string")

/-- `JsonReader.nextBoolean`. -/
def nextBoolean : List JsonToken → Except Exn (Bool × List JsonToken)
  | [] => .error endOfText
  | .boolean b :: ts => .ok (b, ts)
  | _ :: _ => .error (wrongToken "a boolean")

/-- `JsonReader.beginObject`. -/
def beginObject : List JsonToken → Except Exn (List JsonToken)
  | [] => .error endOfText
  | .beginObject :: ts => .ok ts
  | _ :: _ => .error (wrongToken "BEGIN_OBJECT")

/-- The local variables of `decodeTuple`. -/
structure TupleFields where
  workgroup : Option String := none
  username : Option String := none
  password : Option String := none
  mounted : Bool := true

/-- The member loop of `decodeTuple`. Every round reads a name, so the
number of tokens bounds the rounds. The value of an unknown key is not
skipped, and the next round meets it where it asks for a name. -/
def decodeTupleMembers :
    ℕ → TupleFields → List JsonToken → Except Exn (TupleFields × List JsonToken)
  | 0, _, _ | _ + 1, _, [] => .error endOfText
  | _ + 1, f, .endObject :: ts => .ok (f, ts)
  | n + 1, f, .name name :: ts =>
    if name = "workgroup" then do
      let (s, ts) ← nextString ts
      decodeTupleMembers n { f with workgroup := some s } ts
    else if name = "username" then do
      let (s, ts) ← nextString ts
      decodeTupleMembers n { f with username := some s } ts
    else if name = "password" then do
      let (s, ts) ← nextString ts
      decodeTupleMembers n { f with password := some s } ts
    else if name = "mount" then do
      -- the case falls through to the default, which only logs
      let (b, ts) ← nextBoolean ts
      decodeTupleMembers n { f with mounted := b } ts
    else decodeTupleMembers n f ts
  | _ + 1, _, _ :: _ => .error (wrongToken "a name")

/-- `decodeTuple`. -/
def decodeTuple : List JsonToken → Except Exn (ShareTuple × List JsonToken)
  | [] => .error endOfText
  | .null :: ts => .ok (.emptyTuple, ts)
  | ts => do
    let ts ← beginObject ts
    let (f, ts) ← decodeTupleMembers (ts.length + 1) {} ts
    let t ← ShareTuple.new f.workgroup f.username f.password f.mounted
    pure (t, ts)

/-- The member loop of `decode`. -/
def decodeMembers :
    ℕ → Option String → Option ShareTuple → List JsonToken →
      Except Exn (Option String × Option ShareTuple)
  | 0, _, _, _ | _ + 1, _, _, [] => .error endOfText
  | _ + 1, uri, tuple, .endObject :: _ => .ok (uri, tuple)
  | n + 1, uri, tuple, .name name :: ts =>
    if name = "uri" then do
      let (s, ts) ← nextString ts
      decodeMembers n (some s) tuple ts
    else if name = "credentialTuple" then do
      let (t, ts) ← decodeTuple ts
      decodeMembers n uri (some t) ts
    else decodeMembers n uri tuple ts
  | _ + 1, _, _, _ :: _ => .error (wrongToken "a name")

/-- The body of `decode`'s `try`. -/
def decodeObject (ts : List JsonToken) : Except Exn (String × ShareTuple) := do
  let ts ← beginObject ts
  match ← decodeMembers (ts.length + 1) none none ts with
  | (some uri, some tuple) => .ok (uri, tuple)
  | _ => .error ⟨.illegalState, "Either uri or tuple is null."⟩

/-- `decode`: the URI and the tuple it puts into the map, or nothing
after an `IOException`. Other exceptions leave it. -/
def decode (content : String) : Except Exn (Option (String × ShareTuple)) :=
  match decodeObject (J.tokens content) with
  | .ok p => .ok (some p)
  | .error e => if e.isIOException then .ok none else .error e

/-- `decode` inverts `encode`. -/
@[simp] theorem decode_encode (uri : String) (tuple : ShareTuple) :
    decode J (encode J uri tuple) = .ok (some (uri, tuple)) := by
  rw [decode, encode, J.tokens_write]
  cases tuple <;> rfl

/-- The saved string determines the URI and the tuple. -/
theorem encode_inj {uri uri' : String} {t t' : ShareTuple}
    (h : encode J uri t = encode J uri' t') : uri = uri' ∧ t = t' := by
  have hd := decode_encode J uri t
  rw [h, decode_encode] at hd
  simpa [eq_comm] using hd

end Json

/-! ## The manager -/

/-- The state of the manager, of the preference it persists to and of the
credential cache; `notified` counts the listener rounds. -/
structure ShareManager where
  serverStringSet : Finset String
  mountedServerSet : Finset String
  serverStringMap : AList fun _ : String => String
  pref : Finset String
  credentialCache : CredentialCache
  notified : ℕ

/-- The arguments of a save; `checker` is what the mount checker throws. -/
structure SaveArgs where
  uri : String
  workgroup : String
  username : String
  password : String
  checker : Option Exn
  mount : Bool

/-- Both the user name and the password are given. -/
def SaveArgs.hasPassword (a : SaveArgs) : Bool := a.username != "" && a.password != ""

/-- The tuple `saveServerInfo` stores. -/
def SaveArgs.tuple (a : SaveArgs) : ShareTuple :=
  if a.hasPassword then .tuple a.workgroup a.username a.password a.mount else .emptyTuple

namespace ShareManager

variable (J : JsonText)

def containsShare (m : ShareManager) (uri : String) : Bool := (m.serverStringMap.lookup uri).isSome

def isShareMounted (m : ShareManager) (uri : String) : Bool := uri ∈ m.mountedServerSet

/-- `iterator`: the keys of the map. -/
def iterator (m : ShareManager) : List String := m.serverStringMap.keys

/-- `updateServersData`. -/
def updateServersData (m : ShareManager) (uri : String) (tuple : ShareTuple)
    (shouldNotify : Bool) : ShareManager :=
  let serverString := encode J uri tuple
  let set := insert serverString m.serverStringSet
  { m with
    serverStringSet := set
    mountedServerSet :=
      if tuple.isMounted then insert uri m.mountedServerSet else m.mountedServerSet.erase uri
    pref := set
    serverStringMap := m.serverStringMap.insert uri serverString
    notified := if shouldNotify then m.notified + 1 else m.notified }

/-- `checkServerCredentials` with `runMountChecker`: the credentials go in
before the check, and out again when it fails. -/
def checkServerCredentials (m : ShareManager) (a : SaveArgs) : Except Exn Unit × ShareManager :=
  let cache :=
    if a.hasPassword then m.credentialCache.put a.uri ⟨a.workgroup, a.username, a.password⟩
    else m.credentialCache
  match a.checker with
  | none => (.ok (), { m with credentialCache := cache })
  | some e => (.error e, { m with credentialCache := cache.remove a.uri })

/-- `saveServerInfo`. -/
def saveServerInfo (m : ShareManager) (a : SaveArgs) : Except Exn Unit × ShareManager :=
  match m.checkServerCredentials a with
  | (.ok (), m') => (.ok (), m'.updateServersData J a.uri a.tuple a.mount)
  | (.error e, m') => (.error e, m')

/-- `addServer`. -/
def addServer (m : ShareManager) (a : SaveArgs) : Except Exn Unit × ShareManager :=
  if m.isShareMounted a.uri then
    (.error ⟨.illegalState, "Uri " ++ a.uri ++ " is already stored."⟩, m)
  else m.saveServerInfo J a

/-- `addOrUpdateServer`. -/
def addOrUpdateServer (m : ShareManager) (a : SaveArgs) : Except Exn Unit × ShareManager :=
  m.saveServerInfo J a

/-- `unmountServer`. -/
def unmountServer (m : ShareManager) (uri : String) : Bool × ShareManager :=
  match m.serverStringMap.lookup uri with
  | none => (true, m)
  | some serverString =>
    if serverString ∈ m.serverStringSet then
      let set := m.serverStringSet.erase serverString
      (true,
        { m with
          serverStringSet := set
          serverStringMap := m.serverStringMap.erase uri
          mountedServerSet := m.mountedServerSet.erase uri
          pref := set
          credentialCache := m.credentialCache.remove uri
          notified := m.notified + 1 })
    else (false, m)

/-! ### The constructor -/

/-- The two maps the loading loop fills. -/
structure Loaded where
  serverStringMap : AList fun _ : String => String := ∅
  shareMap : AList fun _ : String => ShareTuple := ∅

/-- One round of the loading loop. -/
def loadServer (l : Loaded) (serverString : String) : Except Exn Loaded :=
  match decode J serverString with
  | .ok (some (uri, tuple)) =>
    .ok ⟨l.serverStringMap.insert uri serverString, l.shareMap.insert uri tuple⟩
  | .ok none => .ok l
  | .error e => .error e

/-- The loading loop over the strings in the order the set hands them
out. -/
def loadServers : Loaded → List String → Except Exn Loaded
  | l, [] => .ok l
  | l, s :: ss => match loadServer J l s with
    | .ok l' => loadServers l' ss
    | .error e => .error e

/-- The second loop: the mounted set. -/
def loadMounted (shareMap : AList fun _ : String => ShareTuple) : Finset String :=
  ((shareMap.entries.filter fun e => e.2.isMounted).map Sigma.fst).toFinset

/-- The second loop: the credentials. -/
def loadCredentials (cache : CredentialCache) (shareMap : AList fun _ : String => ShareTuple) :
    CredentialCache :=
  shareMap.entries.foldl (fun c e => c.put e.1 e.2.credential) cache

/-- The constructor, on the strings of the preference in the order the set
hands them out. No string is left for `encryptServers`, which only writes
the set back. -/
def new (order : List String) (cache : CredentialCache) : Except Exn ShareManager :=
  match loadServers J {} order with
  | .error e => .error e
  | .ok l => .ok
    { serverStringSet := order.toFinset
      mountedServerSet := loadMounted l.shareMap
      serverStringMap := l.serverStringMap
      pref := order.toFinset
      credentialCache := loadCredentials cache l.shareMap
      notified := 0 }

end ShareManager

/-! ## Calls -/

/-- The calls that change the manager. -/
inductive ShareOp
  | addServer (a : SaveArgs)
  | addOrUpdateServer (a : SaveArgs)
  | unmountServer (uri : String)

/-- What a call returns. -/
inductive ShareOutcome
  | saved
  | threw (e : Exn)
  | unmounted (b : Bool)
deriving DecidableEq

/-- The outcome of a save. -/
def ShareOutcome.ofSave : Except Exn Unit → ShareOutcome
  | .ok _ => .saved
  | .error e => .threw e

/-- One call. -/
def ShareManager.call (J : JsonText) (m : ShareManager) : ShareOp → ShareOutcome × ShareManager
  | .addServer a => let r := m.addServer J a; (.ofSave r.1, r.2)
  | .addOrUpdateServer a => let r := m.addOrUpdateServer J a; (.ofSave r.1, r.2)
  | .unmountServer uri => let r := m.unmountServer uri; (.unmounted r.1, r.2)

end SambaProvider

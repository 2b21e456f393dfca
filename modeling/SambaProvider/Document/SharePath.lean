import SambaProvider.Base.Exn
import SambaProvider.Document.Identity

/-!
# The path of a share

`UrlUtils.parseSharePath`, which reads what the user has typed in as a
Windows path or as an SMB URI. The host and the share it returns are
decoded; the URI of the share encodes the host again and takes the share
as it is.
-/

namespace SambaProvider

open Lib

/-! ## Splitting -/

/-- `split` at a character: trailing empty pieces are dropped, unless
there is nothing to split at. -/
def split (text : List Char) (at' : Char) : List (List Char) :=
  if at' ∈ text then ((text.splitOn at').reverse.dropWhile List.isEmpty).reverse else [text]

/-- `substring`. -/
def substring (text : List Char) (start stop : ℕ) : Except Exn (List Char) :=
  if start ≤ stop ∧ stop ≤ text.length then .ok ((text.take stop).drop start)
  else .error ⟨.indexOutOfBounds, ""⟩

/-! ## Parsing a URI -/

/-- The text of a URI behind its scheme. -/
def schemeSpecificPart (text : List Char) : List Char :=
  if ':' ∈ text then (text.dropWhile (· ≠ ':')).tail else text

/-- The text behind a leading `//`, if there is one. -/
def behindSlashes : List Char → Option (List Char)
  | '/' :: '/' :: rest => some rest
  | _ => none

/-- `Uri.parse(text).getAuthority()`. -/
def parseAuthority (text : List Char) : Option String :=
  (behindSlashes (schemeSpecificPart text)).map fun rest =>
    Percent.decode (String.ofList (rest.takeWhile fun c => c ≠ '/' ∧ c ≠ '?' ∧ c ≠ '#'))

/-- `Uri.parse(text).getPathSegments()`, of a URI with an authority. -/
def parsePathSegments (text : List Char) : List String :=
  let rest := (behindSlashes (schemeSpecificPart text)).getD []
  let path := (rest.dropWhile fun c => c ≠ '/' ∧ c ≠ '?' ∧ c ≠ '#').takeWhile fun c =>
    c ≠ '?' ∧ c ≠ '#'
  ((path.splitOn '/').filter (· ≠ [])).map fun piece => Percent.decode (String.ofList piece)

/-- `parseSharePath`: the host and the share, or `null`. -/
def parseSharePath (path : String) : Except Exn (Option (String × String)) :=
  let text := path.toList
  if text.head? = some '\\' then
    -- Possibly Windows share path.
    if text.length = 1 then .ok none
    else do
      let endCharacter := if text.getLast? = some '\\' then text.length - 1 else text.length
      match split (← substring text 2 endCharacter) '\\' with
      | [host, share] => return some (String.ofList host, String.ofList share)
      | _ => return none
  else
    -- Try SMB URI.
    match parseAuthority text with
    | none => .ok none
    | some host =>
      if host = "" then .ok none
      else
        match parsePathSegments text with
        | [share] => .ok (some (host, share))
        | _ => .ok none

example : parseSharePath "\\\\nas\\media\\" = .ok (some ("nas", "media")) := by decide

example : parseSharePath "smb://nas/my%20media" = .ok (some ("nas", "my media")) := by decide

end SambaProvider

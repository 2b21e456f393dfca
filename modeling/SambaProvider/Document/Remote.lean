import SambaProvider.Document.World

/-!
# A server with other clients

The server while one document is deleted: a finite set of documents, from
which other clients may remove some before every call. A call that names
a document throws `FileNotFoundException` exactly if the document is not
there, and a directory is removed only when it is empty; what a directory
lists is what it has when it is opened.

The server notes when a call finds another document missing than the one
to be deleted, while that one is there.
-/

namespace SambaProvider

open Lib DocumentMetadata

/-- Where a document is on the server: its authority and its segments. -/
abbrev Place := Option String × List String

def Uri.place (u : Uri) : Place := (u.getAuthority, u.getPathSegments)

/-- `p` is a document directly in the directory. -/
def InDirectory (dir p : Place) : Prop := p.1 = dir.1 ∧ p.2 ≠ [] ∧ p.2.dropLast = dir.2

instance (dir p : Place) : Decidable (InDirectory dir p) :=
  inferInstanceAs (Decidable (_ ∧ _ ∧ _))

/-- The documents on the server, the directories opened and what each has
still to list; `missed` is the note. -/
structure Remote where
  docs : List Place
  opened : SmbDir
  pending : SmbDir → List DirectoryEntry
  missed : Bool

/-- The document a call names. -/
def SmbCall.target : SmbCall → Option Place
  | .stat u | .openDir u | .unlink u | .rmdir u => some u.place
  | _ => none

namespace Remote

/-- The server before the first call. -/
def start (docs : List Place) : Remote := ⟨docs, 0, fun _ => [], false⟩

def withDocs (s : Remote) (docs : List Place) : Remote := { s with docs := docs }

/-- The server without a document. -/
def erase (s : Remote) (p : Place) : Remote := s.withDocs (s.docs.filter (· ≠ p))

/-- The note is taken if the document is not the one to be deleted, and
that one is there. -/
def note (s : Remote) (d p : Place) : Remote :=
  { s with missed := s.missed || decide (p ≠ d ∧ d ∈ s.docs) }

variable (isDir : Place → Bool) (d : Place)

/-- The entry of a document in the listing of its directory. -/
def entryOf (dir p : Place) : Option DirectoryEntry :=
  if InDirectory dir p ∧ p.2.getLast? ≠ some "" then
    some ⟨if isDir p then .dir else .file, "", p.2.getLast?⟩
  else none

/-- The listing of a directory, with the entries for itself and for its
parent. -/
def entries (docs : List Place) (dir : Place) : List DirectoryEntry :=
  [⟨.dir, "", some "."⟩, ⟨.dir, "", some ".."⟩] ++ docs.filterMap (entryOf isDir dir)

/-- A call that throws: `FileNotFoundException` if its document is
missing, another exception else. -/
def Throws (c : SmbCall) (s : Remote) (x : Exn) (t : Remote) : Prop :=
  (∃ p, c.target = some p ∧ p ∉ s.docs ∧ x.isFileNotFound = true ∧ t = s.note d p) ∨
    ((∀ p, c.target = some p → p ∈ s.docs) ∧ x.isFileNotFound = false ∧ t = s)

/-- A call that returns. -/
def Returns : (c : SmbCall) → Remote → c.Value → Remote → Prop
  | .stat u, s, stat, t => u.place ∈ s.docs ∧ stat.isDir = isDir u.place ∧ t = s
  | .openDir u, s, dir, t =>
    u.place ∈ s.docs ∧ isDir u.place ∧ dir = s.opened ∧
      t = { s with
        opened := s.opened + 1
        pending := Function.update s.pending s.opened (entries isDir s.docs u.place) }
  | .readDir dir, s, entry, t =>
    entry = (s.pending dir).head? ∧
      t = { s with pending := Function.update s.pending dir (s.pending dir).tail }
  | .closeDir _, s, _, t => t = s
  | .unlink u, s, _, t => u.place ∈ s.docs ∧ isDir u.place = false ∧ t = s.erase u.place
  | .rmdir u, s, _, t =>
    u.place ∈ s.docs ∧ isDir u.place ∧ (∀ p ∈ s.docs, ¬ InDirectory u.place p) ∧
      t = s.erase u.place
  -- No document is made or renamed while one is deleted.
  | .createFile _, _, _, _ | .mkdir _, _, _, _ | .rename _ _, _, _, _ => False

/-- A call is answered. -/
def Serves : Service Remote := fun c s a t =>
  match a with
  | .error x => Throws d c s x t
  | .ok v => Returns isDir c s v t

/-- Other clients remove documents, then a call is answered. -/
def Answers : Service Remote := fun c s a t =>
  ∃ docs, docs.Sublist s.docs ∧ Serves isDir d c (s.withDocs docs) a t

/-- A call for a document answers `v` if the document is there. -/
def found {α : Type} (s : Remote) (p : Place) (v : Except Exn α × Remote) :
    Except Exn α × Remote :=
  if p ∈ s.docs then v else (.error ⟨.fileNotFound, ""⟩, s.note d p)

def refused {α : Type} (s : Remote) : Except Exn α × Remote := (.error ⟨.ioException, ""⟩, s)

/-- The server as it answers when nothing fails. -/
def serve : (c : SmbCall) → Remote → Except Exn c.Value × Remote
  | .stat u, s => s.found d u.place (.ok ⟨if isDir u.place then 0o040000 else 0, 0, 0⟩, s)
  | .openDir u, s =>
    s.found d u.place (if isDir u.place then
      (.ok s.opened, { s with
        opened := s.opened + 1
        pending := Function.update s.pending s.opened (entries isDir s.docs u.place) })
      else s.refused)
  | .readDir dir, s =>
    (.ok (s.pending dir).head?,
      { s with pending := Function.update s.pending dir (s.pending dir).tail })
  | .closeDir _, s => (.ok (), s)
  | .unlink u, s =>
    s.found d u.place (if isDir u.place then s.refused else (.ok (), s.erase u.place))
  | .rmdir u, s =>
    s.found d u.place (if isDir u.place ∧ ∀ p ∈ s.docs, ¬ InDirectory u.place p then
      (.ok (), s.erase u.place) else s.refused)
  | .createFile _, s | .mkdir _, s | .rename _ _, s => s.refused

/-- Before the call `c`, other clients remove `gone c`. -/
def answer (gone : SmbCall → List Place) (c : SmbCall) (s : Remote) :
    Except Exn c.Value × Remote :=
  serve isDir d c (s.withDocs (s.docs.filter (· ∉ gone c)))

end Remote

variable {isDir : Place → Bool} {d p dir : Place} {docs : List Place} {u k : Uri}
  {e : DirectoryEntry} {w w' : World Remote} {α : Type}

/-! ## Listings -/

theorem length_entries_le (isDir : Place → Bool) (docs : List Place) (dir : Place) :
    (Remote.entries isDir docs dir).length ≤ docs.length + 2 := by
  have hle := List.length_filterMap_le (Remote.entryOf isDir dir) docs
  simp only [Remote.entries, List.length_append, List.length_cons, List.length_nil]
  omega

/-- **What is listed is there**, one segment below the directory. -/
theorem place_of_mem_entries (he : e ∈ Remote.entries isDir docs u.place)
    (hk : u.buildChildUri e = some k) :
    k.place ∈ docs ∧ k.getPathSegments.length = u.getPathSegments.length + 1 := by
  rcases List.mem_append.mp he with hdots | he
  · -- The entries for the directory itself and its parent have no URI.
    simp only [List.mem_cons, List.not_mem_nil, or_false] at hdots
    rcases hdots with rfl | rfl
    all_goals
      simp [Uri.buildChildUri, Uri.buildNamedChildUri] at hk
  obtain ⟨p, hp, hentry⟩ := List.mem_filterMap.mp he
  unfold Remote.entryOf at hentry
  split at hentry
  · rename_i hin
    obtain ⟨⟨hauth, hne, hdrop⟩, hname⟩ := hin
    obtain rfl := Option.some.inj hentry
    have hlast : p.2.getLast? = some (p.2.getLast hne) := List.getLast?_eq_some_getLast hne
    rw [hlast] at hname hk
    have hnonempty : p.2.getLast hne ≠ "" := fun h => hname (congrArg some h)
    have hsegs : p.2 = u.getPathSegments ++ [p.2.getLast hne] := by
      rw [← show p.2.dropLast = u.getPathSegments from hdrop, List.dropLast_append_getLast]
    have hchild : k = u.appendPath (p.2.getLast hne) := by
      have hnamed : u.buildNamedChildUri (some (p.2.getLast hne)) = some k := by
        cases hdir : isDir p
        all_goals simpa [Uri.buildChildUri, hdir] using hk
      unfold Uri.buildNamedChildUri at hnamed
      split at hnamed
      · cases hnamed
      · exact (Option.some.inj hnamed).symm
    have hksegs : k.getPathSegments = p.2 := by
      rw [hchild, Uri.getPathSegments_appendPath hnonempty, ← hsegs]
    have hkauth : k.getAuthority = p.1 := by
      rw [hchild, Uri.getAuthority_appendPath, hauth]
      rfl
    refine ⟨?_, ?_⟩
    · rwa [show k.place = p from Prod.ext hkauth hksegs]
    · rw [hksegs, hsegs, List.length_append]
      rfl
  · cases hentry

/-! ## Calls -/

/-- **A call** throws or returns, after other clients have removed what
they have. -/
theorem ends_remote_smb {c : SmbCall} {res : Result Exn c.Value}
    (h : (smb c).Ends (Remote.Answers isDir d).Step w res w') :
    w'.store = w.store ∧ ∃ docs, docs.Sublist w.server.docs ∧
      ((∃ x, res = .threw x ∧ Remote.Throws d c (w.server.withDocs docs) x w'.server) ∨
        ∃ a, res = .returned a ∧
          Remote.Returns isDir c (w.server.withDocs docs) a w'.server) := by
  obtain ⟨a, t, ⟨⟨docs, hdocs, hans⟩, hstore⟩, h⟩ := h
  rcases a with x | a
  · obtain ⟨rfl, rfl⟩ := h
    exact ⟨hstore, docs, hdocs, .inl ⟨x, rfl, hans⟩⟩
  · obtain ⟨rfl, rfl⟩ := h
    exact ⟨hstore, docs, hdocs, .inr ⟨a, rfl, hans⟩⟩

theorem serves_serve (c : SmbCall) (t : Remote) :
    Remote.Serves isDir d c t (Remote.serve isDir d c t).1 (Remote.serve isDir d c t).2 := by
  -- A call that is refused, or whose document is missing.
  have hmissing {p : Place} (hc : c.target = some p) (hp : p ∉ t.docs) :
      Remote.Throws d c t ⟨.fileNotFound, ""⟩ (t.note d p) :=
    .inl ⟨p, hc, hp, rfl, rfl⟩
  have hrefused (hc : ∀ p, c.target = some p → p ∈ t.docs) :
      Remote.Throws d c t ⟨.ioException, ""⟩ t := .inr ⟨hc, rfl, rfl⟩
  cases c with
  | stat u =>
    by_cases hp : u.place ∈ t.docs
    · simp only [Remote.serve, Remote.found, if_pos hp]
      refine ⟨hp, ?_, rfl⟩
      cases isDir u.place <;> decide
    · simp only [Remote.serve, Remote.found, if_neg hp]
      exact hmissing rfl hp
  | openDir u =>
    by_cases hp : u.place ∈ t.docs
    · by_cases hdir : isDir u.place
      · simp only [Remote.serve, Remote.found, if_pos hp, if_pos hdir]
        exact ⟨hp, hdir, rfl, rfl⟩
      · simp only [Remote.serve, Remote.found, if_pos hp, if_neg hdir]
        exact hrefused fun p h => Option.some.inj h ▸ hp
    · simp only [Remote.serve, Remote.found, if_neg hp]
      exact hmissing rfl hp
  | readDir dir => exact ⟨rfl, rfl⟩
  | closeDir dir => exact rfl
  | unlink u =>
    by_cases hp : u.place ∈ t.docs
    · by_cases hdir : isDir u.place
      · simp only [Remote.serve, Remote.found, if_pos hp, if_pos hdir]
        exact hrefused fun p h => Option.some.inj h ▸ hp
      · simp only [Remote.serve, Remote.found, if_pos hp, if_neg hdir]
        exact ⟨hp, by simpa using hdir, rfl⟩
    · simp only [Remote.serve, Remote.found, if_neg hp]
      exact hmissing rfl hp
  | rmdir u =>
    by_cases hp : u.place ∈ t.docs
    · by_cases hdir : isDir u.place ∧ ∀ p ∈ t.docs, ¬ InDirectory u.place p
      · simp only [Remote.serve, Remote.found, if_pos hp, if_pos hdir]
        exact ⟨hp, hdir.1, hdir.2, rfl⟩
      · simp only [Remote.serve, Remote.found, if_pos hp, if_neg hdir]
        exact hrefused fun p h => Option.some.inj h ▸ hp
    · simp only [Remote.serve, Remote.found, if_neg hp]
      exact hmissing rfl hp
  | _ => exact hrefused nofun

theorem answers_answer_remote {gone : SmbCall → List Place} (c : SmbCall) (s : Remote) :
    Remote.Answers isDir d c s (Remote.answer isDir d gone c s).1
      (Remote.answer isDir d gone c s).2 :=
  ⟨s.docs.filter (· ∉ gone c), List.filter_sublist, serves_serve c _⟩

end SambaProvider

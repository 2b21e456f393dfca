import Mathlib.Data.List.Induction
import SambaProvider.Document.Deletion
import SambaProvider.Document.Family
import SambaProvider.Document.Reported

/-!
# Deleting a tree

The deletion of a folder on a server that nobody else changes. The server
has a tree of documents: a call it accepts does what it says, unless it
fails, and any call may fail. It notes what it was asked to remove, what
of that it has removed, and whether a call it would have accepted has
failed.
-/

namespace SambaProvider

open Lib DocumentMetadata SambaDocumentsProvider

/-! ## The server -/

/-- A call of `unlink` or `rmdir`, and whether it has removed its
document. -/
structure Removal where
  uri : Uri
  done : Bool

/-- The documents on the server, the directories opened and what each has
still to list, the removals asked for, and whether a call has failed. -/
structure FileServer where
  docs : List Place
  opened : SmbDir
  pending : SmbDir → List DirectoryEntry
  log : List Removal
  failed : Bool

/-- The documents a server has removed. -/
def doneUris (log : List Removal) : List Uri := (log.filter (·.done)).map (·.uri)

def donePlaces (log : List Removal) : List Place := (doneUris log).map Uri.place

/-- What the shares of a server can hold: names are not empty, the
directory of a document is there, and no document is a server, a
workgroup or a share. -/
structure IsTree (kind : Place → EntryType) (docs : List Place) : Prop where
  nodup : docs.Nodup
  inside : ∀ p ∈ docs, p.2 ≠ []
  name : ∀ p ∈ docs, ∀ s ∈ p.2, Uri.IsName s
  type : ∀ p ∈ docs, kind p ∉ [EntryType.workgroup, .server, .fileShare]
  directory : ∀ p ∈ docs, ∀ dir, InDirectory dir p → dir.2 ≠ [] → dir ∈ docs ∧ kind dir = .dir

/-- The removal a call asks for. -/
def SmbCall.removal (c : SmbCall) (done : Bool) : List Removal :=
  match c with
  | .unlink u | .rmdir u => [⟨u, done⟩]
  | _ => []

namespace FileServer

variable (kind : Place → EntryType)

/-- The server before the first call. -/
def start (docs : List Place) : FileServer := ⟨docs, 0, fun _ => [], [], false⟩

/-- The entry of a document in its directory. -/
def entryOf (dir p : Place) : Option DirectoryEntry :=
  if InDirectory dir p then some ⟨kind p, "", p.2.getLast?⟩ else none

/-- A listing of a directory: its documents in any order, with the entries
for itself and for its parent, or without them. -/
def Lists (docs : List Place) (dir : Place) (L : List DirectoryEntry) : Prop :=
  ∃ dots : List DirectoryEntry, dots.length ≤ 2 ∧
    (∀ e ∈ dots, e.type = .dir ∧ (e.name = some "." ∨ e.name = some "..")) ∧
    L.Perm (dots ++ docs.filterMap (entryOf kind dir))

/-- The calls the server carries out. -/
def Accepts (s : FileServer) : SmbCall → Prop
  | .stat u => u.place ∈ s.docs
  | .openDir u => u.place ∈ s.docs ∧ kind u.place = .dir
  | .readDir _ | .closeDir _ => True
  | .unlink u => u.place ∈ s.docs ∧ kind u.place ≠ .dir
  | .rmdir u => u.place ∈ s.docs ∧ kind u.place = .dir ∧ ∀ p ∈ s.docs, ¬ InDirectory u.place p
  -- Nothing is made or renamed while a folder is deleted.
  | .createFile _ | .mkdir _ | .rename _ _ => False

instance (s : FileServer) (c : SmbCall) : Decidable (s.Accepts kind c) :=
  match c with
  | .stat u => inferInstanceAs (Decidable (u.place ∈ s.docs))
  | .openDir u => inferInstanceAs (Decidable (u.place ∈ s.docs ∧ kind u.place = .dir))
  | .readDir _ | .closeDir _ => inferInstanceAs (Decidable True)
  | .unlink u => inferInstanceAs (Decidable (u.place ∈ s.docs ∧ kind u.place ≠ .dir))
  | .rmdir u => inferInstanceAs (Decidable (u.place ∈ s.docs ∧ kind u.place = .dir ∧
      ∀ p ∈ s.docs, ¬ InDirectory u.place p))
  | .createFile _ | .mkdir _ | .rename _ _ => inferInstanceAs (Decidable False)

/-- The server with a document removed. -/
def erase (s : FileServer) (u : Uri) : FileServer :=
  { s with docs := s.docs.filter (· ≠ u.place), log := s.log ++ [⟨u, true⟩] }

/-- A call that is carried out. -/
def Returns : (c : SmbCall) → FileServer → c.Value → FileServer → Prop
  | .stat u, s, stat, t => stat.isDir = decide (kind u.place = .dir) ∧ t = s
  | .openDir u, s, dir, t =>
    ∃ L, Lists kind s.docs u.place L ∧ dir = s.opened ∧
      t = { s with opened := s.opened + 1, pending := Function.update s.pending s.opened L }
  | .readDir dir, s, entry, t =>
    entry = (s.pending dir).head? ∧
      t = { s with pending := Function.update s.pending dir (s.pending dir).tail }
  | .closeDir _, s, _, t => t = s
  | .unlink u, s, _, t | .rmdir u, s, _, t => t = s.erase u
  | .createFile _, _, _, _ | .mkdir _, _, _, _ | .rename _ _, _, _, _ => False

/-- The server after a call that throws. -/
def refuse (s : FileServer) (c : SmbCall) : FileServer :=
  { s with
    log := s.log ++ c.removal false
    failed := s.failed || decide (s.Accepts kind c) }

/-- A call is carried out if it is accepted, and any call may throw. -/
def Answers : Service FileServer := fun c s a t =>
  match a with
  | .ok v => s.Accepts kind c ∧ Returns kind c s v t
  | .error _ => t = s.refuse kind c

end FileServer

variable {kind : Place → EntryType} {docs : List Place} {u k : Uri} {p q dir : Place}
  {w w' : World FileServer} {α β : Type} {new : List Removal} {n : ℕ}

/-! ## What the server keeps -/

theorem donePlaces_append {new' : List Removal} :
    donePlaces (new ++ new') = donePlaces new ++ donePlaces new' := by
  simp [donePlaces, doneUris]

theorem doneUris_append {new' : List Removal} :
    doneUris (new ++ new') = doneUris new ++ doneUris new' := by
  simp [doneUris]

/-- What has happened to the documents. -/
structure Removed (kind : Place → EntryType) (s t : FileServer) (new : List Removal) : Prop where
  log : t.log = s.log ++ new
  docs : t.docs = s.docs.filter (· ∉ donePlaces new)
  nodup : (donePlaces new).Nodup
  present : ∀ p ∈ donePlaces new, p ∈ s.docs
  failed : s.failed = true → t.failed = true
  tree : IsTree kind s.docs → IsTree kind t.docs

theorem Removed.refl {s : FileServer} : Removed kind s s [] :=
  ⟨(List.append_nil _).symm, by simp [donePlaces, doneUris], List.nodup_nil, nofun, id, id⟩

theorem Removed.trans {s t v : FileServer} {new' : List Removal} (h : Removed kind s t new)
    (h' : Removed kind t v new') : Removed kind s v (new ++ new') where
  log := by rw [h'.log, h.log, List.append_assoc]
  docs := by
    rw [h'.docs, h.docs, List.filter_filter]
    refine List.filter_congr fun p _ => ?_
    rw [donePlaces_append]
    simp [Bool.and_comm]
  nodup := by
    rw [donePlaces_append]
    refine List.nodup_append.mpr ⟨h.nodup, h'.nodup, fun p hp q hq hpq => ?_⟩
    have hmem := h'.present q hq
    rw [h.docs, List.mem_filter] at hmem
    exact absurd hp (by simpa [← hpq] using hmem.2)
  present p hp := by
    rw [donePlaces_append, List.mem_append] at hp
    rcases hp with hp | hp
    · exact h.present p hp
    · have hmem := h'.present p hp
      rw [h.docs] at hmem
      exact List.mem_of_mem_filter hmem
  failed hs := h'.failed (h.failed hs)
  tree hs := h'.tree (h.tree hs)

/-- A document without others in it can be removed. -/
theorem IsTree.erase {s : FileServer} (h : IsTree kind s.docs)
    (hempty : ∀ q ∈ s.docs, ¬ InDirectory u.place q) : IsTree kind (s.erase u).docs where
  nodup := h.nodup.filter _
  inside p hp := h.inside p (List.mem_of_mem_filter hp)
  name p hp := h.name p (List.mem_of_mem_filter hp)
  type p hp := h.type p (List.mem_of_mem_filter hp)
  directory p hp dir hdir hne := by
    have hp := List.mem_of_mem_filter hp
    obtain ⟨hmem, hkind⟩ := h.directory p hp dir hdir hne
    refine ⟨List.mem_filter.mpr ⟨hmem, decide_eq_true fun he => ?_⟩, hkind⟩
    exact hempty p hp (he ▸ hdir)

theorem removed_erase {s : FileServer} (hu : u.place ∈ s.docs)
    (hempty : IsTree kind s.docs → ∀ q ∈ s.docs, ¬ InDirectory u.place q) :
    Removed kind s (s.erase u) [⟨u, true⟩] where
  log := rfl
  docs := by
    refine List.filter_congr fun p _ => ?_
    simp [donePlaces, doneUris]
  nodup := List.nodup_singleton _
  present p hp := by
    obtain rfl := List.mem_singleton.mp hp
    exact hu
  failed := id
  tree h := h.erase (hempty h)

/-- **A call** throws, and is then noted as failed if the server would have
carried it out; or it is accepted and carried out. -/
theorem ends_smb_files {c : SmbCall} {res : Result Exn c.Value}
    (h : (smb c).Ends (FileServer.Answers kind).Step w res w') :
    w'.store = w.store ∧
      ((∃ x, res = .threw x ∧ w'.server = w.server.refuse kind c) ∨
        ∃ a, res = .returned a ∧ w.server.Accepts kind c ∧
          FileServer.Returns kind c w.server a w'.server) := by
  obtain ⟨a, t, ⟨hans, hstore⟩, h⟩ := h
  rcases a with x | a
  · obtain ⟨rfl, rfl⟩ := h
    exact ⟨hstore, .inl ⟨x, rfl, hans⟩⟩
  · obtain ⟨rfl, rfl⟩ := h
    exact ⟨hstore, .inr ⟨a, rfl, hans⟩⟩

/-- Nothing is inside a document that is no directory. -/
theorem IsTree.not_inDirectory (h : IsTree kind docs) (hp : p ∈ docs) (hkind : kind p ≠ .dir) :
    ∀ q ∈ docs, ¬ InDirectory p q :=
  fun q hq hin => hkind (h.directory q hq p hin (h.inside p hp)).2

/-- A call that throws has removed nothing. -/
theorem removed_refuse {s : FileServer} {c : SmbCall} :
    Removed kind s (s.refuse kind c) (c.removal false) where
  log := rfl
  docs := by cases c <;> simp [FileServer.refuse, SmbCall.removal, donePlaces, doneUris]
  nodup := by cases c <;> simp [SmbCall.removal, donePlaces, doneUris]
  present p hp := by cases c <;> simp [SmbCall.removal, donePlaces, doneUris] at hp
  failed hs := by simp [FileServer.refuse, hs]
  tree := id

/-- A call that asks for no removal leaves the documents. -/
theorem removed_returns {s t : FileServer} {c : SmbCall} {a : c.Value}
    (hc : c.removal true = []) (h : FileServer.Returns kind c s a t) : Removed kind s t [] := by
  have hsame : t.docs = s.docs ∧ t.log = s.log ∧ t.failed = s.failed := by
    cases c with
    | stat u =>
      obtain ⟨_, rfl⟩ := h
      exact ⟨rfl, rfl, rfl⟩
    | openDir u =>
      obtain ⟨L, _, _, rfl⟩ := h
      exact ⟨rfl, rfl, rfl⟩
    | readDir dir =>
      obtain ⟨_, rfl⟩ := h
      exact ⟨rfl, rfl, rfl⟩
    | closeDir dir =>
      obtain rfl := h
      exact ⟨rfl, rfl, rfl⟩
    | unlink u => cases hc
    | rmdir u => cases hc
    | _ => exact h.elim
  obtain ⟨hdocs, hlog, hfailed⟩ := hsame
  refine ⟨by rw [hlog, List.append_nil], by rw [hdocs]; simp [donePlaces, doneUris],
    List.nodup_nil, nofun, fun hs => by rw [hfailed, hs], fun hs => by rwa [hdocs]⟩

/-! ## Parts of a deletion -/

/-- A directory is asked to be removed only when the files and directories
in it have been removed before. -/
def Ordered (kind : Place → EntryType) (docs : List Place) (new : List Removal) : Prop :=
  ∀ l₁ e l₂, new = l₁ ++ e :: l₂ → ∀ q ∈ docs, InDirectory e.uri.place q →
    kind q = .file ∨ kind q = .dir → q ∈ donePlaces l₁

/-- A part of a deletion: it asks for removals in `area`, in order; it
takes out of the index what is removed; and it returns if no call has
failed and the documents are `clean`. `enough` is what makes the bound on
its loops sufficient. -/
structure Deletes (kind : Place → EntryType) (area : Place → Prop) (clean enough : Prop)
    (post : α → List Removal → Prop) (w : World FileServer) (res : Result Exn α)
    (w' : World FileServer) (new : List Removal) : Prop where
  removed : Removed kind w.server w'.server new
  index : w'.store.index = removeAll (doneUris new) w.store.index
  area : ∀ e ∈ new, area e.uri.place
  ordered : Ordered kind w.server.docs new
  complete : w'.server.failed = false → clean → enough → ∃ a, res = .returned a
  post : ∀ a, res = .returned a → post a new
  fuel : enough → res ≠ .outOfFuel

section Parts

variable {area area' : Place → Prop} {clean clean' enough enough' : Prop}
  {P : α → List Removal → Prop} {Q : β → List Removal → Prop} {res : Result Exn α}
  {new' : List Removal}

theorem Ordered.nil : Ordered kind docs [] := by
  intro l₁ e l₂ h
  simp at h

theorem Ordered.append {s t : FileServer} (hremoved : Removed kind s t new)
    (h : Ordered kind s.docs new) (h' : Ordered kind t.docs new') :
    Ordered kind s.docs (new ++ new') := by
  intro l₁ e l₂ hsplit q hq hin hkind
  rcases List.append_eq_append_iff.mp hsplit.symm with ⟨mid, hnew, hmid⟩ | ⟨mid, hnew, hmid⟩
  · cases mid with
    | nil =>
      rw [List.append_nil] at hnew
      by_cases hdone : q ∈ donePlaces new
      · rwa [← hnew]
      · have hq' : q ∈ t.docs := by
          rw [hremoved.docs]
          exact List.mem_filter.mpr ⟨hq, by simpa using hdone⟩
        exact absurd (h' [] e l₂ hmid.symm q hq' hin hkind) nofun
    | cons e' mid =>
      obtain ⟨rfl, _⟩ := List.cons.inj hmid
      exact h l₁ e mid hnew q hq hin hkind
  · rw [hnew, donePlaces_append, List.mem_append]
    by_cases hdone : q ∈ donePlaces new
    · exact .inl hdone
    · have hq' : q ∈ t.docs := by
        rw [hremoved.docs]
        exact List.mem_filter.mpr ⟨hq, by simpa using hdone⟩
      exact .inr (h' mid e l₂ hmid q hq' hin hkind)

theorem Deletes.mono {P' : α → List Removal → Prop}
    (h : Deletes kind area clean enough P w res w' new) (harea : ∀ p, area p → area' p)
    (hclean : clean' → clean) (henough : enough' → enough) (hpost : ∀ a, P a new → P' a new) :
    Deletes kind area' clean' enough' P' w res w' new :=
  ⟨h.removed, h.index, fun e he => harea _ (h.area e he), h.ordered,
    fun hf hc he => h.complete hf (hclean hc) (henough he), fun a ha => hpost a (h.post a ha),
    fun he => h.fuel (henough he)⟩

/-- A part that asks for no removals. -/
theorem Deletes.of_quiet (hremoved : Removed kind w.server w'.server [])
    (hstore : w'.store = w.store)
    (hcomplete : w'.server.failed = false → clean → enough → ∃ a, res = .returned a)
    (hpost : ∀ a, res = .returned a → P a []) (hfuel : enough → res ≠ .outOfFuel) :
    Deletes kind area clean enough P w res w' [] :=
  ⟨hremoved, by rw [hstore]; rfl, nofun, .nil, hcomplete, hpost, hfuel⟩

/-- **Two parts in sequence.** -/
theorem Deletes.seq {P : α → List Removal → World FileServer → Prop} {prog : Proc α}
    {f : α → Proc β} {res : Result Exn β}
    (hp : ∀ r t, prog.Ends (FileServer.Answers kind).Step w r t →
      ∃ new, Deletes kind area clean enough (fun a new => P a new t) w r t new)
    (hf : ∀ a t r t' new, P a new t → Removed kind w.server t.server new →
      (f a).Ends (FileServer.Answers kind).Step t r t' →
      ∃ new', Deletes kind area clean enough (fun b new' => Q b (new ++ new')) t r t' new')
    (h : (prog >>= f).Ends (FileServer.Answers kind).Step w res w') :
    ∃ new, Deletes kind area clean enough Q w res w' new := by
  rcases ends_seq h with ⟨a, t, ha, hfa⟩ | ⟨x, hx, rfl⟩ | ⟨hx, rfl⟩
  · obtain ⟨new, hpart⟩ := hp _ _ ha
    obtain ⟨new', hrest⟩ := hf a t res w' new (hpart.post a rfl) hpart.removed hfa
    refine ⟨new ++ new', hpart.removed.trans hrest.removed, ?_, fun e he => ?_,
      hpart.ordered.append hpart.removed hrest.ordered, hrest.complete, hrest.post, hrest.fuel⟩
    · rw [doneUris_append, removeAll_append, ← hpart.index]
      exact hrest.index
    · rcases List.mem_append.mp he with he | he
      · exact hpart.area e he
      · exact hrest.area e he
  · obtain ⟨new, hpart⟩ := hp _ _ hx
    refine ⟨new, hpart.removed, hpart.index, hpart.area, hpart.ordered, fun hfail hc he => ?_,
      nofun, fun _ => nofun⟩
    obtain ⟨a, ha⟩ := hpart.complete hfail hc he
    cases ha
  · obtain ⟨new, hpart⟩ := hp _ _ hx
    refine ⟨new, hpart.removed, hpart.index, hpart.area, hpart.ordered, fun hfail hc he => ?_,
      nofun, fun he => absurd rfl (hpart.fuel he)⟩
    obtain ⟨a, ha⟩ := hpart.complete hfail hc he
    cases ha

/-- **A call that removes nothing**, and that is accepted where the
documents are clean. -/
theorem deletes_smb {c : SmbCall} {res : Result Exn c.Value}
    (hc : ∀ done, c.removal done = []) (haccepts : clean → w.server.Accepts kind c)
    (h : (smb c).Ends (FileServer.Answers kind).Step w res w') :
    Deletes kind area clean enough (fun a new => new = [] ∧
      FileServer.Returns kind c w.server a w'.server) w res w' [] := by
  obtain ⟨hstore, ⟨x, rfl, hserver⟩ | ⟨a, rfl, _, hreturns⟩⟩ := ends_smb_files h
  · have hremoved : Removed kind w.server (w.server.refuse kind c) (c.removal false) :=
      removed_refuse
    rw [hc, ← hserver] at hremoved
    refine .of_quiet hremoved hstore (fun hfail hclean _ => ?_) nofun fun _ => nofun
    -- a call that is accepted is noted when it fails
    rw [hserver] at hfail
    simp [FileServer.refuse, haccepts hclean] at hfail
  · refine .of_quiet (removed_returns (hc true) hreturns) hstore (fun _ _ _ => ⟨a, rfl⟩)
      (fun b hb => ?_) fun _ => nofun
    obtain rfl := Result.returned.inj hb
    exact ⟨rfl, hreturns⟩

/-- **A removal**, and what follows it: the URI is taken out of the cache
if and only if its document is removed. -/
theorem deletes_remove {c : SmbCall} {prog : Proc Unit} {res : Result Exn Unit}
    (hprog : ∀ r t, prog.Ends (FileServer.Answers kind).Step w r t → t.store = w.store ∧
      ((∃ x, r = .threw x ∧ t.server = w.server.refuse kind c) ∨
        r = .returned () ∧ w.server.Accepts kind c ∧ t.server = w.server.erase u))
    (hc : ∀ done, c.removal done = [⟨u, done⟩]) (haccepts : clean → w.server.Accepts kind c)
    (hpresent : w.server.Accepts kind c → u.place ∈ w.server.docs ∧
      (IsTree kind w.server.docs → ∀ q ∈ w.server.docs, ¬ InDirectory u.place q))
    (harea : area u.place)
    (hordered : ∀ q ∈ w.server.docs, InDirectory u.place q → ¬ (kind q = .file ∨ kind q = .dir))
    (h : (do
      prog
      DocumentCache.remove u
      revokeDocumentPermission u : Proc Unit).Ends (FileServer.Answers kind).Step w res w') :
    ∃ new, Deletes kind area clean enough (fun _ new => u.place ∈ donePlaces new) w res w' new := by
  have hevent (b : Bool) : Ordered kind w.server.docs [⟨u, b⟩] := by
    intro l₁ e l₂ hsplit q hq hin hkind
    rcases List.cons_eq_append_iff.mp hsplit with ⟨rfl, he⟩ | ⟨l₁', rfl, he⟩
    · obtain ⟨rfl, _⟩ := List.cons.inj he
      exact absurd hkind (hordered q hq hin)
    · simp at he
  rcases ends_seq h with ⟨_, t, hp, hf⟩ | ⟨x, hp, rfl⟩ | ⟨hp, rfl⟩
  · obtain ⟨hstore, ⟨x, hx, _⟩ | ⟨_, haccepted, hserver⟩⟩ := hprog _ _ hp
    · cases hx
    obtain ⟨hu, hempty⟩ := hpresent haccepted
    obtain ⟨s, hserver', hindex, hf⟩ := ends_seq_remove hf
    simp only [revokeDocumentPermission, perform, ends_revokeDocumentPermission,
      Prog.ends_ctorPure] at hf
    obtain ⟨rfl, rfl⟩ := hf
    have hremoved : Removed kind w.server (w.server.erase u) [⟨u, true⟩] :=
      removed_erase hu hempty
    rw [← hserver, ← hserver'] at hremoved
    refine ⟨[⟨u, true⟩], hremoved, ?_, fun e he => ?_, hevent true, fun _ _ _ => ⟨(), rfl⟩,
      fun _ _ => ?_, fun _ => nofun⟩
    · rw [hindex, hstore]
      rfl
    · obtain rfl := List.mem_singleton.mp he
      exact harea
    · exact List.mem_singleton_self _
  · obtain ⟨hstore, ⟨_, _, hserver⟩ | ⟨hx, _⟩⟩ := hprog _ _ hp
    · have hremoved : Removed kind w.server (w.server.refuse kind c) (c.removal false) :=
      removed_refuse
      rw [hc, ← hserver] at hremoved
      refine ⟨[⟨u, false⟩], hremoved, by rw [hstore]; rfl, fun e he => ?_, hevent false,
        fun hfail hclean _ => ?_, nofun, fun _ => nofun⟩
      · obtain rfl := List.mem_singleton.mp he
        exact harea
      · rw [hserver] at hfail
        simp [FileServer.refuse, haccepts hclean] at hfail
    · cases hx
  · obtain ⟨_, ⟨_, hx, _⟩ | ⟨hx, _⟩⟩ := hprog _ _ hp
    · cases hx
    · cases hx

end Parts

/-! ## Listed documents -/

/-- The document itself and what is below it. -/
def AtOrUnder (d p : Place) : Prop := p.1 = d.1 ∧ d.2 <+: p.2

instance (d p : Place) : Decidable (AtOrUnder d p) := inferInstanceAs (Decidable (_ ∧ _))

theorem AtOrUnder.refl : AtOrUnder p p := ⟨rfl, List.prefix_refl _⟩

theorem AtOrUnder.trans {d : Place} (h : AtOrUnder d p) (h' : AtOrUnder p q) : AtOrUnder d q :=
  ⟨h'.1.trans h.1, h.2.trans h'.2⟩

theorem AtOrUnder.of_inDirectory (h : InDirectory dir p) : AtOrUnder dir p :=
  ⟨h.1, h.2.2 ▸ List.dropLast_prefix p.2⟩

/-- What is below a document of a directory is not the directory. -/
theorem ne_of_atOrUnder (hp : InDirectory dir p) (hpq : AtOrUnder p q) : q ≠ dir := by
  rintro rfl
  have hle := hpq.2.length_le
  have hpos := List.length_pos_of_ne_nil hp.2.1
  rw [← hp.2.2, List.length_dropLast] at hle
  omega

/-- **Two documents of a directory** have nothing below them in common. -/
theorem eq_of_atOrUnder (hp : InDirectory dir p) (hq : InDirectory dir q) {r : Place}
    (hpr : AtOrUnder p r) (hqr : AtOrUnder q r) : p = q := by
  have hlength {p : Place} (hp : InDirectory dir p) : p.2.length = dir.2.length + 1 := by
    have hpos := List.length_pos_of_ne_nil hp.2.1
    rw [← hp.2.2, List.length_dropLast]
    omega
  refine Prod.ext (hp.1.trans hq.1.symm) ?_
  have hprefix : p.2 <+: q.2 :=
    List.prefix_of_prefix_length_le hpr.2 hqr.2 (by rw [hlength hp, hlength hq])
  exact hprefix.eq_of_length (by rw [hlength hp, hlength hq])

/-- **A document is there while something below it is.** -/
theorem IsTree.mem_of_atOrUnder {d : Place} (h : IsTree kind docs) (hd : d.2 ≠ [])
    (hp : p ∈ docs) (hbelow : AtOrUnder d p) : d ∈ docs := by
  obtain ⟨a, segs⟩ := p
  obtain ⟨hauth, rest, rfl⟩ := hbelow
  obtain rfl : a = d.1 := hauth
  -- on the segments below the document, from the last one
  induction rest using List.reverseRecOn with
  | nil => rwa [List.append_nil] at hp
  | append_singleton rest s ih =>
    have hin : InDirectory (d.1, d.2 ++ rest) (d.1, d.2 ++ (rest ++ [s])) := by
      refine ⟨rfl, by simp, ?_⟩
      rw [← List.append_assoc, List.dropLast_concat]
    exact ih (h.directory _ hp _ hin (by simp [hd])).1

/-- A document of a directory, by its URI. -/
structure IsListed (kind : Place → EntryType) (docs : List Place) (u k : Uri) : Prop where
  mem : k.place ∈ docs
  inside : InDirectory u.place k.place
  type : kind k.place = .file ∨ kind k.place = .dir
  name : ∃ s, s ≠ "" ∧ k = u.appendPath s

/-- The URIs of a directory's documents tell them apart. -/
theorem IsListed.eq_of_place (h : IsListed kind docs u k) {k' : Uri} (h' : IsListed kind docs u k')
    (hplace : k.place = k'.place) : k = k' := by
  obtain ⟨s, hs, rfl⟩ := h.name
  obtain ⟨s', hs', rfl⟩ := h'.name
  have hsegs : (u.appendPath s).getPathSegments = (u.appendPath s').getPathSegments :=
    congrArg Prod.snd hplace
  rw [Uri.getPathSegments_appendPath hs, Uri.getPathSegments_appendPath hs'] at hsegs
  rw [List.singleton_inj.mp (List.append_cancel_left hsegs)]

/-- **A child the loop finds is in the listing**, and the other way. -/
theorem lookup_addEntries {L : List DirectoryEntry} {acc : AList fun _ : Uri => DirectoryEntry}
    {e : DirectoryEntry} (h : (L.foldl (addEntry u) acc).lookup k = some e) :
    acc.lookup k = some e ∨ e ∈ L ∧ u.buildChildUri e = some k := by
  induction L generalizing acc with
  | nil => exact .inl h
  | cons e' L ih =>
    rcases ih h with hacc | ⟨hmem, hk⟩
    · unfold addEntry at hacc
      split at hacc
      · exact .inl hacc
      · rename_i k' hk'
        by_cases hkk : k = k'
        · subst hkk
          rw [AList.lookup_insert] at hacc
          obtain rfl := Option.some.inj hacc
          exact .inr ⟨List.mem_cons_self, hk'⟩
        · rw [AList.lookup_insert_ne hkk] at hacc
          exact .inl hacc
    · exact .inr ⟨List.mem_cons_of_mem e' hmem, hk⟩

theorem mem_addEntries {L : List DirectoryEntry} {acc : AList fun _ : Uri => DirectoryEntry}
    (h : k ∈ acc ∨ ∃ e ∈ L, u.buildChildUri e = some k) : k ∈ L.foldl (addEntry u) acc := by
  induction L generalizing acc with
  | nil => simpa using h
  | cons e L ih =>
    refine ih ?_
    have hkeep : k ∈ acc → k ∈ addEntry u acc e := by
      intro hk
      unfold addEntry
      split
      · exact hk
      · exact (AList.mem_insert _).mpr (.inr hk)
    rcases h with hk | ⟨e', hmem, hk⟩
    · exact .inl (hkeep hk)
    · rcases List.mem_cons.mp hmem with rfl | hmem
      · refine .inl ?_
        unfold addEntry
        rw [hk]
        exact (AList.mem_insert _).mpr (.inl rfl)
      · exact .inr ⟨e', hmem, hk⟩

/-- What a file or a directory has for a URI; the other types of a share
have none. -/
theorem child_of_buildChildUri {type : EntryType} {comment name : String}
    (htype : type ∉ [EntryType.workgroup, .server, .fileShare])
    (hk : u.buildChildUri ⟨type, comment, some name⟩ = some k) :
    k = u.appendPath name ∧ (type = .file ∨ type = .dir) := by
  have hnamed (h : u.buildNamedChildUri (some name) = some k) : k = u.appendPath name := by
    unfold Uri.buildNamedChildUri at h
    split at h
    · cases h
    · exact (Option.some.inj h).symm
  cases type with
  | dir => exact ⟨hnamed hk, .inr rfl⟩
  | file => exact ⟨hnamed hk, .inl rfl⟩
  | workgroup | server | fileShare => simp at htype
  | _ => cases hk

/-- The entry of a document leads to it. -/
theorem isListed_of_entryOf (htree : IsTree kind docs) (hp : p ∈ docs) {e : DirectoryEntry}
    (he : FileServer.entryOf kind u.place p = some e) (hk : u.buildChildUri e = some k) :
    IsListed kind docs u k ∧ k.place = p ∧ e.type = kind p := by
  unfold FileServer.entryOf at he
  split at he
  · rename_i hin
    obtain rfl := Option.some.inj he
    obtain ⟨hauth, hne, hdrop⟩ := hin
    have hlast : p.2.getLast? = some (p.2.getLast hne) := List.getLast?_eq_some_getLast hne
    have hname := htree.name p hp _ (List.getLast_mem hne)
    have hsegs : p.2 = u.getPathSegments ++ [p.2.getLast hne] := by
      rw [← show p.2.dropLast = u.getPathSegments from hdrop, List.dropLast_append_getLast]
    rw [hlast] at hk
    have hchild := child_of_buildChildUri (htree.type p hp) hk
    obtain ⟨rfl, hkind⟩ := hchild
    have hplace : (u.appendPath (p.2.getLast hne)).place = p := by
      refine Prod.ext hauth.symm ?_
      change (u.appendPath (p.2.getLast hne)).getPathSegments = p.2
      rw [Uri.getPathSegments_appendPath hname.1, ← hsegs]
    refine ⟨⟨?_, ?_, ?_, _, hname.1, rfl⟩, hplace, rfl⟩
    · rwa [hplace]
    · rw [hplace]
      exact ⟨hauth, hne, hdrop⟩
    · rwa [hplace]
  · cases he

/-- A file or a directory has an entry with a URI. -/
theorem exists_buildChildUri (htree : IsTree kind docs) (hp : p ∈ docs)
    (hin : InDirectory u.place p) (hkind : kind p = .file ∨ kind p = .dir) :
    ∃ e, FileServer.entryOf kind u.place p = some e ∧ ∃ k, u.buildChildUri e = some k ∧
      k.place = p := by
  have hlast : p.2.getLast? = some (p.2.getLast hin.2.1) :=
    List.getLast?_eq_some_getLast hin.2.1
  obtain ⟨_, hdot, hdots⟩ := htree.name p hp _ (List.getLast_mem hin.2.1)
  have hentry : FileServer.entryOf kind u.place p = some ⟨kind p, "", p.2.getLast?⟩ := if_pos hin
  have hk : u.buildChildUri ⟨kind p, "", p.2.getLast?⟩ =
      some (u.appendPath (p.2.getLast hin.2.1)) := by
    rw [hlast]
    unfold Uri.buildChildUri Uri.buildNamedChildUri
    rcases hkind with hkind | hkind
    all_goals simp [hkind, hdot, hdots]
  exact ⟨_, hentry, _, hk, (isListed_of_entryOf htree hp hentry hk).2.1⟩

/-! ## The parts -/

section Folder

variable {D K : ℕ}

/-- **The loop over a local listing** goes through all of it. -/
theorem deletes_readChildren {area : Place → Prop} {clean : Prop} {dir : SmbDir}
    {acc : AList fun _ : Uri => DirectoryEntry}
    {res : Result Exn (AList fun _ : Uri => DirectoryEntry)}
    (h : (readChildren (return u) (fun _ entry => return entry) dir n acc).Ends
      (FileServer.Answers kind).Step w res w') :
    ∃ new, Deletes kind area clean ((w.server.pending dir).length < n)
      (fun children new => new = [] ∧
        children = (w.server.pending dir).foldl (addEntry u) acc) w res w' new := by
  induction n generalizing w acc res w' with
  | zero =>
    obtain ⟨rfl, rfl⟩ := h
    exact ⟨[], .of_quiet .refl rfl (fun _ _ hlt => absurd hlt (Nat.not_lt_zero _)) nofun
      fun hlt => absurd hlt (Nat.not_lt_zero _)⟩
  | succ n ih =>
    refine Deletes.seq (fun r t hr => ⟨[], deletes_smb (fun _ => rfl)
      (fun _ => by trivial) hr⟩) (fun a t r t' new ha _ h => ?_) h
    obtain ⟨rfl, hhead, hserver⟩ := ha
    have hpending : t.server.pending dir = (w.server.pending dir).tail := by
      rw [hserver]
      exact Function.update_self ..
    cases hL : w.server.pending dir with
    | nil =>
      rw [hL] at hhead
      subst hhead
      obtain ⟨rfl, rfl⟩ := h
      refine ⟨[], .of_quiet .refl rfl (fun _ _ _ => ⟨acc, rfl⟩) (fun children hch => ?_)
        fun _ => nofun⟩
      obtain rfl := Result.returned.inj hch
      exact ⟨rfl, rfl⟩
    | cons e L =>
      rw [hL] at hhead hpending
      subst hhead
      have henough : (e :: L).length < n + 1 → (t.server.pending dir).length < n := by
        rw [hpending, List.length_cons, List.tail_cons]
        omega
      -- What the rest of the loop makes of the children so far.
      have hrest {acc' : AList fun _ : Uri => DirectoryEntry} (hacc : addEntry u acc e = acc')
          (h : (readChildren (return u) (fun _ entry => return entry) dir n acc').Ends
            (FileServer.Answers kind).Step t r t') :
          ∃ new', Deletes kind area clean ((e :: L).length < n + 1)
            (fun children new' => [] ++ new' = [] ∧
              children = (e :: L).foldl (addEntry u) acc) t r t' new' := by
        obtain ⟨new', hpart⟩ := ih h
        refine ⟨new', hpart.mono (fun _ => id) id henough fun children hch => ?_⟩
        rw [hpending] at hch
        rw [List.foldl_cons, hacc]
        exact hch
      cases hk : u.buildChildUri e with
      | none =>
        simp only [Prog.pure_bind, List.head?_cons, hk] at h
        exact hrest (by simp [addEntry, hk]) h
      | some k =>
        simp only [Prog.pure_bind, List.head?_cons, hk] at h
        exact hrest (by simp [addEntry, hk]) h

/-- **A part with a directory open.** -/
theorem Deletes.withDir {area : Place → Prop} {clean enough : Prop}
    {post : α → List Removal → Prop} {dir : SmbDir} {prog : Proc α} {res : Result Exn α}
    (hp : ∀ r t, prog.Ends (FileServer.Answers kind).Step w r t →
      ∃ new, Deletes kind area clean enough post w r t new)
    (h : (Prog.withResource (smb (.closeDir dir)) prog).Ends
      (FileServer.Answers kind).Step w res w') :
    ∃ new, Deletes kind area clean enough post w res w' new := by
  obtain ⟨r, t, hr, hclose⟩ := Prog.ends_withResource.mp h
  obtain ⟨new, hpart⟩ := hp r t hr
  rcases hclose with ⟨rfl, rfl, rfl⟩ | ⟨hne, c, hc, rfl⟩
  · exact ⟨new, hpart⟩
  have hclosed : Deletes kind area True True _ t c w' [] :=
    deletes_smb (fun _ => rfl) (fun _ => by trivial) hc
  have hremoved := hpart.removed.trans hclosed.removed
  rw [List.append_nil] at hremoved
  refine ⟨new, hremoved, hclosed.index.trans hpart.index, hpart.area, hpart.ordered,
    fun hfail hcl he => ?_, fun a ha => hpart.post a ?_, fun _ hout => ?_⟩
  · have hfail' : t.server.failed = false :=
      Bool.eq_false_iff.mpr fun ht => by simp [hclosed.removed.failed ht] at hfail
    obtain ⟨a, rfl⟩ := hpart.complete hfail' hcl he
    obtain ⟨_, rfl⟩ := hclosed.complete hfail trivial trivial
    exact ⟨a, rfl⟩
  · rcases r with b | x | _ <;> rcases c with _ | y | _
    all_goals cases ha
    rfl
  · have hc' := hclosed.fuel trivial
    rcases r with b | x | _ <;> rcases c with _ | y | _
    all_goals first
      | exact hne rfl
      | exact hc' rfl
      | cases hout

/-- **A local listing** has the URIs of the files and directories in the
directory. -/
theorem deletes_loadLocalChildren {area : Place → Prop} {clean : Prop}
    {res : Result Exn (AList fun _ : Uri => DirectoryEntry)}
    (htree : IsTree kind w.server.docs) (hu : u.place ∈ w.server.docs)
    (hdir : kind u.place = .dir)
    (h : (loadLocalChildren n u).Ends (FileServer.Answers kind).Step w res w') :
    ∃ new, Deletes kind area clean (w.server.docs.length + 2 < n)
      (fun children new => new = [] ∧
        (∀ k e, children.lookup k = some e →
          IsListed kind w.server.docs u k ∧ e.type = kind k.place) ∧
        ∀ q ∈ w.server.docs, InDirectory u.place q → kind q = .file ∨ kind q = .dir →
          ∃ k ∈ children.keys, k.place = q) w res w' new := by
  refine Deletes.seq (fun r t hr => ⟨[], deletes_smb (fun _ => rfl)
    (fun _ => by exact ⟨hu, hdir⟩) hr⟩) (fun dir t r t' new ha _ h => ?_) h
  obtain ⟨rfl, L, ⟨dots, hlength, hdots, hperm⟩, rfl, hserver⟩ := ha
  have hpending : t.server.pending w.server.opened = L := by
    rw [hserver]
    exact Function.update_self ..
  obtain ⟨new', hpart⟩ := Deletes.withDir (fun _ _ => deletes_readChildren) h
  refine ⟨new', hpart.mono (fun _ => id) id (fun hlt => ?_) fun children ⟨hnew, hch⟩ => ?_⟩
  · have hle := List.length_filterMap_le (FileServer.entryOf kind u.place) w.server.docs
    rw [hpending, hperm.length_eq, List.length_append]
    omega
  rw [hpending] at hch
  refine ⟨hnew, fun k e he => ?_, fun q hq hin hkind => ?_⟩
  · rw [hch] at he
    rcases lookup_addEntries he with hnone | ⟨hmem, hk⟩
    · simp at hnone
    rcases List.mem_append.mp (hperm.mem_iff.mp hmem) with hdot | hmem
    · -- the directory itself and its parent have no URI
      obtain ⟨htype, hname⟩ := hdots e hdot
      have hnone : u.buildChildUri e = none := by
        unfold Uri.buildChildUri Uri.buildNamedChildUri
        rw [htype]
        exact if_pos hname
      rw [hnone] at hk
      cases hk
    · obtain ⟨p, hp, hentry⟩ := List.mem_filterMap.mp hmem
      obtain ⟨hchild, hplace, htype⟩ := isListed_of_entryOf htree hp hentry hk
      exact ⟨hchild, hplace ▸ htype⟩
  · obtain ⟨e, he, k, hk, hplace⟩ := exists_buildChildUri htree hq hin hkind
    refine ⟨k, ?_, hplace⟩
    rw [hch]
    refine mem_addEntries (.inr ⟨e, ?_, hk⟩)
    exact hperm.mem_iff.mpr (List.mem_append_right _ (List.mem_filterMap.mpr ⟨q, hq, he⟩))

theorem exists_of_mem_donePlaces (h : p ∈ donePlaces new) : ∃ e ∈ new, e.uri.place = p := by
  obtain ⟨v, hv, rfl⟩ := List.mem_map.mp h
  obtain ⟨e, he, rfl⟩ := List.mem_map.mp hv
  exact ⟨e, List.mem_of_mem_filter he, rfl⟩

theorem Removed.sublist {s t : FileServer} (h : Removed kind s t new) :
    t.docs.Sublist s.docs := by
  rw [h.docs]
  exact List.filter_sublist

/-- **The loop over the children** removes them one after another: a turn
leaves the children that are still to come. -/
theorem deletes_forM {f : Uri → Proc Unit} {keys : List Uri} {clean enough : Prop}
    {res : Result Exn Unit} (htree : IsTree kind w.server.docs) (hnodup : keys.Nodup)
    (hsub : w.server.docs.Sublist docs)
    (hkeys : ∀ k ∈ keys, IsListed kind w.server.docs u k)
    (hf : ∀ k ∈ keys, ∀ t r t', t.server.docs.Sublist docs → IsTree kind t.server.docs →
      k.place ∈ t.server.docs → (f k).Ends (FileServer.Answers kind).Step t r t' →
      ∃ new, Deletes kind (fun p => p ∈ docs ∧ AtOrUnder k.place p) clean enough
        (fun _ new => k.place ∈ donePlaces new) t r t' new)
    (h : (keys.forM f).Ends (FileServer.Answers kind).Step w res w') :
    ∃ new, Deletes kind (fun p => p ∈ docs ∧ AtOrUnder u.place p ∧ p ≠ u.place) clean enough
      (fun _ new => ∀ k ∈ keys, k.place ∈ donePlaces new) w res w' new := by
  induction keys generalizing w res w' with
  | nil =>
    obtain ⟨rfl, rfl⟩ := h
    exact ⟨[], .of_quiet .refl rfl (fun _ _ _ => ⟨(), rfl⟩) nofun fun _ => nofun⟩
  | cons k keys ih =>
    rw [List.forM] at h
    have hk := hkeys k List.mem_cons_self
    rw [List.nodup_cons] at hnodup
    have hturn (r : Result Exn Unit) (t : World FileServer)
        (hr : (f k).Ends (FileServer.Answers kind).Step w r t) :
        ∃ new, Deletes kind (fun p => p ∈ docs ∧ AtOrUnder u.place p ∧ p ≠ u.place) clean enough
          (fun _ new => k.place ∈ donePlaces new ∧ ∀ e ∈ new, AtOrUnder k.place e.uri.place)
          w r t new := by
      obtain ⟨new, hpart⟩ := hf k List.mem_cons_self w r t hsub htree hk.mem hr
      exact ⟨new, hpart.removed, hpart.index,
        fun e he => ⟨(hpart.area e he).1,
          (AtOrUnder.of_inDirectory hk.inside).trans (hpart.area e he).2,
          ne_of_atOrUnder hk.inside (hpart.area e he).2⟩,
        hpart.ordered, hpart.complete,
        fun a ha => ⟨hpart.post a ha, fun e he => (hpart.area e he).2⟩, hpart.fuel⟩
    refine Deletes.seq (P := fun _ new _ => k.place ∈ donePlaces new ∧
      ∀ e ∈ new, AtOrUnder k.place e.uri.place) hturn (fun _ t r t' new hdone hremoved h => ?_) h
    -- The turn has removed nothing of the other children.
    have hkeys' : ∀ k' ∈ keys, IsListed kind t.server.docs u k' := by
      intro k' hk'
      have hchild := hkeys k' (List.mem_cons_of_mem k hk')
      refine ⟨?_, hchild.inside, hchild.type, hchild.name⟩
      rw [hremoved.docs]
      refine List.mem_filter.mpr ⟨hchild.mem, decide_eq_true fun hmem => ?_⟩
      obtain ⟨e, he, hplace⟩ := exists_of_mem_donePlaces hmem
      have hbelow := hdone.2 e he
      rw [hplace] at hbelow
      have hsame := eq_of_atOrUnder hk.inside hchild.inside hbelow AtOrUnder.refl
      obtain rfl := hk.eq_of_place hchild hsame
      exact hnodup.1 hk'
    obtain ⟨new', hrest⟩ := ih (hremoved.tree htree) hnodup.2 (hremoved.sublist.trans hsub) hkeys'
      (fun k' hk' => hf k' (List.mem_cons_of_mem k hk')) h
    refine ⟨new', hrest.mono (fun _ => id) id id fun _ hall k' hk' => ?_⟩
    rw [donePlaces_append, List.mem_append]
    rcases List.mem_cons.mp hk' with rfl | hk'
    · exact .inl hdone.1
    · exact .inr (hall k' hk')

/-- **The deletion of a file.** -/
theorem deletes_deleteFile {area : Place → Prop} {clean enough : Prop} {res : Result Exn Unit}
    (htree : IsTree kind w.server.docs) (hu : u.place ∈ w.server.docs)
    (hkind : kind u.place ≠ .dir) (harea : area u.place)
    (h : (deleteFile u).Ends (FileServer.Answers kind).Step w res w') :
    ∃ new, Deletes kind area clean enough (fun _ new => u.place ∈ donePlaces new) w res w' new := by
  have hempty := htree.not_inDirectory hu hkind
  refine deletes_remove (c := .unlink u) (fun r t hr => ?_)
    (fun _ => rfl) (fun _ => ⟨hu, hkind⟩) (fun _ => ⟨hu, fun _ => hempty⟩) harea
    (fun q hq hin => absurd hin (hempty q hq)) h
  obtain ⟨hstore, hthrew | ⟨_, hr, haccepts, hserver⟩⟩ := ends_smb_files hr
  · exact ⟨hstore, .inl hthrew⟩
  · exact ⟨hstore, .inr ⟨hr, haccepts, hserver⟩⟩

/-- **The removal of a folder** whose files and directories are gone. -/
theorem deletes_rmdir {area : Place → Prop} {clean enough : Prop} {res : Result Exn Unit}
    (hu : u.place ∈ w.server.docs) (hdir : kind u.place = .dir) (harea : area u.place)
    (hgone : ∀ q ∈ w.server.docs, InDirectory u.place q → ¬ (kind q = .file ∨ kind q = .dir))
    (hclean : clean → ∀ q ∈ w.server.docs, AtOrUnder u.place q → kind q = .file ∨ kind q = .dir)
    (h : (do
      smb (.rmdir u)
      DocumentCache.remove u
      revokeDocumentPermission u : Proc Unit).Ends (FileServer.Answers kind).Step w res w') :
    ∃ new, Deletes kind area clean enough (fun _ new => u.place ∈ donePlaces new) w res w' new := by
  refine deletes_remove (c := .rmdir u) (fun r t hr => ?_)
    (fun _ => rfl) (fun hc => ⟨hu, hdir, fun q hq hin => ?_⟩) (fun haccepts => ⟨hu, fun _ => ?_⟩)
    harea hgone h
  · obtain ⟨hstore, hthrew | ⟨_, hr, haccepts, hserver⟩⟩ := ends_smb_files hr
    · exact ⟨hstore, .inl hthrew⟩
    · exact ⟨hstore, .inr ⟨hr, haccepts, hserver⟩⟩
  · exact hgone q hq hin (hclean hc q hq (.of_inDirectory hin))
  · exact haccepts.2.2

/-- What a turn of the loop does, for a child's entry. -/
theorem ends_isDirectory_child {e : DirectoryEntry} {prog prog' : Proc α} {res : Result Exn α}
    (htype : e.type = .file ∨ e.type = .dir)
    (h : (do if ← isDirectory e then prog else prog' : Proc α).Ends
      (FileServer.Answers kind).Step w res w') :
    (e.type = .dir ∧ prog.Ends (FileServer.Answers kind).Step w res w') ∨
      (e.type = .file ∧ prog'.Ends (FileServer.Answers kind).Step w res w') := by
  unfold isDirectory getMimeType at h
  rcases htype with htype | htype
  · rw [htype] at h
    exact .inr ⟨htype, h⟩
  · rw [htype] at h
    exact .inl ⟨htype, h⟩

/-- **The deletion of a folder.** The bound is for the depth below it and
for the longest listing. -/
theorem deletes_recursiveDeleteFolder {res : Result Exn Unit}
    (htree : IsTree kind w.server.docs) (hu : u.place ∈ w.server.docs)
    (hdir : kind u.place = .dir)
    (h : (recursiveDeleteFolder n u).Ends (FileServer.Answers kind).Step w res w') :
    ∃ new, Deletes kind (fun p => p ∈ w.server.docs ∧ AtOrUnder u.place p)
      (∀ p ∈ w.server.docs, AtOrUnder u.place p → kind p = .file ∨ kind p = .dir)
      (Bounded D K w.server.docs ∧ D + 1 - u.getPathSegments.length + K + 3 < n)
      (fun _ new => u.place ∈ donePlaces new) w res w' new := by
  induction n generalizing u w res w' with
  | zero =>
    obtain ⟨rfl, rfl⟩ := h
    exact ⟨[], .of_quiet .refl rfl (fun _ _ h => absurd h.2 (Nat.not_lt_zero _)) (by simp)
      fun h => absurd h.2 (Nat.not_lt_zero _)⟩
  | succ n ih =>
    set docs := w.server.docs with hdocs
    refine Deletes.seq (P := fun children new _ => new = [] ∧
        (∀ k e, children.lookup k = some e → IsListed kind docs u k ∧ e.type = kind k.place) ∧
        ∀ q ∈ docs, InDirectory u.place q → kind q = .file ∨ kind q = .dir →
          ∃ k ∈ children.keys, k.place = q)
      (fun r t hr => ?_) (fun children t r t' new hch hremoved h => ?_) h
    · obtain ⟨new, hpart⟩ := deletes_loadLocalChildren htree hu hdir hr
      refine ⟨new, hpart.mono (fun _ => id) id (fun ⟨hb, hn⟩ => ?_) fun _ => id⟩
      have hK : w.server.docs.length ≤ K := hb.2
      omega
    obtain ⟨rfl, hchildren, hall⟩ := hch
    have ht : t.server.docs = docs := by
      rw [hremoved.docs, hdocs]
      simp [donePlaces, doneUris]
    refine Deletes.seq (P := fun _ new _ => (∀ k ∈ children.keys, k.place ∈ donePlaces new) ∧
        ∀ e ∈ new, e.uri.place ≠ u.place)
      (fun r s hr => ?_) (fun _ s r s' new hdone hloop h => ?_) h
    · simp only [forValues, perform, Prog.act_bind, Prog.ctorPure_bind, ends_hashOrder] at hr
      obtain ⟨⟨keys, hperm⟩, hr⟩ := hr
      have hkeys (k : Uri) (hk : k ∈ keys) : k ∈ children.keys := hperm.mem_iff.mp hk
      have hchild (k : Uri) (hk : k ∈ keys) : IsListed kind docs u k := by
        obtain ⟨e, he⟩ := Option.isSome_iff_exists.mp (AList.lookup_isSome.mpr (hkeys k hk))
        exact (hchildren k e he).1
      have hturn (k : Uri) (hk : k ∈ keys) (s : World FileServer) (r : Result Exn Unit)
          (s' : World FileServer) (hs : s.server.docs.Sublist docs)
          (hstree : IsTree kind s.server.docs) (hmem : k.place ∈ s.server.docs)
          (h : (visit children (fun childUri entry => do
            if ← isDirectory entry then recursiveDeleteFolder n childUri
            else deleteFile childUri) k).Ends (FileServer.Answers kind).Step s r s') :
          ∃ new, Deletes kind (fun p => p ∈ docs ∧ AtOrUnder k.place p)
            (∀ p ∈ docs, AtOrUnder u.place p → kind p = .file ∨ kind p = .dir)
            (Bounded D K docs ∧ D + 1 - u.getPathSegments.length + K + 3 < n + 1)
            (fun _ new => k.place ∈ donePlaces new) s r s' new := by
        unfold visit at h
        split at h
        · rename_i e he
          obtain ⟨hk, htype⟩ := hchildren k e he
          have hdeep : k.getPathSegments.length = u.getPathSegments.length + 1 := by
            obtain ⟨name, hname, rfl⟩ := hk.name
            rw [Uri.getPathSegments_appendPath hname, List.length_append]
            rfl
          rcases ends_isDirectory_child (htype ▸ hk.type) h with ⟨hkdir, h⟩ | ⟨hkfile, h⟩
          · obtain ⟨new, hpart⟩ := ih hstree hmem (htype ▸ hkdir) h
            refine ⟨new, hpart.mono (fun p hp => ⟨hs.subset hp.1, hp.2⟩)
              (fun hc p hp hbelow => hc p (hs.subset hp)
                ((AtOrUnder.of_inDirectory hk.inside).trans hbelow))
              (fun ⟨hb, hn⟩ => ⟨hb.sublist hs, ?_⟩) fun _ => id⟩
            have hle : k.getPathSegments.length ≤ D := hb.1 _ hk.mem
            omega
          · refine deletes_deleteFile hstree hmem ?_ ⟨hs.subset hmem, .refl⟩ h
            rw [← htype, hkfile]
            simp
        · rename_i hnone
          exact absurd (AList.lookup_isSome.mpr (hkeys k hk)) (by simp [hnone])
      obtain ⟨new, hpart⟩ := deletes_forM (ht ▸ htree) (hperm.nodup_iff.mpr children.nodupKeys)
        (ht ▸ List.Sublist.refl _) (fun k hk => ht ▸ hchild k hk) hturn hr
      exact ⟨new, hpart.removed, hpart.index,
        fun e he => ⟨(hpart.area e he).1, (hpart.area e he).2.1⟩, hpart.ordered, hpart.complete,
        fun a ha => ⟨fun k hk => hpart.post a ha k (hperm.mem_iff.mpr hk),
          fun e he => (hpart.area e he).2.2⟩, hpart.fuel⟩
    · -- The folder is still there, and its children are gone.
      have hsub : s.server.docs.Sublist docs := ht ▸ hloop.sublist
      have hpresent : u.place ∈ s.server.docs := by
        rw [hloop.docs, ht]
        refine List.mem_filter.mpr ⟨hu, decide_eq_true fun hmem => ?_⟩
        obtain ⟨e, he, hplace⟩ := exists_of_mem_donePlaces hmem
        exact hdone.2 e he hplace
      have hgone (q : Place) (hq : q ∈ s.server.docs) (hin : InDirectory u.place q) :
          ¬ (kind q = .file ∨ kind q = .dir) := by
        intro hkind
        obtain ⟨k, hk, rfl⟩ := hall q (hsub.subset hq) hin hkind
        rw [hloop.docs, List.mem_filter] at hq
        exact of_decide_eq_true hq.2 (hdone.1 k hk)
      have hrmdir : ∃ new, Deletes kind (fun p => p ∈ docs ∧ AtOrUnder u.place p)
          (∀ p ∈ docs, AtOrUnder u.place p → kind p = .file ∨ kind p = .dir)
          (Bounded D K docs ∧ D + 1 - u.getPathSegments.length + K + 3 < n + 1)
          (fun _ new => u.place ∈ donePlaces new) s r s' new :=
        deletes_rmdir hpresent hdir ⟨hu, .refl⟩ hgone (fun hc q hq => hc q (hsub.subset hq)) h
      obtain ⟨new', hpart⟩ := hrmdir
      refine ⟨new', hpart.mono (fun _ => id) id id fun _ hmem => ?_⟩
      rw [List.nil_append, donePlaces_append, List.mem_append]
      exact .inr hmem

end Folder

/-! ## The deletion -/

/-- **The deletion of a folder is confined, ordered and exact.** However
the calls are answered, it ends; it asks only for documents of the folder
to be removed, a document at most once and a directory after the files and
directories in it; what it has removed on the server, and nothing else, is
gone there and taken out of the cache. If no call fails and there are only
files and directories, the folder is gone with all that was in it. -/
theorem recursiveDeleteFolder_exact {d : Uri} {s : Store} {fuel : ℕ} {res : Result Exn Unit}
    (htree : IsTree kind docs) (hd : d.place ∈ docs) (hdir : kind d.place = .dir)
    (hfuel : enoughFuel docs ≤ fuel)
    (h : (recursiveDeleteFolder fuel d).Ends (FileServer.Answers kind).Step
      ⟨s, .start docs⟩ res w') :
    res ≠ .outOfFuel ∧
      (∀ e ∈ w'.server.log, e.uri.place ∈ docs ∧ AtOrUnder d.place e.uri.place) ∧
      (donePlaces w'.server.log).Nodup ∧
      Ordered kind docs w'.server.log ∧
      w'.server.docs = docs.filter (· ∉ donePlaces w'.server.log) ∧
      w'.store.index = removeAll (doneUris w'.server.log) s.index ∧
      (∀ k, w'.store.cache k = if k ∈ doneUris w'.server.log then none else s.cache k) ∧
      (w'.server.failed = false →
        (∀ p ∈ docs, AtOrUnder d.place p → kind p = .file ∨ kind p = .dir) →
        res = .returned () ∧ w'.server.docs = docs.filter (¬ AtOrUnder d.place ·)) := by
  unfold enoughFuel at hfuel
  obtain ⟨new, hpart⟩ := deletes_recursiveDeleteFolder (w := ⟨s, .start docs⟩)
    (D := (docs.map fun p => p.2.length).sum) (K := docs.length) htree hd hdir h
  have henough := And.intro (bounded_docs docs)
    (show (docs.map fun p => p.2.length).sum + 1 - d.getPathSegments.length + docs.length + 3 < fuel
      by omega)
  obtain rfl : w'.server.log = new := hpart.removed.log
  have hflat (k : Uri) : w'.store.cache k = if k ∈ doneUris w'.server.log then none
      else s.cache k := by
    have hindex := congrArg (fun i => TreeIndex.flat i k) hpart.index
    exact hindex.trans flat_removeAll_eq
  refine ⟨hpart.fuel henough, hpart.area, hpart.removed.nodup, hpart.ordered, hpart.removed.docs,
    hpart.index, hflat, fun hfailed hclean => ?_⟩
  obtain ⟨⟨⟩, hres⟩ := hpart.complete hfailed hclean henough
  have hgone : d.place ∉ w'.server.docs := by
    rw [hpart.removed.docs, List.mem_filter]
    intro hmem
    exact of_decide_eq_true hmem.2 (hpart.post () hres)
  refine ⟨hres, ?_⟩
  rw [hpart.removed.docs]
  refine List.filter_congr fun p hp => ?_
  rw [decide_eq_decide]
  constructor
  · intro hdone hbelow
    -- what is left below the folder would be left with the folder
    have hleft : p ∈ w'.server.docs := by
      rw [hpart.removed.docs]
      exact List.mem_filter.mpr ⟨hp, decide_eq_true hdone⟩
    exact hgone ((hpart.removed.tree htree).mem_of_atOrUnder (htree.inside _ hd) hleft hbelow)
  · intro hbelow hdone
    obtain ⟨e, he, rfl⟩ := exists_of_mem_donePlaces hdone
    exact hbelow (hpart.area e he).2

/-- The server carries out a call. -/
def FileServer.accept (kind : Place → EntryType) : (c : SmbCall) → FileServer →
    c.Value × FileServer
  | .stat u, s => (⟨if kind u.place = .dir then 0o040000 else 0, 0, 0⟩, s)
  | .openDir u, s =>
    (s.opened, { s with
      opened := s.opened + 1
      pending := Function.update s.pending s.opened
        ([⟨.dir, "", some "."⟩, ⟨.dir, "", some ".."⟩] ++
          s.docs.filterMap (entryOf kind u.place)) })
  | .readDir dir, s =>
    ((s.pending dir).head?,
      { s with pending := Function.update s.pending dir (s.pending dir).tail })
  | .closeDir _, s => ((), s)
  | .unlink u, s | .rmdir u, s => ((), s.erase u)
  | .createFile _, s | .mkdir _, s | .rename _ _, s => ((), s)

/-- A server that fails the calls in `fails`. -/
def FileServer.answer (kind : Place → EntryType) (fails : SmbCall → Bool) (c : SmbCall)
    (s : FileServer) : Except Exn c.Value × FileServer :=
  if s.Accepts kind c ∧ fails c = false then (.ok (accept kind c s).1, (accept kind c s).2)
  else (.error ⟨.ioException, ""⟩, s.refuse kind c)

theorem answers_answer_files {fails : SmbCall → Bool} (c : SmbCall) (s : FileServer) :
    FileServer.Answers kind c s (FileServer.answer kind fails c s).1
      (FileServer.answer kind fails c s).2 := by
  unfold FileServer.answer
  split
  · rename_i hok
    refine ⟨hok.1, ?_⟩
    cases c with
    | stat u =>
      refine ⟨?_, rfl⟩
      by_cases hdir : kind u.place = .dir
      · simp only [FileServer.accept, hdir]
        decide
      · simp only [FileServer.accept, hdir]
        decide
    | openDir u =>
      refine ⟨_, ⟨[⟨.dir, "", some "."⟩, ⟨.dir, "", some ".."⟩], le_rfl, ?_, .refl _⟩, rfl, rfl⟩
      simp
    | readDir dir => exact ⟨rfl, rfl⟩
    | closeDir dir | unlink u | rmdir u => rfl
    | _ => exact hok.1.elim
  · rfl

/-- The kinds of the sample: all but the file are directories. -/
def sampleKind (p : Place) : EntryType :=
  if p = ((inHomes "a").appendPath "b").place then .file else .dir

/-- A share with the directory in it. -/
def sampleTree : List Place := (inHomes "a").buildParentUri.place :: sampleDocs

/-- The deletion of a directory with a file in it, where the calls in
`fails` fail. -/
def sampleFolderDeletion (fails : SmbCall → Bool) : Result Exn Unit × World FileServer :=
  (recursiveDeleteFolder 14 (inHomes "a")).run (runEffect (FileServer.answer sampleKind fails))
    ⟨emptyStore, .start sampleTree⟩

theorem isTree_sampleTree : IsTree sampleKind sampleTree := by
  refine ⟨by decide, by decide, by decide, by decide, fun p hp dir ⟨hauth, _, hdrop⟩ hne => ?_⟩
  obtain rfl : dir = (p.1, p.2.dropLast) := Prod.ext hauth.symm hdrop.symm
  revert p
  decide

/-- Nothing fails: the share is left, without the directory. -/
theorem recursiveDeleteFolder_undisturbed :
    (sampleFolderDeletion fun _ => false).1 = .returned () ∧
      (sampleFolderDeletion fun _ => false).2.server.docs =
        [(inHomes "a").buildParentUri.place] := by
  have hends : (recursiveDeleteFolder 14 (inHomes "a")).Ends
      (FileServer.Answers sampleKind).Step ⟨emptyStore, .start sampleTree⟩
      (sampleFolderDeletion fun _ => false).1 (sampleFolderDeletion fun _ => false).2 :=
    Prog.ends_run (step_runEffect answers_answer_files)
  obtain ⟨_, _, _, _, _, _, _, hexact⟩ := recursiveDeleteFolder_exact isTree_sampleTree
    (by decide) (by decide) (by decide) hends
  obtain ⟨hres, hdocs⟩ := hexact (by decide) (by decide)
  exact ⟨hres, hdocs.trans (by decide)⟩

-- The file cannot be removed, and so the directory is left.
example : (sampleFolderDeletion fun c => c matches .unlink _).2.server.docs = sampleTree := by
  decide

end SambaProvider

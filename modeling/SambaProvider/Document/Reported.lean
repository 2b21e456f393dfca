import Mathlib.Algebra.Order.BigOperators.Group.List
import Mathlib.Algebra.Order.Group.Nat
import Mathlib.Algebra.Ring.Nat
import SambaProvider.Document.Remote

/-!
# What a reported deletion means

A deletion takes `FileNotFoundException` from any of its calls for the
news that the document is gone. So it reports a deletion that did not
happen in one way only: a call for something else finds it missing, and
the document stays.
-/

namespace SambaProvider

open Lib DocumentMetadata SambaDocumentsProvider

variable {isDir : Place → Bool} {d p : Place} {docs : List Place} {u k : Uri}
  {w w' : World Remote} {α β : Type} {n D K : ℕ}

/-! ## Parts of a deletion -/

/-- A part of the deletion of `d`. `FileNotFoundException` leaves it only
if `d` is gone or the note was taken, and the note is taken only by it,
with `d` still there.
`enough` is what makes the bound on its loops sufficient, and `post` what
holds where it returns. -/
structure Part (d : Place) (enough : Prop) (post : α → World Remote → Prop) (w : World Remote)
    (res : Result Exn α) (w' : World Remote) : Prop where
  docs : w'.server.docs.Sublist w.server.docs
  missing : ∀ x, res = .threw x → x.isFileNotFound = true →
    w'.server.missed = true ∨ d ∉ w'.server.docs
  missed : w'.server.missed = true →
    d ∈ w'.server.docs ∧ ∃ x, res = .threw x ∧ x.isFileNotFound = true
  fuel : enough → res ≠ .outOfFuel
  post : ∀ a, res = .returned a → post a w'

section Parts

variable {enough enough' : Prop} {P : α → World Remote → Prop} {Q : β → World Remote → Prop}
  {res : Result Exn α}

theorem Part.missed_eq_false (h : Part d enough P w res w')
    (hres : ∀ x, res = .threw x → x.isFileNotFound = false) : w'.server.missed = false := by
  cases hm : w'.server.missed with
  | false => rfl
  | true =>
    obtain ⟨_, x, hx, hfnf⟩ := h.missed hm
    rw [hres x hx] at hfnf
    cases hfnf

theorem Part.mono {P' : α → World Remote → Prop} (h : Part d enough P w res w')
    (henough : enough' → enough) (hpost : ∀ a t, t.server.docs.Sublist w.server.docs →
      P a t → P' a t) : Part d enough' P' w res w' :=
  ⟨h.docs, h.missing, h.missed, fun he => h.fuel (henough he),
    fun a ha => hpost a w' h.docs (h.post a ha)⟩

/-- A part that does not call the server. -/
theorem Part.of_server_eq (hw : w.server.missed = false) (hserver : w'.server = w.server)
    (hres : ∀ x, res = .threw x → x.isFileNotFound = false) (hfuel : enough → res ≠ .outOfFuel)
    (hpost : ∀ a, res = .returned a → P a w') : Part d enough P w res w' where
  docs := by rw [hserver]
  missing x hx hfnf := by
    rw [hres x hx] at hfnf
    cases hfnf
  missed hm := by
    rw [hserver, hw] at hm
    cases hm
  fuel := hfuel
  post := hpost

/-- **Two parts in sequence.** -/
theorem Part.seq {prog : Proc α} {f : α → Proc β} {res : Result Exn β}
    (hp : ∀ r t, prog.Ends (Remote.Answers isDir d).Step w r t → Part d enough P w r t)
    (hf : ∀ a t r t', P a t → t.server.docs.Sublist w.server.docs →
      t.server.missed = false → (f a).Ends (Remote.Answers isDir d).Step t r t' →
      Part d enough Q t r t')
    (h : (prog >>= f).Ends (Remote.Answers isDir d).Step w res w') :
    Part d enough Q w res w' := by
  rcases ends_seq h with ⟨a, t, ha, hfa⟩ | ⟨x, hx, rfl⟩ | ⟨hx, rfl⟩
  · have hpart := hp _ _ ha
    have hrest := hf a t res w' (hpart.post a rfl) hpart.docs
      (hpart.missed_eq_false nofun) hfa
    exact ⟨hrest.docs.trans hpart.docs, hrest.missing, hrest.missed, hrest.fuel, hrest.post⟩
  · have hpart := hp _ _ hx
    refine ⟨hpart.docs, fun y hy => ?_, fun hm => ?_, fun _ => nofun, nofun⟩
    · obtain rfl := Result.threw.inj hy
      exact hpart.missing x rfl
    · obtain ⟨hd, y, hy, hfnf⟩ := hpart.missed hm
      obtain rfl := Result.threw.inj hy
      exact ⟨hd, _, rfl, hfnf⟩
  · have hpart := hp _ _ hx
    refine ⟨hpart.docs, nofun, fun hm => ?_, fun he => absurd rfl (hpart.fuel he), nofun⟩
    obtain ⟨_, x, hx, _⟩ := hpart.missed hm
    cases hx

/-- **A call of the client.** -/
theorem part_smb {c : SmbCall} {res : Result Exn c.Value} (hw : w.server.missed = false)
    (h : (smb c).Ends (Remote.Answers isDir d).Step w res w') :
    Part d enough (fun a t => ∃ docs, docs.Sublist w.server.docs ∧
      Remote.Returns isDir c (w.server.withDocs docs) a t.server) w res w' := by
  obtain ⟨_, docs, hdocs, ⟨x, rfl, hthrows⟩ | ⟨a, rfl, hreturns⟩⟩ := ends_remote_smb h
  · rcases hthrows with ⟨p, _, hp, hfnf, ht⟩ | ⟨_, hfnf, ht⟩
    · -- Something is missing: it is `d`, or `d` is gone too, or the note is taken.
      have hnote : w'.server.missed = decide (p ≠ d ∧ d ∈ docs) := by
        rw [ht]
        simp [Remote.note, Remote.withDocs, hw]
      have hdocs' : w'.server.docs = docs := by
        rw [ht]
        rfl
      refine ⟨hdocs'.symm ▸ hdocs, fun y _ _ => ?_, fun hm => ?_, fun _ => nofun, nofun⟩
      · rw [hnote, hdocs', decide_eq_true_iff]
        by_cases hd : d ∈ docs
        · refine .inl ⟨?_, hd⟩
          rintro rfl
          exact hp hd
        · exact .inr hd
      · rw [hnote, decide_eq_true_iff] at hm
        exact ⟨hdocs'.symm ▸ hm.2, x, rfl, hfnf⟩
    · refine ⟨by rwa [ht], fun y hy hfnf' => ?_, fun hm => ?_, fun _ => nofun, nofun⟩
      · obtain rfl := Result.threw.inj hy
        rw [hfnf] at hfnf'
        cases hfnf'
      · rw [ht] at hm
        exact absurd (hw.symm.trans hm) nofun
  · have hserver : w'.server.docs.Sublist docs ∧ w'.server.missed = w.server.missed := by
      cases c with
      | stat | openDir | readDir | closeDir | unlink | rmdir =>
        simp only [Remote.Returns] at hreturns
        have ht := hreturns
        first
          | obtain ⟨_, _, _, ht⟩ := hreturns
          | obtain ⟨_, _, ht⟩ := hreturns
          | obtain ⟨_, ht⟩ := hreturns
          | skip
        rw [ht]
        exact ⟨by simp [Remote.erase, Remote.withDocs], rfl⟩
      | _ => exact hreturns.elim
    refine ⟨hserver.1.trans hdocs, nofun, fun hm => ?_, fun _ => nofun, fun b hb => ?_⟩
    · rw [hserver.2, hw] at hm
      cases hm
    · obtain rfl := Result.returned.inj hb
      exact ⟨docs, hdocs, hreturns⟩

end Parts

/-! ## The parts -/

/-- How deep and how many the documents are. -/
def Bounded (D K : ℕ) (docs : List Place) : Prop := (∀ p ∈ docs, p.2.length ≤ D) ∧ docs.length ≤ K

theorem Bounded.sublist (h : Bounded D K docs) {docs' : List Place} (hsub : docs'.Sublist docs) :
    Bounded D K docs' :=
  ⟨fun p hp => h.1 p (hsub.subset hp), hsub.length_le.trans h.2⟩

section Local

variable {dir : SmbDir} {L : List DirectoryEntry}

/-- The loop over a local listing. -/
theorem part_readChildren {acc : AList fun _ : Uri => DirectoryEntry}
    {res : Result Exn (AList fun _ : Uri => DirectoryEntry)} (hw : w.server.missed = false)
    (h : (readChildren (return u) (fun _ entry => return entry) dir n acc).Ends
      (Remote.Answers isDir d).Step w res w') :
    Part d ((w.server.pending dir).length < n) (fun children _ => ∀ k e,
      children.lookup k = some e → acc.lookup k = some e ∨
        e ∈ w.server.pending dir ∧ u.buildChildUri e = some k) w res w' := by
  induction n generalizing w acc res w' with
  | zero =>
    obtain ⟨rfl, rfl⟩ := h
    exact .of_server_eq hw rfl nofun (fun hlt => absurd hlt (Nat.not_lt_zero _)) nofun
  | succ n ih =>
    refine Part.seq (fun r t hr => part_smb hw hr) (fun a t r t' ha _ ht h => ?_) h
    obtain ⟨docs, _, hhead, hserver⟩ := ha
    have hpending : t.server.pending dir = (w.server.pending dir).tail := by
      rw [hserver]
      exact Function.update_self ..
    have hhead : a = (w.server.pending dir).head? := hhead
    cases hL : w.server.pending dir with
    | nil =>
      rw [hL] at hhead
      subst hhead
      obtain ⟨rfl, rfl⟩ := h
      refine .of_server_eq ht rfl nofun (fun _ => nofun) fun children hch k e he => .inl ?_
      obtain rfl := Result.returned.inj hch
      exact he
    | cons e L =>
      rw [hL] at hhead hpending
      subst hhead
      have henough : (e :: L).length < n + 1 → (t.server.pending dir).length < n := by
        rw [hpending, List.length_cons, List.tail_cons]
        omega
      cases hk : u.buildChildUri e with
      | none =>
        simp only [Prog.pure_bind, List.head?_cons, hk] at h
        refine (ih ht h).mono henough fun children _ _ hch k e' he' => ?_
        refine (hch k e' he').imp id fun ⟨hmem, hk'⟩ => ⟨?_, hk'⟩
        rw [hpending] at hmem
        exact List.mem_cons_of_mem e hmem
      | some k =>
        simp only [Prog.pure_bind, List.head?_cons, hk] at h
        refine (ih ht h).mono henough fun children _ _ hch k' e' he' => ?_
        rcases hch k' e' he' with hacc | ⟨hmem, hk'⟩
        · by_cases hkk : k' = k
          · subst hkk
            rw [AList.lookup_insert] at hacc
            obtain rfl := Option.some.inj hacc
            exact .inr ⟨List.mem_cons_self, hk⟩
          · rw [AList.lookup_insert_ne hkk] at hacc
            exact .inl hacc
        · rw [hpending] at hmem
          exact .inr ⟨List.mem_cons_of_mem e hmem, hk'⟩

/-- A call that names no document finds nothing missing. -/
theorem quiet_smb {c : SmbCall} {res : Result Exn c.Value} (hc : c.target = none)
    (h : (smb c).Ends (Remote.Answers isDir d).Step w res w') :
    ∀ x, res = .threw x → x.isFileNotFound = false := by
  obtain ⟨_, docs, _, ⟨x, rfl, ⟨p, hp, _⟩ | ⟨_, hfnf, _⟩⟩ | ⟨a, rfl, _⟩⟩ := ends_remote_smb h
  · cases hc.symm.trans hp
  · rintro y hy
    obtain rfl := Result.threw.inj hy
    exact hfnf
  · exact nofun

theorem quiet_readChildren {acc : AList fun _ : Uri => DirectoryEntry}
    {res : Result Exn (AList fun _ : Uri => DirectoryEntry)}
    (h : (readChildren (return u) (fun _ entry => return entry) dir n acc).Ends
      (Remote.Answers isDir d).Step w res w') :
    ∀ x, res = .threw x → x.isFileNotFound = false := by
  induction n generalizing w acc res w' with
  | zero =>
    obtain ⟨rfl, rfl⟩ := h
    exact nofun
  | succ n ih =>
    rcases ends_seq h with ⟨a, t, _, h⟩ | ⟨x, hx, rfl⟩ | ⟨_, rfl⟩
    · rcases a with _ | e
      · obtain ⟨rfl, rfl⟩ := h
        exact nofun
      · simp only [Prog.pure_bind] at h
        split at h
        · exact ih h
        · exact ih h
    · rintro y hy
      obtain rfl := Result.threw.inj hy
      exact quiet_smb rfl hx x rfl
    · exact nofun

/-- **A part with a directory open**, in which nothing is found missing. -/
theorem Part.withDir {enough : Prop} {post : α → Prop} {prog : Proc α} {res : Result Exn α}
    (hp : ∀ r t, prog.Ends (Remote.Answers isDir d).Step w r t →
      Part d enough (fun a _ => post a) w r t ∧ ∀ x, r = .threw x → x.isFileNotFound = false)
    (h : (Prog.withResource (smb (.closeDir dir)) prog).Ends
      (Remote.Answers isDir d).Step w res w') :
    Part d enough (fun a _ => post a) w res w' := by
  obtain ⟨r, t, hr, hclose⟩ := Prog.ends_withResource.mp h
  obtain ⟨hpart, hquiet⟩ := hp r t hr
  rcases hclose with ⟨rfl, rfl, rfl⟩ | ⟨hr', c, hc, rfl⟩
  · exact hpart
  have hclosed : Part d True (fun _ _ => True) t c w' :=
    (part_smb (hpart.missed_eq_false hquiet) hc).mono (fun _ => trivial) fun _ _ _ _ => trivial
  have hmissed := hclosed.missed_eq_false (quiet_smb rfl hc)
  have hthrew {x : Exn} (hx : Prog.closed r c = .threw x) : x.isFileNotFound = false := by
    rcases r with a | y | _ <;> rcases c with _ | z | _
    all_goals
      first
        | cases hx
          done
        | obtain rfl := Result.threw.inj hx
          first
            | exact hquiet _ rfl
            | exact quiet_smb rfl hc _ rfl
  refine ⟨hclosed.docs.trans hpart.docs, fun x hx hfnf => ?_, fun hm => ?_, fun he => ?_, ?_⟩
  · rw [hthrew hx] at hfnf
    cases hfnf
  · cases hmissed.symm.trans hm
  · have hc' := hclosed.fuel trivial
    rcases r with a | y | _
    · rcases c with _ | z | _
      · nofun
      · nofun
      · exact absurd rfl hc'
    · rcases c with _ | z | _
      · nofun
      · nofun
      · exact absurd rfl hc'
    · exact absurd rfl hr'
  · intro b hb
    rcases r with a | y | _ <;> rcases c with _ | z | _
    all_goals cases hb
    exact hpart.post _ rfl

/-- **A local listing** has documents of the server, one segment below
the directory. -/
theorem part_loadLocalChildren {res : Result Exn (AList fun _ : Uri => DirectoryEntry)}
    (hw : w.server.missed = false)
    (h : (loadLocalChildren n u).Ends (Remote.Answers isDir d).Step w res w') :
    Part d (Bounded D K w.server.docs ∧ K + 3 ≤ n) (fun children _ => ∀ k e,
      children.lookup k = some e → k.place ∈ w.server.docs ∧
        k.getPathSegments.length = u.getPathSegments.length + 1) w res w' := by
  refine Part.seq (fun r t hr => part_smb hw hr) (fun dir t r t' hdir _ ht h => ?_) h
  obtain ⟨docs, hdocs, _, _, rfl, hserver⟩ := hdir
  have hpending : t.server.pending (w.server.withDocs docs).opened =
      Remote.entries isDir docs u.place := by
    rw [hserver]
    exact Function.update_self ..
  refine (Part.withDir (fun r t' hr => ⟨part_readChildren ht hr, quiet_readChildren hr⟩) h).mono
    (fun ⟨hb, hn⟩ => ?_) fun children _ _ hch k e he => ?_
  · have hlen := length_entries_le isDir docs u.place
    have hle := hdocs.length_le
    have hK := hb.2
    rw [hpending]
    omega
  · rcases hch k e he with hnone | ⟨hmem, hk⟩
    · simp at hnone
    · rw [hpending] at hmem
      obtain ⟨hplace, hlen⟩ := place_of_mem_entries hmem hk
      exact ⟨hdocs.subset hplace, hlen⟩

end Local

/-- What follows a successful removal. -/
theorem ends_forget {res : Result Exn Unit}
    (h : (do
      DocumentCache.remove u
      revokeDocumentPermission u : Proc Unit).Ends (Remote.Answers isDir d).Step w res w') :
    res = .returned () ∧ w'.server = w.server := by
  obtain ⟨t, hserver, _, h⟩ := ends_seq_remove h
  simp only [revokeDocumentPermission, perform, ends_revokeDocumentPermission,
    Prog.ends_ctorPure] at h
  obtain ⟨rfl, rfl⟩ := h
  exact ⟨rfl, hserver⟩

/-- **A removal on the server**, and what follows it. -/
theorem part_erase {enough : Prop} {prog : Proc Unit} {res : Result Exn Unit}
    (hp : ∀ r t, prog.Ends (Remote.Answers isDir d).Step w r t →
      Part d enough (fun _ t => u.place ∉ t.server.docs) w r t)
    (h : (do
      prog
      DocumentCache.remove u
      revokeDocumentPermission u : Proc Unit).Ends (Remote.Answers isDir d).Step w res w') :
    Part d enough (fun _ t => u.place ∉ t.server.docs) w res w' := by
  refine Part.seq hp (fun _ t r t' hgone _ ht h => ?_) h
  obtain ⟨rfl, hserver⟩ := ends_forget h
  exact .of_server_eq ht hserver nofun (fun _ => nofun) fun _ _ => by rwa [hserver]

theorem not_mem_erase {s : Remote} : p ∉ (s.erase p).docs := by simp [Remote.erase, Remote.withDocs]

theorem part_deleteFile {enough : Prop} {res : Result Exn Unit} (hw : w.server.missed = false)
    (h : (deleteFile u).Ends (Remote.Answers isDir d).Step w res w') :
    Part d enough (fun _ t => u.place ∉ t.server.docs) w res w' := by
  refine part_erase (fun r t hr => (part_smb hw hr).mono id ?_) h
  rintro _ t _ ⟨docs, _, _, _, hserver⟩
  rw [hserver]
  exact not_mem_erase

theorem part_rmdir {enough : Prop} {res : Result Exn Unit} (hw : w.server.missed = false)
    (h : (smb (.rmdir u)).Ends (Remote.Answers isDir d).Step w res w') :
    Part d enough (fun _ t => u.place ∉ t.server.docs) w res w' := by
  refine (part_smb hw h).mono id ?_
  rintro _ t _ ⟨docs, _, _, _, _, hserver⟩
  rw [hserver]
  exact not_mem_erase

/-- **A loop of parts.** -/
theorem Part.forM {enough : Prop} {f : Uri → Proc Unit} {keys : List Uri}
    {res : Result Exn Unit} (hw : w.server.missed = false)
    (hf : ∀ k t r t', t.server.docs.Sublist w.server.docs → t.server.missed = false →
      (f k).Ends (Remote.Answers isDir d).Step t r t' →
      Part d enough (fun _ _ => True) t r t')
    (h : (keys.forM f).Ends (Remote.Answers isDir d).Step w res w') :
    Part d enough (fun _ _ => True) w res w' := by
  induction keys generalizing w res w' with
  | nil =>
    obtain ⟨rfl, rfl⟩ := h
    exact .of_server_eq hw rfl nofun (fun _ => nofun) fun _ _ => trivial
  | cons key keys ih =>
    rw [List.forM] at h
    refine Part.seq (fun r t hr => hf key w r t (List.Sublist.refl _) hw hr)
      (fun _ t r t' _ hsub ht h => ?_) h
    exact ih ht (fun k s r s' hs => hf k s r s' (hs.trans hsub)) h

/-- **The deletion of a folder.** The bound is for the depth below it and
for the longest listing. -/
theorem part_recursiveDeleteFolder {res : Result Exn Unit} (hw : w.server.missed = false)
    (h : (recursiveDeleteFolder n u).Ends (Remote.Answers isDir d).Step w res w') :
    Part d (Bounded D K w.server.docs ∧ D + 1 - u.getPathSegments.length + K + 3 < n)
      (fun _ t => u.place ∉ t.server.docs) w res w' := by
  induction n generalizing u w res w' with
  | zero =>
    obtain ⟨rfl, rfl⟩ := h
    exact .of_server_eq hw rfl nofun (fun ⟨_, hlt⟩ => absurd hlt (Nat.not_lt_zero _)) nofun
  | succ n ih =>
    refine Part.seq (fun r t hr => (part_loadLocalChildren (D := D) (K := K) hw hr).mono
      (fun ⟨hb, hn⟩ => ⟨hb, by omega⟩) fun _ _ _ => id) (fun children t r t' hch hsub ht h => ?_) h
    refine Part.seq (P := fun _ _ => True) (fun r s hr => ?_) (fun _ s r s' _ _ hs h =>
      part_erase (fun r s' hr => part_rmdir hs hr) h) h
    -- The loop over the children, each one segment deeper.
    simp only [forValues, perform, Prog.act_bind, Prog.ctorPure_bind, ends_hashOrder] at hr
    obtain ⟨keys, hr⟩ := hr
    refine Part.forM ht (fun k s r s' hs hmissed h => ?_) hr
    unfold visit at h
    split at h
    · rename_i e he
      obtain ⟨hplace, hlen⟩ := hch k e he
      rcases ends_isDirectory h with ⟨x, hx, rfl, rfl⟩ | ⟨_, h⟩ | ⟨_, h⟩
      · refine .of_server_eq hmissed rfl (fun y hy => ?_) (fun _ => nofun) nofun
        obtain rfl := Result.threw.inj hy
        exact isFileNotFound_eq_false hx
      · refine (ih hmissed h).mono (fun ⟨hb, hn⟩ => ⟨hb.sublist (hs.trans hsub), ?_⟩)
          fun _ _ _ _ => trivial
        have hdeep : k.getPathSegments.length ≤ D := hb.1 _ hplace
        omega
      · exact (part_deleteFile hmissed h).mono id fun _ _ _ _ => trivial
    · obtain ⟨rfl, rfl⟩ := h
      exact .of_server_eq hmissed rfl nofun (fun _ => nofun) fun _ _ => trivial

theorem part_fromUri {enough : Prop} {res : Result Exn DocumentMetadata}
    (hw : w.server.missed = false)
    (h : (fromUri u).Ends (Remote.Answers isDir d).Step w res w') :
    Part d enough (fun m _ => m.uri = u) w res w' := by
  unfold fromUri at h
  split at h
  · obtain ⟨rfl, rfl⟩ := h
    refine .of_server_eq hw rfl (fun y hy => ?_) (fun _ => nofun) fun _ hm => (by cases hm)
    obtain rfl := Result.threw.inj hy
    rfl
  · refine Part.seq (fun r t hr => part_smb hw hr) (fun stat t r t' _ _ ht h => ?_) h
    obtain ⟨m, huri, _, _, rfl, rfl⟩ := ends_seq_make h
    refine .of_server_eq ht rfl nofun (fun _ => nofun) fun m' hm' => ?_
    obtain rfl := Result.returned.inj hm'
    exact huri

/-- What `deleteDocument` does before its exception clauses. -/
theorem part_deleteBody {res : Result Exn Unit} (hw : w.server.missed = false)
    (h : (do
      let metadata ← fromUri u
      deleteTree n metadata
      notifyChange u.buildParentUri : Proc Unit).Ends (Remote.Answers isDir d).Step w res w') :
    Part d (Bounded D K w.server.docs ∧ D + 1 + K + 3 < n)
      (fun _ t => u.place ∉ t.server.docs) w res w' := by
  refine Part.seq (fun r t hr => part_fromUri hw hr) (fun m t r t' huri hsub ht h => ?_) h
  refine Part.seq (P := fun _ t => u.place ∉ t.server.docs) (fun r s hr => ?_)
    (fun _ s r s' hgone _ hs h => ?_) h
  · rcases ends_isDirectory hr with ⟨x, hx, rfl, rfl⟩ | ⟨_, hr⟩ | ⟨_, hr⟩
    · refine .of_server_eq ht rfl (fun y hy => ?_) (fun _ => by simp) (by simp)
      obtain rfl := Result.threw.inj hy
      exact isFileNotFound_eq_false hx
    · rw [huri] at hr
      exact (part_recursiveDeleteFolder (D := D) (K := K) ht hr).mono
        (fun hb => ⟨hb.1.sublist hsub, by omega⟩) fun _ _ _ => id
    · rw [huri] at hr
      exact part_deleteFile ht hr
  · simp only [notifyChange, perform, ends_notifyChange, Prog.ends_ctorPure] at h
    obtain ⟨rfl, rfl⟩ := h
    exact .of_server_eq hs rfl (by simp) (fun _ => by simp) fun _ _ => hgone

/-! ## The deletion -/

/-- How a deletion ends: it has returned, and either the document is gone
or the note was taken and it is there; or it has thrown, and the note was
not taken. -/
theorem ends_deleteDocument_remote {res : Result Exn Unit} (hw : w.server.missed = false)
    (hbound : Bounded D K w.server.docs) (hn : D + 1 + K + 3 < n)
    (h : (deleteDocument n u).Ends (Remote.Answers isDir u.place).Step w res w') :
    (res = .returned () ∧ (w'.server.missed = true ↔ u.place ∈ w'.server.docs)) ∨
      ((∃ x, res = .threw x) ∧ w'.server.missed = false) := by
  obtain ⟨r, t, hbody, hcaught⟩ := Prog.ends_catching.mp h
  have hpart := part_deleteBody (D := D) (K := K) hw hbody
  rcases r with _ | x | _
  · obtain ⟨rfl, rfl⟩ := hcaught
    exact .inl ⟨rfl, fun hm => (hpart.missed hm).1, fun hd => absurd hd (hpart.post () rfl)⟩
  · have hthrew (hfnf : x.isFileNotFound = false) : t.server.missed = false := by
      refine hpart.missed_eq_false fun y hy => ?_
      obtain rfl := Result.threw.inj hy
      exact hfnf
    change if x.isIOException then _ else _ at hcaught
    split at hcaught
    · change Prog.Ends _ (if x.isFileNotFound then _ else _) t res w' at hcaught
      split at hcaught
      · -- The news is believed.
        rename_i hfnf
        obtain ⟨s, hserver, _, hcaught⟩ := ends_seq_remove hcaught
        simp only [notifyChange, perform, ends_notifyChange, Prog.ends_ctorPure] at hcaught
        obtain ⟨rfl, rfl⟩ := hcaught
        rw [hserver]
        exact .inl ⟨rfl, fun hm => (hpart.missed hm).1,
          fun hd => (hpart.missing x rfl hfnf).resolve_right (absurd hd)⟩
      · rename_i hfnf
        obtain ⟨rfl, rfl⟩ := hcaught
        exact .inr ⟨⟨_, rfl⟩, hthrew (by simpa using hfnf)⟩
    · rename_i hio
      obtain ⟨rfl, rfl⟩ := hcaught
      exact .inr ⟨⟨_, rfl⟩, hthrew (isFileNotFound_eq_false (by simpa using hio))⟩
  · exact absurd rfl (hpart.fuel ⟨hbound, hn⟩)

/-- A bound on the loops of a deletion that is enough for the documents. -/
def enoughFuel (docs : List Place) : ℕ := (docs.map fun p => p.2.length).sum + docs.length + 5

theorem bounded_docs (docs : List Place) :
    Bounded (docs.map fun p => p.2.length).sum docs.length docs :=
  ⟨fun _ hp => List.le_sum_of_mem (List.mem_map_of_mem hp), le_rfl⟩

/-- **A reported deletion is a real one unless something else was
missing.** A deletion returns with the document gone or throws, if and
only if no call has found another document missing with this one there,
or another client has removed this one since. -/
theorem reported_iff {docs docs' : List Place} {s : Store} {fuel : ℕ} {res : Result Exn Unit}
    (hfuel : enoughFuel docs ≤ fuel)
    (h : (deleteDocument fuel u).Ends (Remote.Answers isDir u.place).Step ⟨s, .start docs⟩ res w')
    (hsub : List.Sublist docs' w'.server.docs) :
    (res = .returned () ∧ u.place ∉ docs' ∨ ∃ x, res = .threw x) ↔
      (w'.server.missed = false ∨ u.place ∈ w'.server.docs ∧ u.place ∉ docs') := by
  unfold enoughFuel at hfuel
  rcases ends_deleteDocument_remote (w := ⟨s, .start docs⟩) rfl (bounded_docs docs) (by omega) h
    with ⟨rfl, hiff⟩ | ⟨⟨x, rfl⟩, hmissed⟩
  · constructor
    · rintro (⟨_, hgone⟩ | ⟨x, hx⟩)
      · by_cases hd : u.place ∈ w'.server.docs
        · exact .inr ⟨hd, hgone⟩
        · exact .inl (Bool.eq_false_iff.mpr fun hm => hd (hiff.mp hm))
      · cases hx
    · rintro (hmissed | ⟨_, hgone⟩)
      · refine .inl ⟨rfl, fun hmem => ?_⟩
        have hm := hiff.mpr (hsub.subset hmem)
        cases hmissed.symm.trans hm
      · exact .inl ⟨rfl, hgone⟩
  · exact ⟨fun _ => .inl hmissed, fun _ => .inr ⟨x, rfl⟩⟩

/-- A directory with one file in it. -/
def sampleDocs : List Place := [(inHomes "a").place, ((inHomes "a").appendPath "b").place]

/-- Its deletion, with what other clients remove before each call. -/
def sampleDeletion (gone : SmbCall → List Place) : Result Exn Unit × World Remote :=
  (deleteDocument 12 (inHomes "a")).run
    (runEffect (Remote.answer (· = (inHomes "a").place) (inHomes "a").place gone))
    ⟨emptyStore, .start sampleDocs⟩

theorem ends_sampleDeletion (gone : SmbCall → List Place) :
    (deleteDocument 12 (inHomes "a")).Ends
      (Remote.Answers (· = (inHomes "a").place) (inHomes "a").place).Step
      ⟨emptyStore, .start sampleDocs⟩ (sampleDeletion gone).1 (sampleDeletion gone).2 :=
  Prog.ends_run (step_runEffect answers_answer_remote)

/-- Nobody interferes: the directory is gone. -/
theorem reported_undisturbed :
    (sampleDeletion fun _ => []).1 = .returned () ∧
      (inHomes "a").place ∉ (sampleDeletion fun _ => []).2.server.docs := by
  have hiff := reported_iff (by decide) (ends_sampleDeletion fun _ => [])
    (List.Sublist.refl _)
  rcases hiff.mpr (.inl (by decide)) with h | ⟨x, hx⟩
  · exact h
  · have hreturned : (sampleDeletion fun _ => []).1 = .returned () := by decide
    cases hreturned.symm.trans hx

/-- **A deletion is reported that did not happen**: another client has
removed the file before the deletion could. -/
theorem not_reported_childGone : ∃ res w',
    (deleteDocument 12 (inHomes "a")).Ends
      (Remote.Answers (· = (inHomes "a").place) (inHomes "a").place).Step
      ⟨emptyStore, .start sampleDocs⟩ res w' ∧
      res = .returned () ∧ (inHomes "a").place ∈ w'.server.docs :=
  ⟨_, _, ends_sampleDeletion fun c =>
    if c = .unlink ((inHomes "a").appendPath "b") then [((inHomes "a").appendPath "b").place]
    else [], by decide, by decide⟩

end SambaProvider

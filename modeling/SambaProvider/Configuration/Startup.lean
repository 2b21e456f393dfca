import SambaProvider.Configuration.SambaConfiguration

/-!
# The configuration from one start to the next

`SambaProviderApplication.initializeSambaConf`: at its start the application
reads a newer file of the user's and writes it out again, or writes its
defaults where there is no file yet. What is read is always written so that it
is read back, so the two files behave as the maps they stand for. A write that
is cut off cuts the last value short, and is never repeated.
-/

namespace SambaProvider

open Lib

namespace SambaConfiguration

/-! ## What was read is read back -/

variable {line : List Char} {key value : String} {file : List Char} {entry : String × String}
variable {entries : List (String × String)}

/-- The lines have no line ends in them. -/
theorem oneLine_of_mem_readLines {skipLF : Bool} (h : line ∈ readLines skipLF file) :
    '\n' ∉ line ∧ '\r' ∉ line := by
  induction file generalizing skipLF line with
  | nil => cases h
  | cons c cs ih =>
    rw [readLines] at h
    split at h
    · split at h
      · exact ih h
      · rcases List.mem_cons.mp h with rfl | h
        · exact ⟨List.not_mem_nil, List.not_mem_nil⟩
        · exact ih h
    · rename_i hlf
      split at h
      · rcases List.mem_cons.mp h with rfl | h
        · exact ⟨List.not_mem_nil, List.not_mem_nil⟩
        · exact ih h
      · rename_i hcr
        split at h
        · rw [List.mem_singleton.mp h, List.mem_singleton, List.mem_singleton]
          exact ⟨Ne.symm hlf, Ne.symm hcr⟩
        · rename_i first rest hlines
          have hfirst := ih (by rw [hlines]; exact List.mem_cons_self)
          rcases List.mem_cons.mp h with rfl | h
          · simp only [List.mem_cons, not_or]
            exact ⟨⟨Ne.symm hlf, hfirst.1⟩, Ne.symm hcr, hfirst.2⟩
          · exact ih (by rw [hlines]; exact List.mem_cons_of_mem _ h)

/-- What is cut off has no separator in it, and does not end with the
beginning of one. -/
theorem of_cut {before behind : List Char} (h : cut separator line = some (before, behind)) :
    ¬ separator <:+: before ∧ ¬ [' ', '='] <:+ before := by
  have hline := cut_eq_some h
  constructor
  · rintro ⟨a, b, rfl⟩
    have hsooner : line = a ++ (separator ++ (b ++ (separator ++ behind))) := by
      rw [hline]
      simp only [List.append_assoc]
    obtain ⟨before', behind', hcut, hle⟩ := cut_first separator_ne_nil hsooner
    rw [h] at hcut
    cases hcut
    simp only [List.length_append, separator, List.length_cons] at hle
    omega
  · rintro ⟨a, rfl⟩
    have hsooner : line = a ++ (separator ++ ('=' :: ' ' :: behind)) := by
      rw [hline]
      simp [separator]
    obtain ⟨before', behind', hcut, hle⟩ := cut_first separator_ne_nil hsooner
    rw [h] at hcut
    cases hcut
    simp only [List.length_append, List.length_cons] at hle
    omega

/-- The first piece of a text is its beginning, and has no separator in
it. -/
theorem of_head?_pieces {first : List Char} (h : (pieces separator line).head? = some first) :
    first <+: line ∧ ¬ separator <:+: first := by
  cases hcut : cut separator line with
  | none =>
    rw [pieces_of_cut_eq_none hcut] at h
    rw [← Option.some.inj h]
    exact ⟨List.prefix_refl _, (cut_eq_none_iff separator_ne_nil).mp hcut⟩
  | some p =>
    obtain ⟨before, behind⟩ := p
    rw [pieces_of_cut separator_ne_nil hcut] at h
    rw [← Option.some.inj h]
    exact ⟨⟨_, (cut_eq_some hcut).symm⟩, (of_cut hcut).1⟩

/-- **What is read from a line** is regular, whatever the line is. -/
theorem regular_of_confOf_eq (h : confOf line = some (key, value)) :
    Regular (key, value) ∧ ¬ separator <:+: key.toList := by
  obtain ⟨behind, hcut, hhead, hne⟩ := confOf_eq_some h
  obtain ⟨hkey, hends⟩ := of_cut hcut
  exact ⟨⟨hends, hne, (of_head?_pieces hhead).2⟩, hkey⟩

/-- And it is in the line. -/
theorem oneLine_of_confOf (h : confOf line = some (key, value))
    (hline : '\n' ∉ line ∧ '\r' ∉ line) : OneLine key ∧ OneLine value := by
  obtain ⟨behind, hcut, hhead, -⟩ := confOf_eq_some h
  have hpart := (of_head?_pieces hhead).1
  rw [cut_eq_some hcut] at hline
  have hkey (c : Char) (hc : c ∈ key.toList) : c ∈ key.toList ++ (separator ++ behind) :=
    List.mem_append_left _ hc
  have hvalue (c : Char) (hc : c ∈ value.toList) : c ∈ key.toList ++ (separator ++ behind) :=
    List.mem_append_right _ (List.mem_append_right _ (hpart.subset hc))
  exact ⟨⟨fun hc => hline.1 (hkey _ hc), fun hc => hline.2 (hkey _ hc)⟩,
    fun hc => hline.1 (hvalue _ hc), fun hc => hline.2 (hvalue _ hc)⟩

/-- **Settings as they are written**: distinct keys, and each is regular and
fits in its line. -/
structure Written (entries : List (String × String)) : Prop where
  nodup : (entries.map Prod.fst).Nodup
  regular : ∀ e ∈ entries, Regular e ∧ ¬ separator <:+: e.1.toList
  oneLine : ∀ e ∈ entries, OneLine e.1 ∧ OneLine e.2

/-- The settings of a map. -/
def settings (configurations : AList fun _ : String => String) : List (String × String) :=
  configurations.entries.map fun e => (e.1, e.2)

theorem mem_settings {configurations : AList fun _ : String => String} :
    (key, value) ∈ settings configurations ↔ configurations.lookup key = some value := by
  rw [← Option.mem_def, AList.mem_lookup_iff, settings, List.mem_map]
  constructor
  · rintro ⟨e, he, heq⟩
    cases heq
    exact he
  · intro h
    exact ⟨_, h, rfl⟩

theorem nodup_settings {configurations : AList fun _ : String => String} :
    ((settings configurations).map Prod.fst).Nodup := by
  rw [settings, List.map_map]
  exact configurations.keys_nodup

/-- **What is read can be written**, in any order. -/
theorem written_read (h : entries.Perm (settings (read file))) : Written entries := by
  have hline (e : String × String) (he : e ∈ entries) :
      ∃ line ∈ readLines false file, confOf line = some e := by
    rcases exists_of_lookup_foldl (mem_settings.mp (h.mem_iff.mp he)) with hline | hempty
    · exact hline
    · cases hempty
  refine ⟨((h.map Prod.fst).nodup_iff).mpr nodup_settings, fun e he => ?_, fun e he => ?_⟩
  · obtain ⟨line, -, hconf⟩ := hline e he
    exact regular_of_confOf_eq hconf
  · obtain ⟨line, hmem, hconf⟩ := hline e he
    exact oneLine_of_confOf hconf (oneLine_of_mem_readLines hmem)

/-- **What is written is read back.** -/
theorem Written.lookup_read_write (h : Written entries) :
    (read (write entries)).lookup key = some value ↔ (key, value) ∈ entries := by
  rw [read, readLines_write h.oneLine, foldl_readLine fun e he =>
    confOf_lineOf (h.regular e he).1 (h.regular e he).2, lookup_foldl_insert_iff h.nodup]
  simp

/-- **A file that is read and written is read as before.** -/
theorem lookup_read_write_read (h : entries.Perm (settings (read file))) :
    (read (write entries)).lookup key = (read file).lookup key :=
  Option.ext fun value => by
    rw [(written_read h).lookup_read_write, h.mem_iff, mem_settings]

/-! ## A write that is cut off -/

/-- The line a write is cut off in. -/
theorem confOf_of_isPrefix {part : List Char} (h : Regular entry ∧ ¬ separator <:+: entry.1.toList)
    (hpart : part <+: lineOf entry) (hconf : confOf part = some (key, value)) :
    key = entry.1 ∧ value.toList <+: entry.2.toList := by
  obtain ⟨behind, hcut, hhead, -⟩ := confOf_eq_some hconf
  obtain ⟨more, hmore⟩ := hpart
  have hline := cut_append hcut more
  rw [hmore, cut_lineOf h.2 h.1.1] at hline
  obtain ⟨hkey, hvalue⟩ := Prod.mk.inj (Option.some.inj hline)
  refine ⟨(String.toList_inj.mp hkey).symm, ?_⟩
  rw [hvalue]
  exact (of_head?_pieces hhead).1.trans (List.prefix_append _ _)

/-- A text without line ends is one line, if there is any of it. -/
theorem readLines_of_oneLine (hline : '\n' ∉ line ∧ '\r' ∉ line) :
    readLines false line = if line = [] then [] else [line] := by
  induction line with
  | nil => rfl
  | cons c line ih =>
    simp only [List.mem_cons, not_or] at hline
    rw [readLines, if_neg (Ne.symm hline.1.1), if_neg (Ne.symm hline.2.1),
      ih ⟨hline.1.2, hline.2.2⟩, if_neg (List.cons_ne_nil c line)]
    cases line <;> rfl

/-- **The lines of a write that is cut off** are those of the first settings,
and perhaps the beginning of one more. -/
theorem readLines_take_write (h : ∀ e ∈ entries, OneLine e.1 ∧ OneLine e.2) (n : ℕ) :
    ∃ whole rest, entries = whole ++ rest ∧
      (readLines false ((write entries).take n) = whole.map lineOf ∨
        ∃ e part, rest.head? = some e ∧ part <+: lineOf e ∧
          readLines false ((write entries).take n) = whole.map lineOf ++ [part]) := by
  induction entries generalizing n with
  | nil =>
    refine ⟨[], [], rfl, .inl ?_⟩
    rw [write, List.flatMap_nil, List.take_nil]
    rfl
  | cons e entries ih =>
    obtain ⟨⟨hkey, hkey'⟩, hvalue, hvalue'⟩ := h e List.mem_cons_self
    have hline : '\n' ∉ lineOf e ∧ '\r' ∉ lineOf e := by
      simp [lineOf, separator, hkey, hkey', hvalue, hvalue']
    have hwrite : write (e :: entries) = lineOf e ++ '\n' :: write entries := by
      simp [write]
    rw [hwrite]
    rcases Nat.lt_or_ge (lineOf e).length n with hlt | hle
    · obtain ⟨m, rfl⟩ := Nat.exists_eq_add_of_lt hlt
      rw [Nat.add_assoc, List.take_length_add_append, List.take_succ_cons, readLines_line hline]
      obtain ⟨whole, rest, rfl, hlines⟩ := ih (fun x hx => h x (List.mem_cons_of_mem e hx)) m
      refine ⟨e :: whole, rest, rfl, hlines.imp (fun hlines => ?_) ?_⟩
      · rw [hlines, List.map_cons]
      · rintro ⟨e', part, hhead, hpart, hlines⟩
        exact ⟨e', part, hhead, hpart, by rw [hlines, List.map_cons, List.cons_append]⟩
    · have hpart : (lineOf e).take n <+: lineOf e := List.take_prefix _ _
      rw [List.take_append_of_le_length hle, readLines_of_oneLine
        ⟨fun hc => hline.1 (hpart.subset hc), fun hc => hline.2 (hpart.subset hc)⟩]
      refine ⟨[], e :: entries, rfl, ?_⟩
      split
      · exact .inl rfl
      · exact .inr ⟨e, _, rfl, hpart, rfl⟩

/-- **A write that is cut off** invents no setting: it leaves some out, and
may cut the value of one short. -/
theorem Written.lookup_read_take (h : Written entries) (n : ℕ) :
    ∃ short, ∀ key value, (read ((write entries).take n)).lookup key = some value →
      ∃ whole, (key, whole) ∈ entries ∧ value.toList <+: whole.toList ∧
        (key ≠ short → value = whole) := by
  obtain ⟨first, rest, rfl, hlines⟩ := readLines_take_write h.oneLine n
  -- what is read from the line of a setting
  have hwhole {key value : String} {line : List Char} (hmem : line ∈ first.map lineOf)
      (hconf : confOf line = some (key, value)) : (key, value) ∈ first ++ rest := by
    obtain ⟨e, he, rfl⟩ := List.mem_map.mp hmem
    have hregular := h.regular e (List.mem_append_left rest he)
    rw [confOf_lineOf hregular.1 hregular.2] at hconf
    cases hconf
    exact List.mem_append_left rest he
  rcases hlines with hlines | ⟨e, part, hhead, hpart, hlines⟩
  · refine ⟨"", fun key value hlookup => ?_⟩
    rcases exists_of_lookup_foldl hlookup with ⟨line, hmem, hconf⟩ | hempty
    · rw [hlines] at hmem
      exact ⟨value, hwhole hmem hconf, List.prefix_refl _, fun _ => rfl⟩
    · cases hempty
  · refine ⟨e.1, fun key value hlookup => ?_⟩
    rcases exists_of_lookup_foldl hlookup with ⟨line, hmem, hconf⟩ | hempty
    · rw [hlines] at hmem
      rcases List.mem_append.mp hmem with hmem | hmem
      · exact ⟨value, hwhole hmem hconf, List.prefix_refl _, fun _ => rfl⟩
      · rw [List.mem_singleton.mp hmem] at hconf
        have he : e ∈ first ++ rest := List.mem_append_right first (List.mem_of_mem_head? hhead)
        obtain ⟨rfl, hvalue⟩ := confOf_of_isPrefix (h.regular e he) hpart hconf
        exact ⟨e.2, he, hvalue, fun hne => absurd rfl hne⟩
    · cases hempty

/-! ## The code -/

/-- A file, and when it was last modified. -/
structure TextFile where
  text : List Char
  lastModified : ℕ

/-- What `flushDefault` puts into the map. -/
def defaults : AList fun _ : String => String :=
  ((AList.insert "name resolve order" "wins bcast hosts" ∅).insert
    "client min protocol" "SMB2").insert "client max protocol" "SMB3"

/-- The tasks of a start. -/
inductive StartTask
  | sync
  | flush
deriving DecidableEq, Repr

/-- How a task ends: its file is written, or cannot be opened, or only so many
characters of it are written when the process ends. -/
inductive Fate
  | done
  | refused
  | cutOff (written : ℕ)

/-- The user's file, the application's own, and the task of this process that
has not begun. -/
structure Startup where
  external : Option TextFile
  internal : Option TextFile
  pending : Option StartTask

namespace Startup

/-- What happens: the user changes the file, the application starts, its task
runs, or the process ends before it does. -/
inductive Act
  | edit (file : Option TextFile)
  | start
  | runTask (now : ℕ) (fate : Fate)
  | stop

/-- `lastModified`; a file that is not there has zero. -/
def lastModified (file : Option TextFile) : ℕ := file.elim 0 TextFile.lastModified

/-- `initializeSambaConf`, with `syncFromExternal` and `flushDefault`. -/
def initializeSambaConf (s : Startup) : Startup :=
  if s.external.isSome ∧ lastModified s.internal < lastModified s.external then
    { s with pending := some .sync }
  else if s.internal.isNone then { s with pending := some .flush }
  else { s with pending := none }

/-- The map a task writes: `read` of the user's file, which may be gone, or
the defaults. -/
def configurations (s : Startup) : StartTask → Option (AList fun _ : String => String)
  | .sync => s.external.map fun file => read file.text
  | .flush => some defaults

variable (order : List (String × String) → List (String × String))

/-- `write`, in the order the map is iterated in. -/
def text (configurations : AList fun _ : String => String) : List Char :=
  write (order (settings configurations))

/-- `SyncTask` and `FlushTask`. -/
def runTask (s : Startup) (now : ℕ) (fate : Fate) : Startup :=
  match s.pending.bind s.configurations, fate with
  | none, _ => { s with pending := none }
  | some _, .refused => { s with pending := none }
  | some c, .done => { s with internal := some ⟨text order c, now⟩, pending := none }
  | some c, .cutOff n =>
    { s with internal := some ⟨(text order c).take n, now⟩, pending := none }

/-- One event. -/
def step (s : Startup) : Act → Startup
  | .edit file => { s with external := file }
  | .start => s.initializeSambaConf
  | .runTask now fate => s.runTask order now fate
  | .stop => { s with pending := none }

/-- So many events. -/
def run (s : Startup) (acts : List Act) : Startup := acts.foldl (step order) s

end Startup

theorem Written.perm {entries' : List (String × String)} (h : Written entries)
    (hperm : entries'.Perm entries) : Written entries' where
  nodup := ((hperm.map Prod.fst).nodup_iff).mpr h.nodup
  regular e he := h.regular e (hperm.mem_iff.mp he)
  oneLine e he := h.oneLine e (hperm.mem_iff.mp he)

/-- The defaults can be written. -/
theorem written_defaults : Written (settings defaults) where
  nodup := nodup_settings
  regular := by
    unfold Regular
    decide
  oneLine := by
    unfold OneLine
    decide

/-! ## What the files stand for -/

/-- The settings of a file. -/
def TextFile.view (file : TextFile) : (String → Option String) × ℕ :=
  (fun key => (read file.text).lookup key, file.lastModified)

/-- **The start without texts**: the settings in the user's file and in the
application's own. -/
structure Settled where
  external : Option ((String → Option String) × ℕ)
  internal : Option ((String → Option String) × ℕ)
  pending : Option StartTask

namespace Settled

/-- A newer map is to be copied; the defaults are for where there is none. -/
def start (s : Settled) : Settled :=
  if s.external.isSome ∧ s.internal.elim 0 Prod.snd < s.external.elim 0 Prod.snd then
    { s with pending := some .sync }
  else if s.internal.isNone then { s with pending := some .flush }
  else { s with pending := none }

/-- The settings are copied as they are. -/
def copy (s : Settled) (now : ℕ) : Settled :=
  match s.pending with
  | none => s
  | some .sync =>
    { s with internal := (s.external.map fun e => (e.1, now)).or s.internal, pending := none }
  | some .flush =>
    { s with internal := some (fun key => defaults.lookup key, now), pending := none }

/-- One event. -/
def step (s : Settled) : Startup.Act → Settled
  | .edit file => { s with external := file.map TextFile.view }
  | .start => s.start
  | .runTask now .done => s.copy now
  | .runTask _ _ => { s with pending := none }
  | .stop => { s with pending := none }

def run (s : Settled) (acts : List Startup.Act) : Settled := acts.foldl step s

end Settled

namespace Startup

variable {order : List (String × String) → List (String × String)} {s : Startup} {now : ℕ}

/-- What the files of a start stand for. -/
def view (s : Startup) : Settled :=
  ⟨s.external.map TextFile.view, s.internal.map TextFile.view, s.pending⟩

/-- The event does not cut a write off. -/
def Act.Whole : Act → Prop
  | .runTask _ (.cutOff _) => False
  | _ => True

/-- The event does not touch the user's file. -/
def Act.Edits : Act → Prop
  | .edit _ => True
  | _ => False

/-- **What a task writes is read back.** -/
theorem lookup_read_text (horder : ∀ entries, (order entries).Perm entries) {task : StartTask}
    {c : AList fun _ : String => String} (h : s.configurations task = some c) (key : String) :
    (read (text order c)).lookup key = c.lookup key := by
  cases task with
  | sync =>
    obtain ⟨file, -, rfl⟩ := Option.map_eq_some_iff.mp h
    exact lookup_read_write_read (horder _)
  | flush =>
    obtain rfl := Option.some.inj h
    refine Option.ext fun value => ?_
    rw [text, (written_defaults.perm (horder _)).lookup_read_write, (horder _).mem_iff,
      mem_settings]

theorem view_initializeSambaConf : s.initializeSambaConf.view = s.view.start := by
  obtain ⟨external, internal, pending⟩ := s
  unfold initializeSambaConf Settled.start
  cases external <;> cases internal <;> simp only [view, lastModified, Option.map_none,
    Option.map_some, Option.elim_none, Option.elim_some, Option.isSome_none, Option.isSome_some,
    Option.isNone_none, Option.isNone_some, TextFile.view]
  · rfl
  · rfl
  · split <;> rfl
  · split <;> rfl

/-- The file that a task writes stands for its map. -/
theorem view_text (horder : ∀ entries, (order entries).Perm entries) {task : StartTask}
    {c : AList fun _ : String => String} (h : s.configurations task = some c) :
    TextFile.view ⟨text order c, now⟩ = (fun key => c.lookup key, now) :=
  Prod.ext (funext fun key => lookup_read_text horder h key) rfl

theorem view_runTask (horder : ∀ entries, (order entries).Perm entries) :
    (s.runTask order now .done).view = s.view.copy now := by
  unfold runTask
  cases hconf : s.pending.bind s.configurations with
  | none =>
    cases hpending : s.pending with
    | none => simp only [view, Settled.copy, hpending]
    | some task =>
      have hnone := Option.bind_eq_none_iff.mp hconf task hpending
      cases task with
      | sync =>
        have hgone := Option.map_eq_none_iff.mp hnone
        simp only [view, Settled.copy, hpending, hgone, Option.map_none, Option.none_or]
      | flush => cases hnone
  | some c =>
    obtain ⟨task, hpending, hc⟩ := Option.bind_eq_some_iff.mp hconf
    simp only [view, Option.map_some, view_text horder hc, Settled.copy, hpending]
    cases task with
    | sync =>
      obtain ⟨file, hfile, rfl⟩ := Option.map_eq_some_iff.mp hc
      rw [hfile]
      rfl
    | flush =>
      obtain rfl := Option.some.inj hc
      rfl

/-- **The files are the maps they stand for**: in every run whose writes are
whole, what the application's own file says is what was copied. -/
theorem view_run_of_whole (horder : ∀ entries, (order entries).Perm entries) (s : Startup)
    {acts : List Act} (hwhole : ∀ a ∈ acts, a.Whole) :
    (s.run order acts).view = s.view.run acts := by
  induction acts generalizing s with
  | nil => rfl
  | cons a acts ih =>
    rw [List.forall_mem_cons] at hwhole
    have hstep : (s.step order a).view = s.view.step a := by
      cases a with
      | edit file => rfl
      | start => exact view_initializeSambaConf
      | stop => rfl
      | runTask now fate =>
        cases fate with
        | done => exact view_runTask horder
        | refused =>
          change (s.runTask order now .refused).view = _
          unfold runTask
          cases s.pending.bind s.configurations <;> rfl
        | cutOff n => exact absurd hwhole.1 id
    have hrun := ih (s.step order a) hwhole.2
    rw [hstep] at hrun
    exact hrun

/-- A file of the user's. -/
def userFile : TextFile := ⟨"workgroup = HOME\nguest ok =\n".toList, 5⟩

/-- The application starts, the user changes the file, and it starts again. -/
theorem view_run_of_whole_userFile :
    (run id ⟨none, none, none⟩ [.start, .runTask 3 .done, .edit (some userFile), .start,
      .runTask 7 .done]).view =
      (view ⟨none, none, none⟩).run [.start, .runTask 3 .done, .edit (some userFile), .start,
        .runTask 7 .done] :=
  view_run_of_whole (fun entries => List.Perm.refl entries) _ (by
    simp only [List.forall_mem_cons, Act.Whole, List.not_mem_nil, false_implies, implies_true,
      and_self])

/-- Where the application's own file is not older, nothing is done. -/
theorem step_of_le {file : TextFile} {left : List Char} (hnow : file.lastModified ≤ now) {a : Act}
    (ha : ¬ a.Edits) :
    step order ⟨some file, some ⟨left, now⟩, none⟩ a = ⟨some file, some ⟨left, now⟩, none⟩ := by
  cases a with
  | edit file => exact absurd trivial ha
  | start =>
    have hold : ¬ ((some file).isSome ∧
        lastModified (some ⟨left, now⟩) < lastModified (some file)) :=
      fun h => Nat.not_lt.mpr hnow h.2
    change initializeSambaConf _ = _
    unfold initializeSambaConf
    rw [if_neg hold, if_neg (by simp)]
  | runTask now' fate => rfl
  | stop => rfl

/-- **A sync that is cut off is not repeated**: the application's own file is
the beginning of the text that was to be written, and stays so until the user's
file changes again, however often the application starts. The settings in it
are those of the user's file, but for those that are left out and for one value
that is cut short. -/
theorem run_of_cutOff (horder : ∀ entries, (order entries).Perm entries) {file : TextFile} {n : ℕ}
    (hpending : s.pending = some .sync) (hfile : s.external = some file)
    (hnow : file.lastModified ≤ now) {acts : List Act} (hacts : ∀ a ∈ acts, ¬ a.Edits) :
    ((s.step order (.runTask now (.cutOff n))).run order acts).internal =
        some ⟨(text order (read file.text)).take n, now⟩ ∧
      ∃ short, ∀ key value, (read ((text order (read file.text)).take n)).lookup key = some value →
        ∃ whole, (read file.text).lookup key = some whole ∧ value.toList <+: whole.toList ∧
          (key ≠ short → value = whole) := by
  constructor
  · have hcut : s.step order (.runTask now (.cutOff n)) =
        ⟨some file, some ⟨(text order (read file.text)).take n, now⟩, none⟩ := by
      have hconf : s.pending.bind s.configurations = some (read file.text) := by
        rw [hpending, Option.bind_some, configurations, hfile, Option.map_some]
      change s.runTask order now (.cutOff n) = _
      unfold runTask
      rw [hconf, hfile]
    have hstays : run order ⟨some file, some ⟨(text order (read file.text)).take n, now⟩, none⟩
        acts = ⟨some file, some ⟨(text order (read file.text)).take n, now⟩, none⟩ := by
      induction acts with
      | nil => rfl
      | cons a acts ih =>
        rw [List.forall_mem_cons] at hacts
        rw [run, List.foldl_cons, step_of_le hnow hacts.1, ← run, ih hacts.2]
    rw [hcut, hstays]
  · obtain ⟨short, hshort⟩ := (written_read (horder _)).lookup_read_take n
    refine ⟨short, fun key value hlookup => ?_⟩
    obtain ⟨whole, hmem, hvalue⟩ := hshort key value hlookup
    exact ⟨whole, mem_settings.mp ((horder _).mem_iff.mp hmem), hvalue⟩

/-- The process ends within the value, and the application starts again. -/
theorem run_of_cutOff_userFile :
    ((step id ⟨some userFile, none, some .sync⟩ (.runTask 7 (.cutOff 14))).run id
      [.start, .runTask 9 .done]).internal = some ⟨"workgroup = HO".toList, 7⟩ ∧
    (read "workgroup = HO".toList).lookup "workgroup" = some "HO" ∧
    ∃ short, ∀ key value, (read "workgroup = HO".toList).lookup key = some value →
      ∃ whole, (read userFile.text).lookup key = some whole ∧ value.toList <+: whole.toList ∧
        (key ≠ short → value = whole) := by
  have htext : (text id (read userFile.text)).take 14 = "workgroup = HO".toList := by decide +kernel
  have horder (entries : List (String × String)) : (id entries).Perm entries := .refl entries
  have hacts : ∀ a ∈ [Act.start, .runTask 9 .done], ¬ a.Edits := by simp [Act.Edits]
  obtain ⟨hinternal, hshort⟩ := run_of_cutOff (s := ⟨some userFile, none, some .sync⟩) (n := 14)
    horder rfl rfl (by decide : userFile.lastModified ≤ 7) hacts
  rw [htext] at hinternal hshort
  exact ⟨hinternal, by decide +kernel, hshort⟩

end Startup

end SambaConfiguration

end SambaProvider

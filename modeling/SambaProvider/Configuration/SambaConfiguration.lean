import Mathlib.Data.List.AList
import SambaProvider.Lib.Pieces

/-!
# The configuration file

`SambaConfiguration.java`: the map of settings is written as lines of a
key, a separator and a value, and read by splitting the lines. A line is
kept only if it has two parts: a setting that is empty, or has the
separator in it, is lost; and a key that ends with the beginning of the
separator is cut too early.
-/

namespace SambaProvider

open Lib

namespace SambaConfiguration

/-- `CONF_KEY_VALUE_SEPARATOR`. -/
def separator : List Char := [' ', '=', ' ']

/-! ## Writing and reading -/

/-- A line of the file. -/
def lineOf (entry : String × String) : List Char :=
  entry.1.toList ++ (separator ++ entry.2.toList)

/-- `write`: the text of the file, the map being iterated in the order of
the list. -/
def write (entries : List (String × String)) : List Char :=
  entries.flatMap fun entry => lineOf entry ++ ['\n']

/-- The lines `readLine` hands out, with the flag that makes the reader
pass over a line feed behind a carriage return. -/
def readLines : Bool → List Char → List (List Char)
  | _, [] => []
  | skipLF, c :: cs =>
    if c = '\n' then
      if skipLF then readLines false cs else [] :: readLines false cs
    else if c = '\r' then [] :: readLines true cs
    else
      match readLines false cs with
      | [] => [[c]]
      | line :: lines => (c :: line) :: lines

/-- `line.split(" = ")`. -/
def splitLine (line : List Char) : List (List Char) :=
  match cut separator line with
  | none => [line]
  | some _ => dropTrailing (pieces separator line)

/-- The setting of a line, if it has two parts. -/
def confOf (line : List Char) : Option (String × String) :=
  match splitLine line with
  | [key, value] => some (String.ofList key, String.ofList value)
  | _ => none

/-- The body of the loop of `read`. -/
def readLine (configurations : AList fun _ : String => String) (line : List Char) :
    AList fun _ : String => String :=
  match confOf line with
  | some conf => configurations.insert conf.1 conf.2
  | none => configurations

/-- `read`. -/
def read (file : List Char) : AList fun _ : String => String :=
  (readLines false file).foldl readLine ∅

end SambaConfiguration

/-- No line terminator is in the text. -/
def OneLine (s : String) : Prop := '\n' ∉ s.toList ∧ '\r' ∉ s.toList

/-- **A map of settings**, in the order it is iterated in. -/
structure Configurations where
  entries : List (String × String)
  nodup : (entries.map Prod.fst).Nodup
  key_ne : ∀ e ∈ entries, e.1 ≠ ""
  key_oneLine : ∀ e ∈ entries, OneLine e.1
  value_oneLine : ∀ e ∈ entries, OneLine e.2
  not_separator : ∀ e ∈ entries, ¬ SambaConfiguration.separator <:+: e.1.toList

namespace SambaConfiguration

/-- **The file round-trips**: what is read is what was written, and nothing
else. -/
def RoundTrips (c : Configurations) : Prop :=
  ∀ key value, (read (write c.entries)).lookup key = some value ↔ (key, value) ∈ c.entries

/-- A setting that is cut where it should be. -/
def Regular (entry : String × String) : Prop :=
  ¬ [' ', '='] <:+ entry.1.toList ∧ entry.2 ≠ "" ∧ ¬ separator <:+: entry.2.toList

variable {entries : List (String × String)} {entry : String × String} {key value : String}
variable {line : List Char} {c : Configurations}

theorem separator_ne_nil : separator ≠ [] := List.cons_ne_nil _ _

/-! ## Lines -/

theorem readLines_line (hline : '\n' ∉ line ∧ '\r' ∉ line) (rest : List Char) :
    readLines false (line ++ '\n' :: rest) = line :: readLines false rest := by
  obtain ⟨hlf, hcr⟩ := hline
  induction line with
  | nil => rfl
  | cons c line ih =>
    rw [List.mem_cons, not_or] at hlf hcr
    rw [List.cons_append, readLines, if_neg (Ne.symm hlf.1), if_neg (Ne.symm hcr.1),
      ih hlf.2 hcr.2]

theorem readLines_write (h : ∀ e ∈ entries, OneLine e.1 ∧ OneLine e.2) :
    readLines false (write entries) = entries.map lineOf := by
  induction entries with
  | nil => rfl
  | cons e entries ih =>
    obtain ⟨⟨hkey, hkey'⟩, hvalue, hvalue'⟩ := h e List.mem_cons_self
    have hline : '\n' ∉ lineOf e ∧ '\r' ∉ lineOf e := by
      simp [lineOf, separator, hkey, hkey', hvalue, hvalue']
    have hwrite : write (e :: entries) = lineOf e ++ '\n' :: write entries := by
      simp [write]
    rw [hwrite, readLines_line hline, ih fun x hx => h x (List.mem_cons_of_mem e hx)]
    rfl

/-! ## One line -/

/-- **The setting of a line**: its key is what stands before the first
separator, and its value the first piece behind it. -/
theorem confOf_eq_some (h : confOf line = some (key, value)) : ∃ behind,
    cut separator line = some (key.toList, behind) ∧
      (pieces separator behind).head? = some value.toList ∧ value ≠ "" := by
  unfold confOf at h
  split at h
  · rename_i k v hsplit
    obtain ⟨rfl, rfl⟩ := Prod.mk.inj (Option.some.inj h)
    unfold splitLine at hsplit
    split at hsplit
    · cases hsplit
    · rename_i p hcut
      obtain ⟨before, behind⟩ := p
      have hprefix := @dropTrailing_isPrefix _ (pieces separator line)
      have hlast := @getLast?_dropTrailing _ (pieces separator line)
      rw [hsplit] at hprefix hlast
      rw [pieces_of_cut separator_ne_nil hcut] at hprefix
      obtain ⟨rfl, rest, hrest⟩ := List.cons_prefix_cons.mp hprefix
      refine ⟨behind, by rw [hcut, String.toList_ofList], ?_, ?_⟩
      · rw [← hrest, String.toList_ofList]
        rfl
      · intro hempty
        have hv : v = [] := by simpa using congrArg String.toList hempty
        exact hlast (by rw [hv]; rfl)
  · cases h

/-- A separator that begins within the key is in the key, or the key ends
with its beginning. -/
theorem cut_lineOf (hnot : ¬ separator <:+: entry.1.toList)
    (hends : ¬ [' ', '='] <:+ entry.1.toList) :
    cut separator (lineOf entry) = some (entry.1.toList, entry.2.toList) := by
  refine cut_eq_of_not_sooner separator_ne_nil fun before behind heq => ?_
  by_contra hlt
  have hbefore : before <+: entry.1.toList :=
    List.prefix_of_prefix_length_le ⟨_, heq.symm⟩ ⟨_, rfl⟩ (Nat.le_of_not_le hlt)
  obtain ⟨within, hkey⟩ := hbefore
  rw [← hkey] at heq hlt hnot hends
  rw [List.append_assoc] at heq
  have hbehind := List.append_cancel_left heq
  rcases within with _ | ⟨x, _ | ⟨y, _ | ⟨z, within⟩⟩⟩
  · simp at hlt
  · cases hbehind
  · cases hbehind
    exact hends (List.suffix_append _ _)
  · cases hbehind
    exact hnot ⟨before, within, by simp [separator]⟩

/-- A key that ends with the beginning of the separator is cut there. -/
theorem length_lt_of_confOf (hends : [' ', '='] <:+ entry.1.toList)
    (h : confOf (lineOf entry) = some (key, value)) :
    key.toList.length < entry.1.toList.length := by
  obtain ⟨front, hfront⟩ := hends
  obtain ⟨behind, hcut, -, -⟩ := confOf_eq_some h
  have hline : lineOf entry = front ++ (separator ++ ('=' :: ' ' :: entry.2.toList)) := by
    simp [lineOf, separator, ← hfront]
  obtain ⟨before, behind', hcut', hle⟩ := cut_first separator_ne_nil hline
  rw [hcut] at hcut'
  cases hcut'
  rw [← hfront, List.length_append]
  exact Nat.lt_of_le_of_lt hle (Nat.lt_add_of_pos_right Nat.two_pos)

/-- **A regular setting is read back.** -/
theorem confOf_lineOf (h : Regular entry) (hnot : ¬ separator <:+: entry.1.toList) :
    confOf (lineOf entry) = some entry := by
  obtain ⟨hends, hne, hvalue⟩ := h
  have hcut := cut_lineOf hnot hends
  have hpieces : pieces separator (lineOf entry) = [entry.1.toList] ++ [entry.2.toList] := by
    rw [pieces_of_cut separator_ne_nil hcut,
      pieces_of_cut_eq_none ((cut_eq_none_iff separator_ne_nil).mpr hvalue)]
    rfl
  have hne' : entry.2.toList ≠ [] := fun hnil => hne (String.toList_eq_nil_iff.mp hnil)
  have hsplit : splitLine (lineOf entry) = [entry.1.toList, entry.2.toList] := by
    rw [splitLine, hcut, hpieces]
    exact dropTrailing_concat hne'
  rw [confOf, hsplit]
  simp

/-- A setting that is read back under its own key, which is regular. -/
theorem regular_of_confOf (hnot : ¬ separator <:+: entry.1.toList)
    (hends : ¬ [' ', '='] <:+ entry.1.toList) (h : confOf (lineOf entry) = some entry) :
    Regular entry := by
  obtain ⟨behind, hcut, hhead, hne⟩ := confOf_eq_some h
  rw [cut_lineOf hnot hends] at hcut
  cases hcut
  exact ⟨hends, hne, (head?_pieces separator_ne_nil).mp hhead⟩

/-! ## All lines -/

/-- What is read comes from a line. -/
theorem exists_of_lookup_foldl {lines : List (List Char)} {m : AList fun _ : String => String}
    (h : (lines.foldl readLine m).lookup key = some value) :
    (∃ line ∈ lines, confOf line = some (key, value)) ∨ m.lookup key = some value := by
  induction lines generalizing m with
  | nil => exact .inr h
  | cons line lines ih =>
    rcases ih h with ⟨x, hx, hconf⟩ | hm
    · exact .inl ⟨x, List.mem_cons_of_mem line hx, hconf⟩
    · unfold readLine at hm
      split at hm
      · rename_i conf hconf
        by_cases hkey : key = conf.1
        · subst hkey
          rw [AList.lookup_insert] at hm
          refine .inl ⟨line, List.mem_cons_self, ?_⟩
          rw [hconf, ← Option.some.inj hm]
        · rw [AList.lookup_insert_ne hkey] at hm
          exact .inr hm
      · exact .inr hm

theorem read_write (c : Configurations) :
    read (write c.entries) = (c.entries.map lineOf).foldl readLine ∅ := by
  rw [read, readLines_write fun e he => ⟨c.key_oneLine e he, c.value_oneLine e he⟩]

/-- What is read comes from a setting. -/
theorem exists_of_lookup_read (h : (read (write c.entries)).lookup key = some value) :
    ∃ e ∈ c.entries, confOf (lineOf e) = some (key, value) := by
  rw [read_write] at h
  rcases exists_of_lookup_foldl h with ⟨line, hline, hconf⟩ | hempty
  · obtain ⟨e, he, rfl⟩ := List.mem_map.mp hline
    exact ⟨e, he, hconf⟩
  · cases hempty

/-- Regular settings are put into the map one after another. -/
theorem foldl_readLine {m : AList fun _ : String => String}
    (h : ∀ e ∈ entries, confOf (lineOf e) = some e) :
    (entries.map lineOf).foldl readLine m = entries.foldl (fun m e => m.insert e.1 e.2) m := by
  induction entries generalizing m with
  | nil => rfl
  | cons e entries ih =>
    have he : readLine m (lineOf e) = m.insert e.1 e.2 := by
      rw [readLine, h e List.mem_cons_self]
    rw [List.map_cons, List.foldl_cons, List.foldl_cons, he,
      ih fun x hx => h x (List.mem_cons_of_mem e hx)]

/-- Distinct keys keep what is put under them. -/
theorem lookup_foldl_insert_iff {m : AList fun _ : String => String}
    (h : (entries.map Prod.fst).Nodup) :
    (entries.foldl (fun m e => m.insert e.1 e.2) m).lookup key = some value ↔
      (key, value) ∈ entries ∨ key ∉ entries.map Prod.fst ∧ m.lookup key = some value := by
  induction entries generalizing m with
  | nil => simp
  | cons e entries ih =>
    obtain ⟨hnot, hnodup⟩ := List.nodup_cons.mp h
    rw [List.foldl_cons, ih hnodup]
    by_cases hkey : key = e.1
    · subst hkey
      have hother : (e.1, value) ∉ entries := fun hmem =>
        hnot (List.mem_map.mpr ⟨_, hmem, rfl⟩)
      simp only [AList.lookup_insert, hother, hnot, List.mem_cons, List.map_cons, false_or,
        or_false, not_false_eq_true, true_and, not_true_eq_false, false_and,
        Prod.ext_iff, Option.some.injEq]
      exact eq_comm
    · have hne : (key, value) ≠ e := fun heq => hkey (congrArg Prod.fst heq)
      simp [AList.lookup_insert_ne hkey, hkey, hne]

/-! ## The result -/

/-- The keys have a greatest length. -/
theorem exists_bound (entries : List (String × String)) :
    ∃ bound, ∀ e ∈ entries, e.1.toList.length ≤ bound := by
  induction entries with
  | nil => exact ⟨0, by simp⟩
  | cons e entries ih =>
    obtain ⟨bound, hbound⟩ := ih
    refine ⟨max e.1.toList.length bound, fun x hx => ?_⟩
    rcases List.mem_cons.mp hx with rfl | hx
    · exact Nat.le_max_left _ _
    · exact Nat.le_trans (hbound x hx) (Nat.le_max_right _ _)

/-- **No key is cut too early**, by induction from the longest on: what is
under a key that is cut too early would have to come from a longer one. -/
theorem RoundTrips.not_suffix (h : RoundTrips c) (he : entry ∈ c.entries) :
    ¬ [' ', '='] <:+ entry.1.toList := by
  obtain ⟨bound, hbound⟩ := exists_bound c.entries
  induction hd : bound - entry.1.toList.length using Nat.strongRecOn generalizing entry with
  | _ d ih =>
    intro hends
    obtain ⟨e, hmem, hconf⟩ := exists_of_lookup_read ((h entry.1 entry.2).mpr he)
    have hle := hbound e hmem
    have hregular : ¬ [' ', '='] <:+ e.1.toList := by
      intro hsuffix
      have hlt := length_lt_of_confOf hsuffix hconf
      exact ih (bound - e.1.toList.length) (by omega) hmem rfl hsuffix
    obtain ⟨behind, hcut, -, -⟩ := confOf_eq_some hconf
    rw [cut_lineOf (c.not_separator e hmem) hregular] at hcut
    have hkey : e.1.toList = entry.1.toList := (Prod.mk.inj (Option.some.inj hcut)).1
    exact hregular (hkey ▸ hends)

/-- Of two settings under one key there is one. -/
theorem Configurations.eq_of_key_eq (c : Configurations) {e e' : String × String}
    (he : e ∈ c.entries) (he' : e' ∈ c.entries) (hkey : e.1 = e'.1) : e = e' :=
  List.inj_on_of_nodup_map c.nodup he he' hkey

/-- **The file round-trips** exactly where every setting is cut where it
should be. -/
theorem roundTrips_iff (c : Configurations) : RoundTrips c ↔ ∀ e ∈ c.entries, Regular e := by
  constructor
  · intro h entry he
    have hends := h.not_suffix he
    obtain ⟨e, hmem, hconf⟩ := exists_of_lookup_read ((h entry.1 entry.2).mpr he)
    obtain ⟨behind, hcut, -, -⟩ := confOf_eq_some hconf
    rw [cut_lineOf (c.not_separator e hmem) (h.not_suffix hmem)] at hcut
    have hkey : e.1.toList = entry.1.toList := (Prod.mk.inj (Option.some.inj hcut)).1
    obtain rfl := Configurations.eq_of_key_eq c hmem he (String.toList_inj.mp hkey)
    exact regular_of_confOf (c.not_separator e hmem) hends hconf
  · intro h key value
    rw [read_write, foldl_readLine fun e he => confOf_lineOf (h e he) (c.not_separator e he),
      lookup_foldl_insert_iff c.nodup]
    simp

/-- A setting without a value. -/
def emptySetting : Configurations where
  entries := [("netbios name", "")]
  nodup := by simp
  key_ne := by simp
  key_oneLine := by simp [OneLine]
  value_oneLine := by simp [OneLine]
  not_separator := by decide

/-- It is not read back. -/
theorem not_roundTrips_emptySetting : ¬ RoundTrips emptySetting := by
  intro h
  have hlookup := (h "netbios name" "").mpr List.mem_cons_self
  have hread : read (write emptySetting.entries) = ∅ := rfl
  rw [hread] at hlookup
  cases hlookup

end SambaConfiguration

end SambaProvider

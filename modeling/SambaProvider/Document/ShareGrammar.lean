import Mathlib.Data.List.TakeWhile
import SambaProvider.Document.SharePath

/-!
# The grammar of share paths

What `parseSharePath` accepts. A URI is accepted exactly where it has an
authority and one path segment. A Windows path is taken apart behind its
first two characters, whatever the second one is, and without its last
one if that is a backslash; of what is left, empty pieces at the end are
dropped and one at the beginning is kept. So some paths are accepted that
are none, and one makes `substring` throw.
-/

namespace SambaProvider

open Lib

variable {s host share : String} {mark : Char} {text first last : List Char}

/-! ## Splitting -/

theorem intercalate_replicate_nil (k : ℕ) : [mark].intercalate (last :: List.replicate k []) =
    last ++ List.replicate k mark := by
  induction k generalizing last with
  | zero => simp
  | succ k ih =>
    rw [List.replicate_succ, List.intercalate_cons_cons, ih, List.replicate_succ]
    simp

/-- **What is split into two**: two texts without the mark, and the mark
between them and any number of times behind. -/
theorem split_eq_pair_iff : split text mark = [first, last] ↔
    mark ∉ first ∧ mark ∉ last ∧ last ≠ [] ∧
      ∃ k, text = first ++ mark :: (last ++ List.replicate k mark) := by
  constructor
  · intro h
    unfold split at h
    split at h
    · have hdrop : (text.splitOn mark).reverse.dropWhile List.isEmpty = [last, first] := by
        rw [← List.reverse_reverse (List.dropWhile _ _), h]
        rfl
      obtain ⟨k, hk⟩ : ∃ k, (text.splitOn mark).reverse.takeWhile List.isEmpty =
          List.replicate k [] := by
        refine ⟨_, List.eq_replicate_of_mem fun piece hpiece => ?_⟩
        exact List.isEmpty_iff.mp (List.mem_takeWhile_imp hpiece)
      have hpieces : text.splitOn mark = first :: last :: List.replicate k [] := by
        rw [← List.reverse_reverse (text.splitOn mark),
          ← List.takeWhile_append_dropWhile (l := (text.splitOn mark).reverse)
            (p := List.isEmpty), hdrop, hk]
        simp
      have hmem (piece : List Char) (hpiece : piece ∈ first :: last :: List.replicate k []) :
          mark ∉ piece := Uri.not_mem_of_mem_splitOn (hpieces ▸ hpiece)
      refine ⟨hmem first (by simp), hmem last (by simp), ?_, k, ?_⟩
      · rintro rfl
        have hhead := List.head?_dropWhile_not List.isEmpty (text.splitOn mark).reverse
        rw [hdrop] at hhead
        cases hhead
      · calc text = [mark].intercalate (text.splitOn mark) := (List.intercalate_splitOn mark).symm
          _ = first ++ mark :: (last ++ List.replicate k mark) := by
            rw [hpieces, List.intercalate_cons_cons, intercalate_replicate_nil]
            simp
    · cases h
  · rintro ⟨hfirst, hlast, hne, k, rfl⟩
    have hpieces : (first ++ mark :: (last ++ List.replicate k mark)).splitOn mark =
        first :: last :: List.replicate k [] := by
      rw [List.splitOn_append_cons_self_of_not_mem hfirst, ← intercalate_replicate_nil,
        List.splitOn_intercalate mark ?_ (List.cons_ne_nil _ _)]
      intro piece hpiece
      rcases List.mem_cons.mp hpiece with rfl | hpiece
      · exact hlast
      · rw [List.eq_of_mem_replicate hpiece]
        exact List.not_mem_nil
    have hmem : mark ∈ first ++ mark :: (last ++ List.replicate k mark) := by simp
    rw [split, if_pos hmem, hpieces]
    simp [hne]

/-! ## Windows paths -/

/-- A Windows path of the host and the share. -/
def WindowsPath (s host share : String) : Prop :=
  '\\' ∉ host.toList ∧ '\\' ∉ share.toList ∧ host ≠ "" ∧ share ≠ "" ∧
    (s = "\\\\" ++ host ++ "\\" ++ share ∨ s = "\\\\" ++ host ++ "\\" ++ share ++ "\\")

/-- What `parseSharePath` takes for one: any second character, any number
of backslashes at the end, and the host may be empty. -/
def TakenFor (s : String) (second : Char) (host share : String) (k : ℕ) : Prop :=
  '\\' ∉ host.toList ∧ '\\' ∉ share.toList ∧ share ≠ "" ∧
    s.toList = '\\' :: second :: (host.toList ++ '\\' :: (share.toList ++ List.replicate k '\\'))

/-- **What is taken for a Windows path and is none**, and what makes
`substring` throw. -/
def Irregular (s : String) : Prop :=
  s = "\\\\" ∨ ∃ second host share k, TakenFor s second host share k ∧
    (second ≠ '\\' ∨ host = "" ∨ 2 ≤ k)

/-- A URI of the host and the share. -/
def UriPath (s host share : String) : Prop :=
  parseAuthority s.toList = some host ∧ host ≠ "" ∧ parsePathSegments s.toList = [share]

/-- **`parseSharePath` is exact** on the text: it does not throw, and
accepts it as what it is. -/
def Exact (s : String) : Prop :=
  ∃ r, parseSharePath s = .ok r ∧ ∀ host share, r = some (host, share) ↔
    if s.toList.head? = some '\\' then WindowsPath s host share else UriPath s host share

theorem windowsPath_iff : WindowsPath s host share ↔
    ∃ k, TakenFor s '\\' host share k ∧ host ≠ "" ∧ k < 2 := by
  constructor
  · rintro ⟨hhost, hshare, hne, hne', rfl | rfl⟩
    · exact ⟨0, ⟨hhost, hshare, hne', by simp [String.toList_append]⟩, hne, by decide⟩
    · exact ⟨1, ⟨hhost, hshare, hne', by simp [String.toList_append]⟩, hne, by decide⟩
  · rintro ⟨k, ⟨hhost, hshare, hne', htext⟩, hne, hk⟩
    refine ⟨hhost, hshare, hne, hne', ?_⟩
    match k, hk with
    | 0, _ =>
      left
      refine String.toList_inj.mp (htext.trans ?_)
      simp [String.toList_append]
    | 1, _ =>
      right
      refine String.toList_inj.mp (htext.trans ?_)
      simp [String.toList_append]

/-- A text is taken for a Windows path in one way. -/
theorem TakenFor.unique {second second' : Char} {k k' : ℕ} (h : TakenFor s second host share k)
    (h' : TakenFor s second' host share k') : second = second' ∧ k = k' := by
  obtain ⟨-, -, -, htext⟩ := h
  obtain ⟨-, -, -, htext'⟩ := h'
  obtain ⟨hsecond, hrest⟩ := List.cons.inj (List.cons.inj (htext.symm.trans htext')).2
  have hbehind := List.append_cancel_left (List.cons.inj (List.append_cancel_left hrest)).2
  have hlength := congrArg List.length hbehind
  rw [List.length_replicate, List.length_replicate] at hlength
  exact ⟨hsecond, hlength⟩

/-- What is split: the text behind the second character, without a
backslash at its end. -/
theorem split_iff_takenFor {c : Char} {inner trailing : List Char}
    (htext : s.toList = '\\' :: c :: (inner ++ trailing))
    (htrailing : trailing = ['\\'] ∨ trailing = [] ∧ s.toList.getLast? ≠ some '\\') :
    split inner '\\' = [host.toList, share.toList] ↔
      ∃ second k, TakenFor s second host share k := by
  rw [split_eq_pair_iff]
  constructor
  · rintro ⟨hhost, hshare, hne, k, rfl⟩
    have hne' : share ≠ "" := fun h => hne (String.toList_eq_nil_iff.mpr h)
    rcases htrailing with rfl | ⟨rfl, -⟩
    · refine ⟨c, k + 1, hhost, hshare, hne', htext.trans ?_⟩
      rw [List.replicate_succ']
      simp
    · exact ⟨c, k, hhost, hshare, hne', by rw [htext, List.append_nil]⟩
  · rintro ⟨second, k, hhost, hshare, hne, htaken⟩
    have hne' : share.toList ≠ [] := fun h => hne (String.toList_eq_nil_iff.mp h)
    have hinner : inner ++ trailing =
        host.toList ++ '\\' :: (share.toList ++ List.replicate k '\\') :=
      (List.cons.inj (List.cons.inj (htext.symm.trans htaken)).2).2
    refine ⟨hhost, hshare, hne', ?_⟩
    rcases htrailing with rfl | ⟨rfl, -⟩
    · cases k with
      | zero =>
        -- The backslash would be the last character of the share.
        have hlast : share.toList.getLast? = some '\\' := by
          have heq := congrArg List.getLast? hinner
          rw [List.getLast?_concat, List.replicate_zero, List.append_nil,
            List.getLast?_append_of_ne_nil _ (List.cons_ne_nil _ _),
            List.getLast?_cons_of_ne_nil hne'] at heq
          exact heq.symm
        exact absurd (List.mem_of_getLast? hlast) hshare
      | succ k =>
        rw [List.replicate_succ', ← List.append_assoc, ← List.cons_append, ← List.append_assoc]
          at hinner
        exact ⟨k, List.append_cancel_right hinner⟩
    · rw [List.append_nil] at hinner
      exact ⟨k, hinner⟩

/-- The part of a text of two characters at least that is split. -/
theorem substring_windows {c : Char} {rest : List Char} (htext : s.toList = '\\' :: c :: rest)
    (hne : s ≠ "\\\\") : ∃ inner,
      substring s.toList 2 (if s.toList.getLast? = some '\\' then s.toList.length - 1
        else s.toList.length) = .ok inner ∧
      ∀ host share : String, split inner '\\' = [host.toList, share.toList] ↔
        ∃ second k, TakenFor s second host share k := by
  split
  · rename_i hlast
    rcases List.eq_nil_or_concat rest with rfl | ⟨inner, last, rfl⟩
    · -- Two backslashes.
      rw [htext] at hlast
      cases hlast
      exact absurd (String.toList_inj.mp htext) hne
    · rw [List.concat_eq_append] at htext
      have hlast' : last = '\\' := by
        rw [htext, ← List.cons_append, ← List.cons_append, List.getLast?_concat] at hlast
        exact Option.some.inj hlast
      subst hlast'
      refine ⟨inner, ?_, fun host share => split_iff_takenFor htext (.inl rfl)⟩
      rw [substring, if_pos (by simp [htext])]
      simp [htext]
  · rename_i hlast
    have htext' : s.toList = '\\' :: c :: (rest ++ []) := by rw [htext, List.append_nil]
    refine ⟨rest, ?_, fun host share => split_iff_takenFor htext' (.inr ⟨rfl, hlast⟩)⟩
    rw [substring, if_pos (by simp [htext]), List.take_length, htext]
    rfl

/-- **What `parseSharePath` makes of a text that begins with a
backslash.** -/
theorem parseSharePath_windows (hs : s.toList.head? = some '\\') (hne : s ≠ "\\\\") :
    ∃ r, parseSharePath s = .ok r ∧ ∀ host share, r = some (host, share) ↔
      ∃ second k, TakenFor s second host share k := by
  rcases htext : s.toList with _ | ⟨c₀, _ | ⟨c, rest⟩⟩
  · rw [htext] at hs
    cases hs
  · -- A backslash alone.
    refine ⟨none, ?_, fun host share => ⟨nofun, ?_⟩⟩
    · rw [htext] at hs
      simp only [parseSharePath, htext, hs]
      rfl
    · rintro ⟨second, k, -, -, -, htaken⟩
      cases htext.symm.trans htaken
  · obtain rfl : c₀ = '\\' := by
      rw [htext] at hs
      exact Option.some.inj hs
    obtain ⟨inner, hsub, hsplit⟩ := substring_windows htext hne
    have hlength : s.toList.length ≠ 1 := by simp [htext]
    unfold parseSharePath
    dsimp only
    rw [if_pos hs, if_neg hlength, hsub]
    by_cases hpair : ∃ first last, split inner '\\' = [first, last]
    · obtain ⟨first, last, heq⟩ := hpair
      refine ⟨some (String.ofList first, String.ofList last), ?_, fun host share => ?_⟩
      · simp only [bind, Except.bind, heq]
        rfl
      · rw [← hsplit, heq]
        simp [← String.toList_inj]
    · refine ⟨none, ?_, fun host share => ⟨nofun, fun h => ?_⟩⟩
      · simp only [bind, Except.bind]
        split
        · rename_i first last heq
          exact absurd ⟨first, last, heq⟩ hpair
        · rfl
      · exact absurd ⟨_, _, (hsplit host share).mpr h⟩ hpair

/-! ## URIs -/

/-- **What `parseSharePath` makes of any other text.** -/
theorem parseSharePath_uri (hs : s.toList.head? ≠ some '\\') :
    ∃ r, parseSharePath s = .ok r ∧ ∀ host share, r = some (host, share) ↔
      UriPath s host share := by
  unfold parseSharePath
  dsimp only
  rw [if_neg hs]
  split
  · rename_i hnone
    refine ⟨none, rfl, fun host share => ⟨nofun, fun h => ?_⟩⟩
    cases hnone.symm.trans h.1
  · rename_i authority hauthority
    split
    · rename_i hempty
      refine ⟨none, rfl, fun host share => ⟨nofun, fun h => ?_⟩⟩
      obtain rfl := Option.some.inj (hauthority.symm.trans h.1)
      exact absurd hempty h.2.1
    · rename_i hne
      split
      · rename_i segment hsegments
        refine ⟨_, rfl, fun host share => ⟨fun h => ?_, fun h => ?_⟩⟩
        · cases h
          exact ⟨hauthority, hne, hsegments⟩
        · obtain rfl := Option.some.inj (hauthority.symm.trans h.1)
          cases hsegments.symm.trans h.2.2
          rfl
      · rename_i hnot
        exact ⟨none, rfl, fun host share => ⟨nofun, fun h => absurd h.2.2 (hnot _)⟩⟩

/-! ## The result -/

/-- What is taken for a Windows path begins with a backslash. -/
theorem Irregular.head (h : Irregular s) : s.toList.head? = some '\\' := by
  rcases h with rfl | ⟨second, host, share, k, ⟨-, -, -, htext⟩, -⟩
  · rfl
  · rw [htext]
    rfl

/-- **`parseSharePath` accepts exactly its grammar, and never throws**,
on every text that is not irregular, and on no other. -/
theorem exact_iff (s : String) : Exact s ↔ ¬ Irregular s := by
  by_cases hs : s.toList.head? = some '\\'
  · unfold Exact
    simp only [if_pos hs]
    by_cases hne : s = "\\\\"
    · constructor
      · rintro ⟨r, hr, -⟩
        rw [hne] at hr
        cases hr
      · exact fun h => absurd (.inl hne) h
    · obtain ⟨r, hr, htaken⟩ := parseSharePath_windows hs hne
      constructor
      · rintro ⟨r', hr', hexact⟩ (h | ⟨second, host, share, k, h, hirregular⟩)
        · exact hne h
        · obtain rfl := Except.ok.inj (hr.symm.trans hr')
          have hsome := (htaken host share).mpr ⟨second, k, h⟩
          obtain ⟨k', h', hhost, hk'⟩ := windowsPath_iff.mp ((hexact host share).mp hsome)
          obtain ⟨rfl, rfl⟩ := h.unique h'
          rcases hirregular with hsecond | hempty | hk
          · exact hsecond rfl
          · exact hhost hempty
          · omega
      · intro h
        refine ⟨r, hr, fun host share => (htaken host share).trans ⟨?_, ?_⟩⟩
        · rintro ⟨second, k, hk⟩
          have hregular : ¬ (second ≠ '\\' ∨ host = "" ∨ 2 ≤ k) := fun hirregular =>
            h (.inr ⟨second, host, share, k, hk, hirregular⟩)
          rw [not_or, not_or, not_not] at hregular
          obtain ⟨rfl, hhost, hle⟩ := hregular
          exact windowsPath_iff.mpr ⟨k, hk, hhost, by omega⟩
        · intro hpath
          obtain ⟨k, hk, -⟩ := windowsPath_iff.mp hpath
          exact ⟨_, k, hk⟩
  · refine ⟨fun _ h => hs h.head, fun _ => ?_⟩
    unfold Exact
    simp only [if_neg hs]
    exact parseSharePath_uri hs

/-- Two backslashes make `substring` throw. -/
theorem not_exact_twoBackslashes : ¬ Exact "\\\\" := by
  rintro ⟨r, hr, -⟩
  cases hr

end SambaProvider

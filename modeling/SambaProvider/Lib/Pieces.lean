import Mathlib.Data.List.Basic
import Mathlib.Data.List.Infix

/-!
# Splitting at a separator

A list is cut at the first place where the separator stands, and what is
behind that is cut again. The pieces are what is left in between.
-/

namespace SambaProvider

namespace Lib

variable {α : Type*} [DecidableEq α]

/-- What stands before and behind the first separator. -/
def cut (sep : List α) : List α → Option (List α × List α)
  | [] => none
  | c :: cs =>
    if sep <+: c :: cs then some ([], (c :: cs).drop sep.length)
    else (cut sep cs).map fun p => (c :: p.1, p.2)

/-- The pieces, cutting at most so often. -/
def piecesFrom (sep : List α) : ℕ → List α → List (List α)
  | 0, l => [l]
  | n + 1, l =>
    match cut sep l with
    | none => [l]
    | some (before, behind) => before :: piecesFrom sep n behind

/-- The pieces between the separators. -/
def pieces (sep l : List α) : List (List α) := piecesFrom sep l.length l

/-- The pieces up to the last one that is not empty. -/
def dropTrailing (ps : List (List α)) : List (List α) := (ps.reverse.dropWhile List.isEmpty).reverse

variable {sep l before behind x y : List α}

/-! ## Cutting -/

theorem cut_eq_some (h : cut sep l = some (before, behind)) : l = before ++ (sep ++ behind) := by
  induction l generalizing before behind with
  | nil => cases h
  | cons c cs ih =>
    rw [cut] at h
    split at h
    · rename_i hpre
      obtain ⟨rest, hrest⟩ := hpre
      obtain ⟨rfl, rfl⟩ := Prod.mk.inj (Option.some.inj h)
      rw [← hrest, List.drop_left]
      rfl
    · obtain ⟨p, hp, hpair⟩ := Option.map_eq_some_iff.mp h
      obtain ⟨rfl, rfl⟩ := Prod.mk.inj hpair
      rw [List.cons_append, ← ih hp]

/-- **The cut is made at the first separator.** -/
theorem cut_first (hsep : sep ≠ []) (h : l = x ++ (sep ++ y)) :
    ∃ before behind, cut sep l = some (before, behind) ∧ before.length ≤ x.length := by
  induction x generalizing l with
  | nil =>
    obtain ⟨s, sep', rfl⟩ := List.exists_cons_of_ne_nil hsep
    subst h
    exact ⟨[], _, if_pos (List.prefix_append (s :: sep') y), Nat.le_refl _⟩
  | cons c x ih =>
    subst h
    rw [List.cons_append, cut]
    split
    · exact ⟨[], _, rfl, Nat.zero_le _⟩
    · obtain ⟨before, behind, hcut, hle⟩ := ih rfl
      exact ⟨c :: before, behind, by rw [hcut]; rfl, Nat.succ_le_succ hle⟩

theorem cut_eq_none_iff (hsep : sep ≠ []) : cut sep l = none ↔ ¬ sep <:+: l := by
  constructor
  · rintro h ⟨x, y, heq⟩
    obtain ⟨before, behind, hcut, -⟩ := cut_first hsep (heq.symm.trans (List.append_assoc x sep y))
    rw [h] at hcut
    cases hcut
  · intro h
    cases hcut : cut sep l with
    | none => rfl
    | some p =>
      have heq := cut_eq_some hcut
      rw [← List.append_assoc] at heq
      exact absurd ⟨p.1, p.2, heq.symm⟩ h

/-- Where no separator begins any sooner, the cut is there. -/
theorem cut_eq_of_not_sooner (hsep : sep ≠ [])
    (h : ∀ before behind, x ++ (sep ++ y) = before ++ (sep ++ behind) →
      x.length ≤ before.length) : cut sep (x ++ (sep ++ y)) = some (x, y) := by
  obtain ⟨before, behind, hcut, hle⟩ := cut_first hsep (rfl : x ++ (sep ++ y) = _)
  have heq := cut_eq_some hcut
  have hlength : x.length = before.length := Nat.le_antisymm (h _ _ heq) hle
  obtain ⟨rfl, hrest⟩ := List.append_inj heq hlength
  rw [hcut, List.append_cancel_left hrest]

/-- What is behind the cut is shorter. -/
theorem length_behind_lt (hsep : sep ≠ []) (h : cut sep l = some (before, behind)) :
    behind.length < l.length := by
  have hpos := List.length_pos_of_ne_nil hsep
  rw [cut_eq_some h, List.length_append, List.length_append]
  omega

/-! ## Words that end with the separator -/

/-- What follows a list with a separator makes no difference to the cut. -/
theorem cut_append (h : cut sep l = some (before, behind)) (y : List α) :
    cut sep (l ++ y) = some (before, behind ++ y) := by
  induction l generalizing before behind with
  | nil => cases h
  | cons c cs ih =>
    rw [cut] at h
    rw [List.cons_append, cut]
    split at h
    · rename_i hpre
      obtain ⟨rfl, rfl⟩ := Prod.mk.inj (Option.some.inj h)
      have hy : sep <+: c :: (cs ++ y) := hpre.trans (List.prefix_append (c :: cs) y)
      rw [if_pos hy]
      exact congrArg (fun z => some ([], z))
        (@List.drop_append_of_le_length _ (c :: cs) y _ hpre.length_le)
    · rename_i hpre
      obtain ⟨p, hp, hpair⟩ := Option.map_eq_some_iff.mp h
      obtain ⟨rfl, rfl⟩ := Prod.mk.inj hpair
      have hle : sep.length ≤ (c :: cs).length := by
        rw [cut_eq_some hp, List.length_cons, List.length_append, List.length_append]
        omega
      have hy : ¬ sep <+: c :: (cs ++ y) := fun hy => hpre
        (List.prefix_of_prefix_length_le hy (List.prefix_append (c :: cs) y) hle)
      rw [if_neg hy, ih hp]
      rfl

/-- Up to where the separator can begin, nothing is cut. -/
theorem cut_append_of_not_mem {s : α} (hs : s ∉ x) :
    cut (s :: sep) (x ++ y) = (cut (s :: sep) y).map fun p => (x ++ p.1, p.2) := by
  induction x with
  | nil => exact (Option.map_id' (x := cut (s :: sep) y)).symm
  | cons c x ih =>
    rw [List.mem_cons, not_or] at hs
    rw [List.cons_append, cut, if_neg fun h => hs.1 (List.cons_prefix_cons.mp h).1, ih hs.2,
      Option.map_map]
    rfl

/-- **A word that has the separator at its end** is told by the
separator. -/
theorem cut_of_isPrefix {w front p : List α} (h : cut sep w = some (front, []))
    (hp : w <+: p) : cut sep p = some (front, p.drop w.length) := by
  obtain ⟨rest, rfl⟩ := hp
  rw [cut_append h, List.drop_left]
  rfl

theorem isSome_cut_iff {w front p rest : List α} (h : cut sep w = some (front, []))
    (hp : p <+: w ++ rest) : (cut sep p).isSome ↔ w <+: p := by
  constructor
  · intro hcut
    obtain ⟨q, hq⟩ := Option.isSome_iff_exists.mp hcut
    obtain ⟨more, hmore⟩ := hp
    have hsame := cut_append hq more
    rw [hmore, cut_append h] at hsame
    obtain ⟨hfront, -⟩ := Prod.mk.inj (Option.some.inj hsame)
    have hw := cut_eq_some h
    rw [cut_eq_some hq, ← hfront]
    rw [List.append_nil] at hw
    rw [hw, ← List.append_assoc]
    exact List.prefix_append _ _
  · intro hw
    rw [cut_of_isPrefix h hw]
    rfl

/-- What is behind the separator in the beginning of a text: nothing where
that is broken off too soon. -/
theorem behind_cut_take {w front rest : List α} (h : cut sep w = some (front, [])) (n : ℕ) :
    ((cut sep ((w ++ rest).take n)).map Prod.snd).getD [] = rest.take (n - w.length) := by
  rcases Nat.lt_or_ge n w.length with hlt | hle
  · have hnone : cut sep ((w ++ rest).take n) = none := by
      rw [← Option.not_isSome_iff_eq_none, isSome_cut_iff h (List.take_prefix _ _)]
      intro hw
      have hlen := hw.length_le
      rw [List.length_take] at hlen
      omega
    have hzero : n - w.length = 0 := by omega
    rw [hnone, hzero, List.take_zero]
    rfl
  · rw [List.take_append, List.take_of_length_le hle, cut_append h, Option.map_some,
      Option.getD_some, List.nil_append]

/-! ## Pieces -/

/-- More cuts than elements are as good as any number. -/
theorem piecesFrom_eq (hsep : sep ≠ []) {n m : ℕ} (hn : l.length ≤ n) (hm : l.length ≤ m) :
    piecesFrom sep n l = piecesFrom sep m l := by
  induction n generalizing m l with
  | zero =>
    obtain rfl := List.eq_nil_of_length_eq_zero (Nat.le_zero.mp hn)
    cases m <;> rfl
  | succ n ih =>
    cases m with
    | zero =>
      obtain rfl := List.eq_nil_of_length_eq_zero (Nat.le_zero.mp hm)
      rfl
    | succ m =>
      rw [piecesFrom, piecesFrom]
      split
      · rfl
      · rename_i before behind hcut
        have hlt := length_behind_lt hsep hcut
        rw [ih (m := m) (by omega) (by omega)]

theorem pieces_of_cut (hsep : sep ≠ []) (h : cut sep l = some (before, behind)) :
    pieces sep l = before :: pieces sep behind := by
  have hlt := length_behind_lt hsep h
  rw [pieces, piecesFrom_eq hsep (Nat.le_refl _) (Nat.le_succ _), piecesFrom, h]
  exact congrArg _ (piecesFrom_eq hsep (Nat.le_of_lt hlt) (Nat.le_refl _))

theorem pieces_of_cut_eq_none (h : cut sep l = none) : pieces sep l = [l] := by
  unfold pieces
  cases l.length with
  | zero => rfl
  | succ n => rw [piecesFrom, h]

/-- **The first piece** is the whole list exactly where there is no
separator. -/
theorem head?_pieces (hsep : sep ≠ []) : (pieces sep l).head? = some l ↔ ¬ sep <:+: l := by
  rw [← cut_eq_none_iff hsep]
  cases hcut : cut sep l with
  | none => simp [pieces_of_cut_eq_none hcut]
  | some p =>
    obtain ⟨before, behind⟩ := p
    rw [pieces_of_cut hsep hcut]
    refine iff_of_false (fun h => ?_) (by simp)
    have hlength := congrArg List.length (cut_eq_some hcut)
    have hpos := List.length_pos_of_ne_nil hsep
    rw [Option.some.inj h, List.length_append, List.length_append] at hlength
    omega

/-! ## Trailing pieces -/

omit [DecidableEq α] in
theorem dropTrailing_isPrefix {ps : List (List α)} : dropTrailing ps <+: ps := by
  rw [← List.reverse_suffix, dropTrailing, List.reverse_reverse]
  exact List.dropWhile_suffix _

omit [DecidableEq α] in
/-- A first piece that is not empty stays. -/
theorem dropTrailing_cons {ps : List (List α)} {p : List α} (hp : p ≠ []) :
    dropTrailing (p :: ps) = p :: dropTrailing ps := by
  have hempty : ¬ p.isEmpty = true := by simpa using hp
  rw [dropTrailing, List.reverse_cons, List.dropWhile_append]
  split
  · rename_i hnil
    rw [List.dropWhile_cons_of_neg hempty, dropTrailing, List.isEmpty_iff.mp hnil]
    rfl
  · rw [List.reverse_append]
    rfl

omit [DecidableEq α] in
/-- Nothing is dropped behind a last piece that is not empty. -/
theorem dropTrailing_concat {ps : List (List α)} {p : List α} (hp : p ≠ []) :
    dropTrailing (ps ++ [p]) = ps ++ [p] := by
  have hempty : ¬ p.isEmpty = true := by simpa using hp
  rw [dropTrailing, List.reverse_append, List.reverse_singleton, List.singleton_append,
    List.dropWhile_cons_of_neg hempty, List.reverse_cons, List.reverse_reverse]

omit [DecidableEq α] in
/-- The last piece that is kept is not empty. -/
theorem getLast?_dropTrailing {ps : List (List α)} : (dropTrailing ps).getLast? ≠ some [] := by
  rw [dropTrailing, List.getLast?_reverse]
  intro h
  have hhead := List.head?_dropWhile_not List.isEmpty ps.reverse
  rw [h] at hhead
  cases hhead

end Lib

end SambaProvider

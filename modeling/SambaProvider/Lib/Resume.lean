import Mathlib.Data.List.Basic

/-!
# Copies that are resumed

A copy is made in attempts; each is told how much there is, and brings a
part of what is missing. Where every part begins at what is missing, the
copy is never wrong, and one attempt that is not broken off completes it.
-/

namespace SambaProvider

namespace Lib

universe u v

variable {α : Type u} {β : Type v}

/-- The copy after the attempts. -/
def resume (bring : β → ℕ → List α) (attempts : List β) : List α :=
  attempts.foldl (fun copy a => copy ++ bring a copy.length) []

/-- Every attempt brings a part of what is missing, from its beginning on. -/
def Brings (content : List α) (bring : β → ℕ → List α) : Prop :=
  ∀ a n, n ≤ content.length → bring a n <+: content.drop n

variable {content copy : List α} {bring : β → ℕ → List α} {before after : List β} {a : β}

/-- An attempt goes on where the copy ends. -/
theorem Brings.append (h : Brings content bring) (hcopy : copy <+: content) :
    copy ++ bring a copy.length <+: content := by
  obtain ⟨missing, rfl⟩ := hcopy
  have hpart := h a copy.length (by rw [List.length_append]; exact Nat.le_add_right _ _)
  rw [List.drop_left] at hpart
  exact (List.prefix_append_right_inj copy).mpr hpart

theorem Brings.foldl (h : Brings content bring) (hcopy : copy <+: content)
    (attempts : List β) :
    copy <+: attempts.foldl (fun copy a => copy ++ bring a copy.length) copy ∧
      attempts.foldl (fun copy a => copy ++ bring a copy.length) copy <+: content := by
  induction attempts generalizing copy with
  | nil => exact ⟨List.prefix_refl _, hcopy⟩
  | cons a attempts ih =>
    obtain ⟨hmore, hcontent⟩ := ih (h.append (a := a) hcopy)
    exact ⟨(List.prefix_append _ _).trans hmore, hcontent⟩

/-- **The copy is the beginning of the content**, after any attempts. -/
theorem Brings.isPrefix (h : Brings content bring) (attempts : List β) :
    resume bring attempts <+: content :=
  (h.foldl List.nil_prefix attempts).2

/-- **An attempt that brings all that is missing completes the copy**,
whatever was broken off before and whatever follows. -/
theorem Brings.complete (h : Brings content bring)
    (hall : bring a (resume bring before).length = content.drop (resume bring before).length) :
    resume bring (before ++ a :: after) = content := by
  obtain ⟨missing, hcontent⟩ := h.isPrefix before
  have hcopy : resume bring before ++ bring a (resume bring before).length = content := by
    have hmissing : content.drop (resume bring before).length = missing := by
      rw [← hcontent, List.drop_left]
    rw [hall, hmissing, hcontent]
  have hstep : resume bring (before ++ a :: after) =
      after.foldl (fun copy a => copy ++ bring a copy.length) content := by
    rw [resume, List.foldl_append, List.foldl_cons, ← resume, hcopy]
  obtain ⟨hmore, hless⟩ := h.foldl (List.prefix_refl content) after
  rw [hstep]
  exact hless.eq_of_length_le hmore.length_le

end Lib

end SambaProvider

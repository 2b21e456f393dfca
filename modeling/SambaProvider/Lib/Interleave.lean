import Mathlib.Data.List.Basic

/-!
# Threads that take turns

Each thread does what is on its list, one thing after another, and any of
them may be next. What happens in one place happens in the order of its
thread, if no other thread has to do with the place.
-/

namespace SambaProvider

namespace Lib

universe u

variable {α : Type u}

/-- **An interleaving** of threads that run to their ends. -/
inductive Interleaving : List (List α) → List α → Prop
  | done {ts : List (List α)} (h : ∀ t ∈ ts, t = []) : Interleaving ts []
  | next {pre post : List (List α)} {a : α} {t as : List α} :
    Interleaving (pre ++ t :: post) as → Interleaving (pre ++ (a :: t) :: post) (a :: as)

namespace Interleaving

variable {ts : List (List α)} {as : List α} {p : α → Bool}

/-- What is left of a thread has no more to do with a place. -/
theorem filter_tail {a : α} {t : List α} (h : (a :: t).filter p = []) : t.filter p = [] := by
  rw [List.filter_eq_nil_iff] at h ⊢
  exact fun b hb => h b (List.mem_cons_of_mem a hb)

/-- **What happens in one place** is what its thread does there. -/
theorem filter_eq (h : Interleaving ts as)
    (hone : ts.Pairwise fun t t' => t.filter p = [] ∨ t'.filter p = []) :
    as.filter p = ts.flatten.filter p := by
  induction h with
  | done h =>
    rw [List.flatten_eq_nil_iff.mpr h]
  | @next pre post a t as h ih =>
    rw [List.pairwise_append, List.pairwise_cons] at hone
    obtain ⟨hpre, ⟨hhead, hpost⟩, hcross⟩ := hone
    have hrest := ih (by
      rw [List.pairwise_append, List.pairwise_cons]
      refine ⟨hpre, ⟨fun t' ht' => (hhead t' ht').imp_left filter_tail, hpost⟩, ?_⟩
      intro t₁ h₁ t₂ h₂
      rcases List.mem_cons.mp h₂ with rfl | h₂
      · exact (hcross t₁ h₁ _ List.mem_cons_self).imp_right filter_tail
      · exact hcross t₁ h₁ t₂ (List.mem_cons_of_mem _ h₂))
    rw [List.flatten_append, List.flatten_cons, List.filter_append] at hrest ⊢
    by_cases ha : p a = true
    · -- The place is this thread's, so no other one has to do with it.
      have hnil : pre.flatten.filter p = [] := by
        rw [List.filter_eq_nil_iff]
        intro b hb
        obtain ⟨t₁, h₁, hb⟩ := List.mem_flatten.mp hb
        rcases hcross t₁ h₁ _ List.mem_cons_self with hnone | hnone
        · exact List.filter_eq_nil_iff.mp hnone b hb
        · exact absurd ha (List.filter_eq_nil_iff.mp hnone a List.mem_cons_self)
      rw [hnil, List.nil_append] at hrest ⊢
      rw [List.cons_append, List.filter_cons_of_pos ha, List.filter_cons_of_pos ha, hrest]
    · rw [List.cons_append, List.filter_cons_of_neg ha, List.filter_cons_of_neg ha, hrest]

end Interleaving

end Lib

end SambaProvider

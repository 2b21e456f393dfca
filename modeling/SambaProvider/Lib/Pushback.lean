import Mathlib.Data.List.Basic

/-!
# Streams that arrive in pieces

What is sent arrives in pieces, and a call of `read` gets to the end of the
first one at most. A stream with pushback gives what was put back before
what arrives. A reader that fills a buffer until it has seen enough ends
with the same elements in the buffer and behind it, however they arrive.
-/

namespace SambaProvider

namespace Lib

universe u

variable {α : Type u}

/-- What arrives: some elements, or none for too long. -/
inductive Arrival (α : Type u)
  | piece (a : α) (as : List α)
  | silence
  deriving DecidableEq

/-- The elements that arrive. -/
def arrived : List (Arrival α) → List α
  | [] => []
  | .piece a as :: wire => a :: (as ++ arrived wire)
  | .silence :: wire => arrived wire

/-- Nothing is waited for too long. -/
def Steady (wire : List (Arrival α)) : Prop := Arrival.silence ∉ wire

/-- What a call of `read` ends with. -/
inductive Got (α : Type u)
  | elements (as : List α)
  | ended
  | silent

/-- What is left of a piece, in front of the others. -/
def leave : List α → List (Arrival α) → List (Arrival α)
  | [], wire => wire
  | a :: as, wire => .piece a as :: wire

/-- A call of `read` for so many elements, one at least. -/
def take (n : ℕ) : List (Arrival α) → Got α × List (Arrival α)
  | [] => (.ended, [])
  | .silence :: wire => (.silent, wire)
  | .piece a as :: wire => (.elements ((a :: as).take n), leave ((a :: as).drop n) wire)

/-- A stream with pushback. -/
structure Pushback (α : Type u) where
  back : List α
  wire : List (Arrival α)

namespace Pushback

/-- What is still to be read. -/
def content (s : Pushback α) : List α := s.back ++ arrived s.wire

/-- `read`. What was put back is given even where nothing follows it, but
not before something does. -/
def read (s : Pushback α) (n : ℕ) : Got α × Pushback α :=
  if n = 0 then (.elements [], s)
  else if n ≤ s.back.length then (.elements (s.back.take n), ⟨s.back.drop n, s.wire⟩)
  else
    match take (n - s.back.length) s.wire with
    | (.elements as, wire) => (.elements (s.back ++ as), ⟨[], wire⟩)
    | (.ended, wire) => (if s.back = [] then .ended else .elements s.back, ⟨[], wire⟩)
    | (.silent, wire) => (.silent, ⟨[], wire⟩)

/-- `unread`, with room for so many elements. -/
def unread (s : Pushback α) (room : ℕ) (as : List α) : Option (Pushback α) :=
  if as.length + s.back.length ≤ room then some ⟨as ++ s.back, s.wire⟩ else none

variable {s s' : Pushback α} {n : ℕ} {as : List α} {wire wire' : List (Arrival α)}

/-! ## One call -/

theorem arrived_leave : arrived (leave as wire) = as ++ arrived wire := by
  cases as <;> rfl

theorem steady_leave (h : Steady wire) : Steady (leave as wire) := by
  cases as with
  | nil => exact h
  | cons a as =>
    intro hmem
    rcases List.mem_cons.mp hmem with heq | hmem
    · cases heq
    · exact h hmem

theorem steady_of_cons {x : Arrival α} (h : Steady (x :: wire)) : Steady wire :=
  fun hmem => h (List.mem_cons_of_mem x hmem)

theorem take_cases (hs : Steady wire) (hn : 0 < n) :
    (wire = [] ∧ take n wire = (.ended, [])) ∨
      ∃ as wire', take n wire = (.elements as, wire') ∧ as ≠ [] ∧ as.length ≤ n ∧
        arrived wire = as ++ arrived wire' ∧ Steady wire' := by
  cases wire with
  | nil => exact .inl ⟨rfl, rfl⟩
  | cons x wire =>
    cases x with
    | silence => exact absurd List.mem_cons_self hs
    | piece a as =>
      obtain ⟨m, rfl⟩ := Nat.exists_eq_succ_of_ne_zero (Nat.pos_iff_ne_zero.mp hn)
      refine .inr ⟨_, _, rfl, List.cons_ne_nil _ _, List.length_take_le _ _, ?_, ?_⟩
      · rw [arrived_leave, ← List.append_assoc, List.take_append_drop]
        rfl
      · exact steady_leave (steady_of_cons hs)

/-- **What a call gets** is the beginning of what there is. -/
theorem read_cases (hs : Steady s.wire) (hn : 0 < n) :
    (s.content = [] ∧ s.read n = (.ended, ⟨[], []⟩)) ∨
      ∃ as s', s.read n = (.elements as, s') ∧ as ≠ [] ∧ as.length ≤ n ∧
        s.content = as ++ s'.content ∧ Steady s'.wire ∧
        (s.back.length ≤ n → s'.back = []) := by
  obtain ⟨back, wire⟩ := s
  have hzero : n ≠ 0 := Nat.pos_iff_ne_zero.mp hn
  by_cases hle : n ≤ back.length
  · right
    refine ⟨back.take n, ⟨back.drop n, wire⟩, ?_, ?_, List.length_take_le _ _, ?_, hs, ?_⟩
    · rw [read, if_neg hzero, if_pos hle]
    · intro hnil
      have hlen := congrArg List.length hnil
      rw [List.length_take, List.length_nil] at hlen
      omega
    · rw [content, content, ← List.append_assoc, List.take_append_drop]
    · exact fun hback => List.drop_of_length_le hback
  · rcases take_cases hs (n := n - back.length) (by omega) with
      ⟨rfl, htake⟩ | ⟨as, wire', htake, hne, hlen, harrived, hsteady⟩
    · by_cases hback : back = []
      · subst hback
        exact .inl ⟨rfl, by simp only [read, if_neg hzero, if_neg hle, htake, if_true]⟩
      · refine .inr ⟨back, ⟨[], []⟩, ?_, hback, by omega, rfl, hs, fun _ => rfl⟩
        simp only [read, if_neg hzero, if_neg hle, htake, if_neg hback]
    · refine .inr ⟨back ++ as, ⟨[], wire'⟩, ?_, ?_, ?_, ?_, hsteady, fun _ => rfl⟩
      · simp only [read, if_neg hzero, if_neg hle, htake]
      · exact List.append_ne_nil_of_right_ne_nil _ hne
      · rw [List.length_append]
        omega
      · rw [content, content, harrived, List.append_assoc]
        rfl

/-- No call gets more than it asks for. -/
theorem length_le_of_read (h : s.read n = (.elements as, s')) : as.length ≤ n := by
  unfold read at h
  split at h
  · cases h
    exact Nat.zero_le _
  · split at h
    · cases h
      exact List.length_take_le _ _
    · rename_i hback
      split at h
      · rename_i as' wire' htake
        cases h
        have hlen : as'.length ≤ n - s.back.length := by
          unfold take at htake
          split at htake
          · cases htake
          · cases htake
          · cases htake
            exact List.length_take_le _ _
        rw [List.length_append]
        omega
      · split at h
        · cases h
        · cases h
          omega
      · cases h

/-! ## Filling a buffer -/

/-- The loop that fills a buffer until there is enough in it, or no more
room, or nothing follows; `none` where nothing comes for too long. -/
def fill (enough : List α → Bool) (room : ℕ) (buf : List α) (s : Pushback α) :
    Option (List α × Pushback α) :=
  if enough buf then some (buf, s)
  else
    match _h : s.read (room - buf.length) with
    | (.elements (a :: as), s) => fill enough room (buf ++ a :: as) s
    | (.elements [], s) => some (buf, s)
    | (.ended, s) => some (buf, s)
    | (.silent, _) => none
termination_by room - buf.length
decreasing_by
  have hlen := length_le_of_read _h
  simp only [List.length_append, List.length_cons] at hlen ⊢
  omega

variable {enough : List α → Bool} {room : ℕ} {buf : List α}

theorem fill_of_enough (h : enough buf = true) : fill enough room buf s = some (buf, s) := by
  rw [fill, if_pos h]

theorem fill_of_read {a : α} (henough : ¬ enough buf = true)
    (h : s.read (room - buf.length) = (.elements (a :: as), s')) :
    fill enough room buf s = fill enough room (buf ++ a :: as) s' := by
  rw [fill, if_neg henough]
  split <;> simp_all

theorem fill_of_stop (henough : ¬ enough buf = true)
    (h : s.read (room - buf.length) = (.elements [], s') ∨
      s.read (room - buf.length) = (.ended, s')) : fill enough room buf s = some (buf, s') := by
  rw [fill, if_neg henough]
  split <;> simp_all

theorem fill_of_silent (henough : ¬ enough buf = true)
    (h : s.read (room - buf.length) = (.silent, s')) : fill enough room buf s = none := by
  rw [fill, if_neg henough]
  split <;> simp_all

/-- A call leaves no more put back than there was beyond what it got. -/
theorem length_back_of_read (h : s.read n = (.elements as, s')) :
    s'.back.length ≤ s.back.length - as.length := by
  unfold read at h
  split at h
  · cases h
    exact Nat.le_refl _
  · split at h
    · rename_i hle
      cases h
      exact Nat.le_of_eq (by rw [List.length_drop, List.length_take_of_le hle])
    · split at h
      · cases h
        exact Nat.zero_le _
      · split at h
        · cases h
        · cases h
          exact Nat.zero_le _
      · cases h

/-- A call that gets nothing leaves nothing put back. -/
theorem back_of_read {got : Got α} (h : s.read n = (got, s'))
    (hgot : ∀ as, got ≠ .elements as) : s'.back = [] := by
  unfold read at h
  split at h
  · cases h
    exact absurd rfl (hgot _)
  · split at h
    · cases h
      exact absurd rfl (hgot _)
    · split at h
      · cases h
        rfl
      · cases h
        rfl
      · cases h
        rfl

/-- **The room is kept**, whatever arrives. -/
theorem length_le_of_fill {buf' : List α} (h : fill enough room buf s = some (buf', s'))
    (hroom : buf.length + s.back.length ≤ room) : buf'.length + s'.back.length ≤ room := by
  induction hn : room - buf.length using Nat.strongRecOn generalizing buf s with
  | ind n ih =>
    subst hn
    by_cases henough : enough buf = true
    · rw [fill_of_enough henough] at h
      cases h
      exact hroom
    · rcases hread : s.read (room - buf.length) with ⟨as | - | -, s''⟩
      · have hlen := length_le_of_read hread
        have hback := length_back_of_read hread
        cases as with
        | nil =>
          rw [fill_of_stop henough (.inl hread)] at h
          cases h
          rw [List.length_nil] at hback
          omega
        | cons a as =>
          rw [fill_of_read henough hread] at h
          rw [List.length_cons] at hlen hback
          refine ih _ ?_ h ?_ rfl
          · rw [List.length_append, List.length_cons]
            omega
          · rw [List.length_append, List.length_cons]
            omega
      · have hback := back_of_read hread fun as h => by cases h
        rw [fill_of_stop henough (.inr hread)] at h
        cases h
        rw [hback, List.length_nil]
        omega
      · rw [fill_of_silent henough hread] at h
        cases h

/-- **Filling** keeps the elements in their order, and goes on until there
is a reason to stop; what was put back and the buffer stay within the
room. -/
theorem fill_of_steady (hs : Steady s.wire) (hroom : buf.length + s.back.length ≤ room) :
    ∃ buf' s', fill enough room buf s = some (buf', s') ∧ Steady s'.wire ∧
      buf' ++ s'.content = buf ++ s.content ∧ buf <+: buf' ∧
      buf'.length + s'.back.length ≤ room ∧
      (enough buf' = true ∨ s'.content = [] ∨ buf'.length = room) := by
  induction hn : room - buf.length using Nat.strongRecOn generalizing buf s with
  | ind n ih =>
    subst hn
    by_cases henough : enough buf = true
    · exact ⟨buf, s, fill_of_enough henough, hs, rfl, List.prefix_refl _, hroom, .inl henough⟩
    · by_cases hfull : buf.length = room
      · have hread : s.read (room - buf.length) = (.elements [], s) := if_pos (by omega)
        exact ⟨buf, s, fill_of_stop henough (.inl hread), hs, rfl, List.prefix_refl _, hroom,
          .inr (.inr hfull)⟩
      · rcases read_cases hs (n := room - buf.length) (by omega) with
          ⟨hnil, hread⟩ | ⟨as, s', hread, hne, hlen, hcontent, hsteady, hback⟩
        · refine ⟨buf, ⟨[], []⟩, fill_of_stop henough (.inr hread), List.not_mem_nil, ?_,
            List.prefix_refl _, ?_, .inr (.inl rfl)⟩
          · rw [hnil]
            rfl
          · exact Nat.le_trans (Nat.le_add_right _ _) hroom
        · obtain ⟨a, as, rfl⟩ := List.exists_cons_of_ne_nil hne
          have hlt : room - (buf ++ a :: as).length < room - buf.length := by
            rw [List.length_append, List.length_cons]
            omega
          have hroom' : (buf ++ a :: as).length + s'.back.length ≤ room := by
            rw [hback (by omega), List.length_append, List.length_nil]
            omega
          obtain ⟨buf', s'', hfill, h₁, h₂, h₃, h₄⟩ := ih _ hlt hsteady hroom' rfl
          refine ⟨buf', s'', (fill_of_read henough hread).trans hfill, h₁, ?_, ?_, h₄⟩
          · rw [h₂, hcontent, List.append_assoc]
          · exact (List.prefix_append _ _).trans h₃

end Pushback

end Lib

end SambaProvider

import Mathlib.Data.List.DropRight

/-!
# Separated lists

A list is cut at its last separator, after the separators at its end have been
trimmed. Either nothing is left to cut, or the trimmed list is some list, a
separator, and a nonempty last segment without separators.
-/

namespace Segments

variable {α : Type*} {sep : α} {l a n : List α}

/-- Every list with a separator has a last one. -/
theorem exists_last_sep (h : sep ∈ l) : ∃ a n, l = a ++ sep :: n ∧ sep ∉ n := by
  obtain ⟨n, a, hl, hn⟩ := List.eq_append_cons_of_mem (List.mem_reverse.mpr h)
  refine ⟨a.reverse, n.reverse, ?_, by rwa [List.mem_reverse]⟩
  rw [← List.reverse_reverse l, hl]
  simp

variable [DecidableEq α]

/-- The list without the separators at its end. -/
def trimEnd (sep : α) (l : List α) : List α := l.rdropWhile (· = sep)

/-- The position of the last separator. -/
def rfind (sep : α) (l : List α) : Option Nat :=
  (l.reverse.findIdx? (· = sep)).map fun i => l.length - 1 - i

/-- What follows the last separator. -/
def lastPiece (sep : α) (l : List α) : List α := l.rtakeWhile (· ≠ sep)

/-- Without a separator there is no last one. -/
theorem rfind_of_not_mem (h : sep ∉ l) : rfind sep l = none := by
  have hnone : l.reverse.findIdx? (· = sep) = none := by
    rw [List.findIdx?_eq_none_iff]
    intro x hx
    rw [decide_eq_false_iff_not]
    rintro rfl
    exact h (List.mem_reverse.mp hx)
  rw [rfind, hnone, Option.map_none]

/-- The last separator is the one that none follows. -/
theorem rfind_append (h : sep ∉ n) : rfind sep (a ++ sep :: n) = some a.length := by
  have hnone : n.reverse.findIdx? (· = sep) = none := by
    rw [List.findIdx?_eq_none_iff]
    intro x hx
    rw [decide_eq_false_iff_not]
    rintro rfl
    exact h (List.mem_reverse.mp hx)
  simp only [rfind, List.reverse_append, List.reverse_cons, List.append_assoc,
    List.singleton_append, List.findIdx?_append, hnone, List.findIdx?_cons, decide_true, if_true,
    Option.map_some, Option.none_or, List.length_append, List.length_cons, List.length_reverse]
  congr 1
  omega

/-- Without a separator the whole list is the last piece. -/
theorem lastPiece_of_not_mem (h : sep ∉ l) : lastPiece sep l = l := by
  rw [lastPiece, List.rtakeWhile_eq_self_iff]
  intro x hx
  rw [decide_eq_true_iff]
  rintro rfl
  exact h hx

/-- The last piece follows the last separator. -/
theorem lastPiece_append (h : sep ∉ n) : lastPiece sep (a ++ sep :: n) = n := by
  induction n using List.reverseRecOn with
  | nil => exact List.rtakeWhile_concat_neg _ _ _ (by simp)
  | append_singleton n x ih =>
    rw [List.mem_append, List.mem_singleton, not_or] at h
    have hx : x ≠ sep := fun heq => h.2 heq.symm
    have hlist : a ++ sep :: (n ++ [x]) = a ++ sep :: n ++ [x] := by simp
    rw [lastPiece, hlist, List.rtakeWhile_concat_pos _ _ _ (by simpa using hx)]
    exact congrArg (· ++ [x]) (ih h.1)

/-! ## Trimming -/

/-- What was trimmed are separators. -/
theorem trimEnd_append (l : List α) : ∃ k, l = trimEnd sep l ++ List.replicate k sep := by
  induction l using List.reverseRecOn with
  | nil => exact ⟨0, rfl⟩
  | append_singleton l x ih =>
    by_cases hx : x = sep
    · obtain ⟨k, hk⟩ := ih
      refine ⟨k + 1, ?_⟩
      rw [trimEnd, List.rdropWhile_concat_pos _ _ _ (by simpa using hx), hx, List.replicate_succ',
        ← List.append_assoc]
      exact congrArg (· ++ [sep]) hk
    · refine ⟨0, ?_⟩
      rw [trimEnd, List.rdropWhile_concat_neg _ _ _ (by simpa using hx)]
      simp

/-- Trimming does not lengthen. -/
theorem trimEnd_length_le (l : List α) : (trimEnd sep l).length ≤ l.length :=
  (List.rdropWhile_prefix _ l).length_le

/-- A list that does not end in a separator is not trimmed. -/
theorem trimEnd_append_segment (hn : n ≠ []) (h : sep ∉ n) : trimEnd sep (a ++ n) = a ++ n := by
  rw [trimEnd, List.rdropWhile_eq_self_iff]
  intro hne hlast
  rw [List.getLast_append_of_ne_nil _ hn, decide_eq_true_iff] at hlast
  exact h (hlast ▸ List.getLast_mem hn)

/-- A trimmed list does not end in a separator. -/
theorem segment_ne_nil (h : trimEnd sep l = a ++ sep :: n) : n ≠ [] := by
  rintro rfl
  have hne : l.rdropWhile (· = sep) ≠ [] := by
    rw [← trimEnd, h]
    simp
  have hlast := List.rdropWhile_last_not _ l hne
  have heq : (l.rdropWhile (· = sep)).getLast hne = sep := by
    have hcongr : ∀ (l' : List α) (hl' : l' ≠ []), l' = a ++ [sep] → l'.getLast hl' = sep := by
      rintro l' hl' rfl
      simp
    exact hcongr _ hne h
  exact hlast (by simpa using heq)

/-- Trimming leaves nothing of a list of separators, and of no other list. -/
theorem trimEnd_eq_nil_iff : trimEnd sep l = [] ↔ ∀ x ∈ l, x = sep := by
  rw [trimEnd, List.rdropWhile_eq_nil_iff]
  simp only [decide_eq_true_eq]

end Segments

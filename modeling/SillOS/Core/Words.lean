import Mathlib.Data.List.Infix

/-!
# Words and prefixes

A list is cut into its words at the separators around them, and stripped of repeated
prefixes. Words that hold no separator survive being joined and cut again.
-/

namespace Words

variable {α : Type*} {isSep : α → Bool} {w rest : List α}

/-- The maximal nonempty pieces without separators. -/
def words (isSep : α → Bool) (l : List α) : List (List α) :=
  (l.splitOnP isSep).filter fun w => !w.isEmpty

/-- A piece between separators holds elements of the list that are none. -/
theorem mem_piece {l p : List α} (hp : p ∈ l.splitOnP isSep) {x : α} (hx : x ∈ p) :
    x ∈ l ∧ isSep x = false := by
  induction l generalizing p with
  | nil =>
    rw [List.splitOnP_nil, List.mem_singleton] at hp
    rw [hp] at hx
    cases hx
  | cons y l ih =>
    obtain ⟨first, pieces, hpieces⟩ := List.exists_cons_of_ne_nil (List.splitOnP_ne_nil isSep l)
    rw [List.splitOnP_cons_eq_if_modifyHead] at hp
    rw [hpieces] at hp ih
    split_ifs at hp with hsep
    · obtain rfl | hp := List.mem_cons.mp hp
      · cases hx
      · exact (ih hp hx).imp_left fun hmem => List.mem_cons_of_mem y hmem
    · rw [List.modifyHead_cons] at hp
      obtain rfl | hp := List.mem_cons.mp hp
      · obtain rfl | hx := List.mem_cons.mp hx
        · exact ⟨List.mem_cons_self, eq_false_of_ne_true hsep⟩
        · obtain ⟨hmem, hnot⟩ := ih List.mem_cons_self hx
          exact ⟨List.mem_cons_of_mem y hmem, hnot⟩
      · obtain ⟨hmem, hnot⟩ := ih (List.mem_cons_of_mem first hp) hx
        exact ⟨List.mem_cons_of_mem y hmem, hnot⟩

/-- A word is not empty, and its elements are those of the list that are no separators. -/
theorem mem_words {l : List α} (hw : w ∈ words isSep l) :
    w ≠ [] ∧ ∀ x ∈ w, x ∈ l ∧ isSep x = false := by
  obtain ⟨hpiece, hne⟩ := List.mem_filter.mp hw
  exact ⟨by simpa using hne, fun x hx => mem_piece hpiece hx⟩

/-- The first word ends at the first separator behind it. -/
theorem words_append (hne : w ≠ []) (hw : ∀ x ∈ w, isSep x = false) {sep : α}
    (hsep : isSep sep = true) : words isSep (w ++ sep :: rest) = w :: words isSep rest := by
  rw [words, List.splitOnP_append_cons_of_forall_mem hw sep hsep]
  exact List.filter_cons_of_pos (by simpa using hne)

/-- A list without separators is one word. -/
theorem words_singleton (hne : w ≠ []) (hw : ∀ x ∈ w, isSep x = false) :
    words isSep w = [w] := by
  rw [words, List.splitOnP_eq_singleton hw]
  exact List.filter_cons_of_pos (by simpa using hne)

/-- Words joined by a separator are cut again. -/
theorem words_intercalate {sep : α} (hsep : isSep sep = true) {ws : List (List α)}
    (hws : ∀ w ∈ ws, w ≠ [] ∧ ∀ x ∈ w, isSep x = false) :
    words isSep (List.intercalate [sep] ws) = ws := by
  induction ws with
  | nil => rfl
  | cons w ws ih =>
    obtain ⟨⟨hne, hw⟩, hws⟩ := List.forall_mem_cons.mp hws
    cases ws with
    | nil => simpa using words_singleton hne hw
    | cons v ws =>
      rw [List.intercalate_cons_cons, List.append_assoc, List.singleton_append,
        words_append hne hw hsep, ih hws]

section Prefixes

variable [DecidableEq α] {pat l : List α}

/-- Strip a prefix as often as the list begins with it. -/
def trimStartMatches (pat l : List α) : List α :=
  match pat.isPrefixOf? l with
  | none => l
  | some rest => if rest.length < l.length then trimStartMatches pat rest else l
termination_by l.length

/-- One prefix is stripped. -/
theorem trimStartMatches_append (hpat : pat ≠ []) :
    trimStartMatches pat (pat ++ l) = trimStartMatches pat l := by
  have hpos := List.length_pos_of_ne_nil hpat
  have hlt : l.length < (pat ++ l).length := by
    rw [List.length_append]
    omega
  rw [trimStartMatches, List.isPrefixOf?_eq_some_iff_append_eq.mpr rfl]
  exact if_pos hlt

/-- A list without some element of the prefix does not begin with it. -/
theorem trimStartMatches_of_not_mem {x : α} (hx : x ∈ pat) (hl : x ∉ l) :
    trimStartMatches pat l = l := by
  have hnone : pat.isPrefixOf? l = none := by
    rw [Option.eq_none_iff_forall_ne_some]
    intro rest hrest
    have happend : pat ++ rest = l := List.isPrefixOf?_eq_some_iff_append_eq.mp hrest
    exact hl (happend ▸ List.mem_append_left rest hx)
  rw [trimStartMatches, hnone]

end Prefixes

end Words

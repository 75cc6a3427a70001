import Mathlib.Data.List.Basic

/-!
# First fit

A list is searched for the first element that can serve a request. That element is
replaced by what it leaves over; the elements around it stay as they are.
-/

namespace FirstFit

variable {α β : Type*} {serve : α → Option (β × List α)} {l l' : List α} {b : β}

/-- Serve a request from the first element that can, which leaves a list of elements. -/
def takeFirst (serve : α → Option (β × List α)) : List α → Option (β × List α)
  | [] => none
  | a :: l =>
    match serve a with
    | some (b, left) => some (b, left ++ l)
    | none => (takeFirst serve l).map fun (b, l') => (b, a :: l')

private theorem takeFirst_cons_of_some {a : α} {left : List α} (h : serve a = some (b, left)) :
    takeFirst serve (a :: l) = some (b, left ++ l) := by
  rw [takeFirst, h]

private theorem takeFirst_cons_of_none {a : α} (h : serve a = none) :
    takeFirst serve (a :: l) = (takeFirst serve l).map fun (b, l') => (b, a :: l') := by
  rw [takeFirst, h]

/-- A request fails if no element can serve it. -/
theorem takeFirst_eq_none : takeFirst serve l = none ↔ ∀ a ∈ l, serve a = none := by
  induction l with
  | nil => simp [takeFirst]
  | cons a l ih =>
    rw [List.forall_mem_cons, ← ih]
    cases ha : serve a with
    | none => simp [takeFirst_cons_of_none ha]
    | some r => simp [takeFirst_cons_of_some ha]

/-- A request is served by the first element that can; the elements around it stay. -/
theorem takeFirst_eq_some (h : takeFirst serve l = some (b, l')) :
    ∃ pre a post left, l = pre ++ a :: post ∧ (∀ x ∈ pre, serve x = none) ∧
      serve a = some (b, left) ∧ l' = pre ++ left ++ post := by
  induction l generalizing l' with
  | nil => cases h
  | cons a l ih =>
    cases ha : serve a with
    | some r =>
      obtain ⟨b', left⟩ := r
      rw [takeFirst_cons_of_some ha] at h
      cases h
      exact ⟨[], a, l, left, rfl, fun x hx => absurd hx List.not_mem_nil, ha, rfl⟩
    | none =>
      rw [takeFirst_cons_of_none ha] at h
      obtain ⟨⟨b', l''⟩, hrest, heq⟩ := Option.map_eq_some_iff.mp h
      cases heq
      obtain ⟨pre, c, post, left, rfl, hpre, hc, rfl⟩ := ih hrest
      exact ⟨a :: pre, c, post, left, rfl, List.forall_mem_cons.mpr ⟨ha, hpre⟩, hc, rfl⟩

end FirstFit

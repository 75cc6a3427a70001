import Mathlib.Logic.Relation

/-!
# Rooted trees by parents

A set of nodes with a parent function is a tree below its root when every parent is
the root or a node again, and going to a parent other than the root lowers a measure.
Every node is then reached from the root by a finite chain of children.
-/

namespace Rooted

variable {α : Type*} {nodes : α → Prop} {parent : α → α} {root : α} {size : α → Nat}

/-- A child of a node or of the root. -/
def Child (nodes : α → Prop) (parent : α → α) (d p : α) : Prop := nodes p ∧ parent p = d

/-- A chain of children leads from the root to every node. -/
theorem reached (hclosed : ∀ p, nodes p → parent p = root ∨ nodes (parent p))
    (hsize : ∀ p, parent p = root ∨ size (parent p) < size p) {p : α} (hp : nodes p) :
    Relation.ReflTransGen (Child nodes parent) root p := by
  induction hn : size p using Nat.strongRecOn generalizing p with
  | ind n ih =>
    have hlast : Child nodes parent (parent p) p := ⟨hp, rfl⟩
    by_cases hroot : parent p = root
    · exact Relation.ReflTransGen.single (hroot ▸ hlast)
    · have hnode := (hclosed p hp).resolve_left hroot
      have hless := (hsize p).resolve_left hroot
      exact (ih _ (hn ▸ hless) hnode rfl).tail hlast

end Rooted

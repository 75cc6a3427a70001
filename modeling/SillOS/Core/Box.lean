import Mathlib.Data.Set.Lattice

/-!
# Bounding boxes

Half-open rectangles of grid points, and the smallest one that contains a given
set of points. The bounding box of a union is the join of the bounding boxes.
-/

/-- The rectangle `[minX, maxX) × [minY, maxY)`. -/
structure Box where
  minX : Nat
  minY : Nat
  maxX : Nat
  maxY : Nat

namespace Box

/-- The points of a box. -/
def points (b : Box) : Set (Nat × Nat) :=
  {p | (b.minX ≤ p.1 ∧ p.1 < b.maxX) ∧ b.minY ≤ p.2 ∧ p.2 < b.maxY}

/-- The points of a box are those between its edges. -/
theorem mem_points {b : Box} {p : Nat × Nat} :
    p ∈ b.points ↔ (b.minX ≤ p.1 ∧ p.1 < b.maxX) ∧ b.minY ≤ p.2 ∧ p.2 < b.maxY := Iff.rfl

instance (b : Box) (p : Nat × Nat) : Decidable (p ∈ b.points) :=
  decidable_of_iff _ mem_points.symm

/-- The box has a point. -/
def Proper (b : Box) : Prop := b.minX < b.maxX ∧ b.minY < b.maxY

/-- The smallest box around two boxes. -/
def join (b c : Box) : Box where
  minX := min b.minX c.minX
  minY := min b.minY c.minY
  maxX := max b.maxX c.maxX
  maxY := max b.maxY c.maxY

variable {b c : Box} {S T : Set (Nat × Nat)}

/-- Joining a box keeps it proper. -/
theorem Proper.join (hb : b.Proper) : (b.join c).Proper := by
  simp only [Proper, Box.join] at *
  omega

/-- Containment of a box that has a point is containment of its sides. -/
theorem Proper.subset_iff (hb : b.Proper) :
    b.points ⊆ c.points ↔
      (c.minX ≤ b.minX ∧ b.maxX ≤ c.maxX) ∧ c.minY ≤ b.minY ∧ b.maxY ≤ c.maxY := by
  obtain ⟨hx, hy⟩ := hb
  constructor
  · intro h
    have hlow : (b.minX, b.minY) ∈ c.points :=
      h ⟨⟨Nat.le_refl _, hx⟩, Nat.le_refl _, hy⟩
    have hhigh : (b.maxX - 1, b.maxY - 1) ∈ c.points := by
      apply h
      rw [mem_points]
      dsimp only
      omega
    rw [mem_points] at hlow hhigh
    dsimp only at hlow hhigh
    omega
  · rintro h ⟨x, y⟩ hp
    rw [mem_points] at hp ⊢
    dsimp only at hp ⊢
    omega

/-- The box is the smallest that contains the points. -/
structure Bounds (b : Box) (T : Set (Nat × Nat)) : Prop where
  /-- Every point is in the box. -/
  subset : T ⊆ b.points
  /-- Every box with all the points contains the box. -/
  least : ∀ c : Box, T ⊆ c.points → b.points ⊆ c.points

/-- A box bounds its own points. -/
theorem bounds_points (b : Box) : b.Bounds b.points := ⟨subset_rfl, fun _ h => h⟩

/-- A box with a point bounds a set with a point. -/
theorem Bounds.nonempty (h : b.Bounds T) (hb : b.Proper) : T.Nonempty := by
  rw [Set.nonempty_iff_ne_empty]
  rintro rfl
  have hsub := h.least ⟨0, 0, 0, 0⟩ (Set.empty_subset _)
  rw [hb.subset_iff] at hsub
  obtain ⟨hx, hy⟩ := hb
  dsimp only at hsub
  omega

/-- The join bounds the union. -/
theorem Bounds.union (h : b.Bounds S) (h' : c.Bounds T) (hb : b.Proper) (hc : c.Proper) :
    (b.join c).Bounds (S ∪ T) where
  subset := by
    apply Set.union_subset
    · refine h.subset.trans (hb.subset_iff.mpr ?_)
      simp only [Box.join]
      omega
    · refine h'.subset.trans (hc.subset_iff.mpr ?_)
      simp only [Box.join]
      omega
  least d hd := by
    have hbd := hb.subset_iff.mp (h.least d (Set.subset_union_left.trans hd))
    have hcd := hc.subset_iff.mp (h'.least d (Set.subset_union_right.trans hd))
    rw [hb.join.subset_iff]
    simp only [Box.join]
    omega

end Box

import Mathlib.Algebra.Order.Ring.Nat
import Mathlib.Data.List.Range
import Mathlib.Logic.Function.Basic

/-!
# Row-major grids

A grid of a given stride is stored row by row in a linear memory. Drawing code
writes a run of cells in each of several consecutive rows. The laws read the
result back cell by cell: inside the written rectangle, outside of it, and for
copies whose source rows lie at or below their target rows. A copy from rows above
its target rows may read what it has written, and the last law says when that shows.
-/

namespace Raster

variable {β σ : Type*}

/-- Write `n` consecutive cells from `start` on. -/
def writeRow (m : Nat → β) (start n : Nat) (f : Nat → β) : Nat → β := fun i =>
  if start ≤ i ∧ i < start + n then f (i - start) else m i

/-- Run the body for the `n` indices from `y` on. -/
def forRange (y n : Nat) (body : Nat → σ → σ) (s : σ) : σ :=
  (List.range' y n).foldl (fun s r => body r s) s

/-- An empty range does nothing. -/
@[simp] theorem forRange_zero (y : Nat) (body : Nat → σ → σ) (s : σ) :
    forRange y 0 body s = s := rfl

/-- The last index comes last. -/
theorem forRange_succ (y n : Nat) (body : Nat → σ → σ) (s : σ) :
    forRange y (n + 1) body s = body (y + n) (forRange y n body s) := by
  rw [forRange, List.range'_1_concat, List.foldl_append]
  rfl

/-- Renumber the indices from zero. -/
theorem forRange_shift (y n : Nat) (body : Nat → σ → σ) (s : σ) :
    forRange y n body s = forRange 0 n (fun r => body (y + r)) s := by
  induction n with
  | zero => rfl
  | succ n ih => rw [forRange_succ, forRange_succ, ih, Nat.zero_add]

/-- What every iteration preserves, the loop preserves. -/
theorem forRange_invariant {P : σ → Prop} {body : Nat → σ → σ} {y n : Nat} {s : σ}
    (hbody : ∀ r s, y ≤ r → r < y + n → P s → P (body r s)) (hs : P s) :
    P (forRange y n body s) := by
  induction n with
  | zero => exact hs
  | succ n ih =>
    rw [forRange_succ]
    refine hbody _ _ (Nat.le_add_right y n) (by omega) (ih fun r s h1 h2 => ?_)
    exact hbody r s h1 (by omega)

/-- Rows do not overlap. -/
theorem row_lt {w x y r : Nat} (hx : x < w) (h : y < r) : y * w + x < r * w := by
  have hrow : (y + 1) * w ≤ r * w := Nat.mul_le_mul_right w h
  rw [Nat.add_mul, Nat.one_mul] at hrow
  omega

/-- The cells of a run inside row `r`. -/
theorem mem_row_iff {w a n x y r : Nat} (hx : x < w) (ha : a + n ≤ w) :
    (r * w + a ≤ y * w + x ∧ y * w + x < r * w + a + n) ↔ y = r ∧ a ≤ x ∧ x < a + n := by
  rcases Nat.lt_trichotomy y r with h | rfl | h
  · have hlt := row_lt hx h
    omega
  · omega
  · by_cases hn : n = 0
    · omega
    · have hlt := row_lt (x := a + n - 1) (w := w) (by omega) h
      omega

/-- Different positions are different cells. -/
theorem cell_inj {w x y x' y' : Nat} (hx : x < w) (hx' : x' < w) :
    y * w + x = y' * w + x' ↔ y = y' ∧ x = x' := by
  have h := mem_row_iff (n := 1) (r := y') (y := y) hx (show x' + 1 ≤ w by omega)
  omega

section Rows

variable {w a n x y : Nat} (m : Nat → β)

/-- A run written into one row. -/
theorem writeRow_cell {r : Nat} {f : Nat → β} (hx : x < w) (ha : a + n ≤ w) :
    writeRow m (r * w + a) n f (y * w + x) =
      if y = r ∧ a ≤ x ∧ x < a + n then f (x - a) else m (y * w + x) := by
  unfold writeRow
  by_cases h : y = r ∧ a ≤ x ∧ x < a + n
  · rw [if_pos h, if_pos ((mem_row_iff hx ha).mpr h)]
    obtain ⟨rfl, _, _⟩ := h
    congr 1
    omega
  · rw [if_neg h, if_neg fun hmem => h ((mem_row_iff hx ha).mp hmem)]

/-- Writing one run per row, with values that do not depend on the grid. -/
theorem rows_fill {k h : Nat} {f : Nat → Nat → β} (hx : x < w) (ha : a + n ≤ w) :
    forRange k h (fun r m => writeRow m (r * w + a) n (f r)) m (y * w + x) =
      if (k ≤ y ∧ y < k + h) ∧ a ≤ x ∧ x < a + n then f y (x - a) else m (y * w + x) := by
  induction h with
  | zero =>
    have hno : ¬((k ≤ y ∧ y < k + 0) ∧ a ≤ x ∧ x < a + n) := by omega
    rw [forRange_zero, if_neg hno]
  | succ h ih =>
    rw [forRange_succ, writeRow_cell _ hx ha, ih]
    by_cases hy : y = k + h
    · subst hy
      have hin : k ≤ k + h ∧ k + h < k + (h + 1) := by omega
      simp only [true_and, hin, and_self, Nat.lt_irrefl, and_false, false_and, if_false]
    · have hiff : (k ≤ y ∧ y < k + (h + 1)) ↔ (k ≤ y ∧ y < k + h) := by omega
      simp only [hy, false_and, if_false, hiff]

/-- Copying runs from rows at or below their target rows, top row first, moves the
old contents. -/
theorem rows_copy {p q b h : Nat} (hx : x < w) (hpq : p ≤ q) (ha : a + n ≤ w) (hb : b + n ≤ w) :
    forRange 0 h (fun r m => writeRow m ((p + r) * w + a) n fun i => m ((q + r) * w + b + i)) m
        (y * w + x) =
      if (p ≤ y ∧ y < p + h) ∧ a ≤ x ∧ x < a + n then m ((y + (q - p)) * w + (b + (x - a)))
      else m (y * w + x) := by
  induction h generalizing x y with
  | zero =>
    have hno : ¬((p ≤ y ∧ y < p + 0) ∧ a ≤ x ∧ x < a + n) := by omega
    rw [forRange_zero, if_neg hno]
  | succ h ih =>
    rw [forRange_succ, Nat.zero_add, writeRow_cell _ hx ha, ih hx]
    by_cases hy : y = p + h
    · subst hy
      have hin : p ≤ p + h ∧ p + h < p + (h + 1) := by omega
      simp only [true_and, hin, and_self, Nat.lt_irrefl, and_false, false_and, if_false]
      split
      · -- The source row is below all rows written so far.
        have hsrc : ¬((p ≤ q + h ∧ q + h < p + h) ∧ a ≤ b + (x - a) ∧ b + (x - a) < a + n) := by
          omega
        rw [Nat.add_assoc ((q + h) * w), ih (by omega), if_neg hsrc]
        congr 3
        omega
      · rfl
    · have hiff : (p ≤ y ∧ y < p + (h + 1)) ↔ (p ≤ y ∧ y < p + h) := by omega
      simp only [hy, false_and, if_false, hiff]

/-- Cells outside the written rectangle keep their contents, whatever is written. -/
theorem rows_frame {p h : Nat} {f : Nat → (Nat → β) → Nat → β} (hx : x < w) (ha : a + n ≤ w)
    (hout : ¬((p ≤ y ∧ y < p + h) ∧ a ≤ x ∧ x < a + n)) :
    forRange 0 h (fun r m => writeRow m ((p + r) * w + a) n (f r m)) m (y * w + x) =
      m (y * w + x) := by
  refine forRange_invariant (P := fun m' : Nat → β => m' (y * w + x) = m (y * w + x)) ?_ rfl
  intro r m' _ hr hm'
  rw [writeRow_cell _ hx ha, if_neg (by omega)]
  exact hm'

/-- Copying runs from rows above their target rows, top row first, reads again what
it has written: a source cell inside the target is read after it was written. -/
theorem rows_copy_down {p q b h r c : Nat} (hqp : q < p) (ha : a + n ≤ w) (hb : b + n ≤ w)
    (hr : r < h) (hc : c < n) {m' : Nat → β}
    (hm' : m' = forRange 0 h
      (fun r m => writeRow m ((p + r) * w + a) n fun i => m ((q + r) * w + b + i)) m) :
    m' ((p + r) * w + (a + c)) =
      if p ≤ q + r ∧ a ≤ b + c ∧ b + c < a + n then m' ((q + r) * w + (b + c))
      else m ((q + r) * w + (b + c)) := by
  subst hm'
  induction h with
  | zero => omega
  | succ h ih =>
    rw [forRange_succ, Nat.zero_add, writeRow_cell _ (by omega) ha, writeRow_cell _ (by omega) ha]
    have hsrc : ¬(q + r = p + h ∧ a ≤ b + c ∧ b + c < a + n) := by omega
    rw [if_neg hsrc]
    by_cases hlast : r = h
    · subst hlast
      rw [if_pos ⟨rfl, by omega, by omega⟩, Nat.add_sub_cancel_left, Nat.add_assoc]
      split
      · rfl
      · rename_i hout
        refine rows_frame (f := fun r m i => m ((q + r) * w + b + i)) m (by omega) ha ?_
        omega
    · rw [if_neg (by omega), ih (by omega)]

/-- A copy of runs, top row first, moves the old contents exactly if its target rows
are not below its source rows, or every cell in both rectangles already holds what
is copied onto it. -/
theorem rows_copy_iff {p q b h : Nat} (ha : a + n ≤ w) (hb : b + n ≤ w) :
    (∀ r < h, ∀ c < n,
      forRange 0 h (fun r m => writeRow m ((p + r) * w + a) n fun i => m ((q + r) * w + b + i)) m
        ((p + r) * w + (a + c)) = m ((q + r) * w + (b + c))) ↔
    p ≤ q ∨ ∀ r < h, ∀ c < n, q ≤ p + r → p + r < q + h → b ≤ a + c → a + c < b + n →
      m ((p + r) * w + (a + c)) = m ((q + r) * w + (b + c)) := by
  by_cases hpq : p ≤ q
  · refine iff_of_true (fun r hr c hc => ?_) (Or.inl hpq)
    rw [rows_copy m (by omega) hpq ha hb, if_pos (by omega), Nat.add_sub_cancel_left,
      show p + r + (q - p) = q + r by omega]
  generalize hm' : forRange 0 h
    (fun r m => writeRow m ((p + r) * w + a) n fun i => m ((q + r) * w + b + i)) m = m'
  have hread := fun r hr c hc =>
    rows_copy_down (p := p) (h := h) (r := r) (c := c) m (Nat.lt_of_not_le hpq) ha hb hr hc hm'.symm
  rw [or_iff_right hpq]
  constructor
  · intro hcopy r hr c hc hqr hrq hbc hcb
    -- The cell is the source of another target cell, which is written later.
    have hlater := hread (p + r - q) (by omega) (a + c - b) (by omega)
    rw [hcopy _ (by omega) _ (by omega), show q + (p + r - q) = p + r by omega,
      show b + (a + c - b) = a + c by omega, if_pos (by omega)] at hlater
    exact hlater.trans (hcopy r hr c hc)
  · intro hsame r
    induction r using Nat.strong_induction_on with
    | _ r ih =>
      intro hr c hc
      rw [hread r hr c hc]
      split
      · rename_i hin
        have hprev := ih (q + r - p) (by omega) (by omega) (b + c - a) (by omega)
        have hold := hsame (q + r - p) (by omega) (b + c - a) (by omega)
        rw [show p + (q + r - p) = q + r by omega, show a + (b + c - a) = b + c by omega]
          at hprev hold
        exact hprev.trans (hold (by omega) (by omega) (by omega) (by omega)).symm
      · rfl

end Rows

end Raster

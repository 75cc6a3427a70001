import SillOS.Console.State

/-!
# The picture of the console

The full redraw, read back pixel by pixel: cells inside the grid, the background
color around it.
-/

namespace SillOS

open Fb Raster

/-- A pixel of a drawn cell. -/
def Cell.pixel (cell : Cell) (font : Font) (info : Info) (row col : Nat) : UInt32 :=
  if cell.character ≠ 0x20 ∧ font.lit cell.character row col then info.colorToU32 cell.foreground
  else info.colorToU32 cell.background

/-- A blank cell shows its background. -/
@[simp] theorem Cell.EMPTY_pixel (font : Font) (info : Info) (row col : Nat) :
    EMPTY.pixel font info row col = info.colorToU32 defaultBackground := rfl

namespace Console

/-- The picture that a full redraw makes. -/
def picture (c : Console) (x y : Nat) : UInt32 :=
  if x / charWidth < c.columns ∧ y / charHeight < c.rows then
    (c.getCell (y / charHeight) (x / charWidth)).pixel c.font c.fb.info
      (y % charHeight) (x % charWidth)
  else c.fb.info.colorToU32 c.background

/-- The pixels of a grid position. -/
private theorem mem_cell_iff {x y row column : Nat} :
    ((column * charWidth ≤ x ∧ x < column * charWidth + charWidth) ∧
      row * charHeight ≤ y ∧ y < row * charHeight + charHeight) ↔
      x / charWidth = column ∧ y / charHeight = row := by
  simp only [charWidth, charHeight]
  omega

/-- Drawing a cell paints all pixels of its grid position. -/
theorem overlays_renderCell (c : Console) (info : Info) {row column : Nat} (hrow : row < c.rows)
    (hcolumn : column < c.columns) :
    Overlays info (fun s => c.renderCell row column s)
      fun x y => if x / charWidth = column ∧ y / charHeight = row then
        some ((c.getCell row column).pixel c.font info (y % charHeight) (x % charWidth))
      else none := by
  have hin : ¬(row ≥ c.rows ∨ column ≥ c.columns) := by omega
  have hdraw := (Overlays.drawRect info (column * charWidth) (row * charHeight) charWidth charHeight
    (c.getCell row column).background).comp
      ((c.font.overlays_drawChar info (column * charWidth) (row * charHeight)
        (c.getCell row column).character (c.getCell row column).foreground).ite
          ((c.getCell row column).character ≠ 0x20))
  unfold renderCell
  simp only [if_neg hin]
  refine hdraw.congr fun x y _ => ?_
  have hsize : scaledWidth = charWidth ∧ scaledHeight = charHeight := ⟨rfl, rfl⟩
  simp only [hsize, mem_cell_iff]
  by_cases hcell : x / charWidth = column ∧ y / charHeight = row
  · have hx : x - column * charWidth = x % charWidth := by
      rw [← hcell.1, Nat.mod_eq_sub_div_mul]
    have hy : y - row * charHeight = y % charHeight := by
      rw [← hcell.2, Nat.mod_eq_sub_div_mul]
    rw [hx, hy, if_pos hcell, if_pos hcell, ← ite_and, Cell.pixel]
    simp only [hcell, and_self, true_and]
    split_ifs <;> rfl
  · simp [hcell]

/-- Painting a cell keeps the size of the screen. -/
@[simp] theorem renderCell_info (c : Console) (row column : Nat) (s : Framebuffer) :
    (c.renderCell row column s).info = s.info := by
  by_cases hin : row < c.rows ∧ column < c.columns
  · exact (c.overlays_renderCell s.info hin.1 hin.2).info_eq s rfl
  · rw [renderCell, if_pos (by omega)]

/-- Drawing a row paints all pixels of its cells. -/
theorem overlays_renderRow (c : Console) (info : Info) {row : Nat} (hrow : row < c.rows) :
    Overlays info (fun s => c.renderRow row s)
      fun x y => if x / charWidth < c.columns ∧ y / charHeight = row then
        some ((c.getCell row (x / charWidth)).pixel c.font info (y % charHeight) (x % charWidth))
      else none := by
  have hin : ¬row ≥ c.rows := by omega
  unfold renderRow
  simp only [if_neg hin]
  have hloop := Overlays.loop (n := c.columns) (fun x _ => x / charWidth)
    (fun _ hcolumn => c.overlays_renderCell info hrow hcolumn) ?_
  · refine hloop.congr fun x y _ => ?_
    rw [← ite_and]
    exact if_congr (by omega) rfl rfl
  · intro column x y hsome
    simp only [ne_eq, ite_eq_right_iff, reduceCtorEq, imp_false, not_not] at hsome
    exact hsome.1

/-- A full redraw makes the picture. -/
theorem pixel_render (c : Console) {x y : Nat} (h : c.fb.info.OnScreen x y) :
    c.render.pixel x y = c.picture x y := by
  have hloop := Overlays.loop (n := c.rows) (fun _ y => y / charHeight)
    (fun _ hrow => c.overlays_renderRow c.fb.info hrow) ?_
  · rw [render, hloop.pixel_eq _ (by simp) x y h, Framebuffer.pixel_clear h, ← ite_and, picture]
    by_cases hin : x / charWidth < c.columns ∧ y / charHeight < c.rows
    · rw [if_pos hin, if_pos (by omega)]
      rfl
    · rw [if_neg hin, if_neg (by omega)]
      rfl
  · intro row x y hsome
    simp only [ne_eq, ite_eq_right_iff, reduceCtorEq, imp_false, not_not] at hsome
    exact hsome.2

end Console

end SillOS

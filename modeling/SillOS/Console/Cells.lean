import SillOS.Console.Render

/-!
# What output does to cells and cursor

One description for each output operation: the settings and the input line that it
keeps, the cells that it changes, and where it leaves the cursor.
-/

namespace SillOS.Console

open Fb Raster

/-- Output touches cells, cursor and pixels only. -/
structure Keeps (c d : Console) : Prop where
  font : d.font = c.font
  columns : d.columns = c.columns
  rows : d.rows = c.rows
  foreground : d.foreground = c.foreground
  background : d.background = c.background
  input : d.input = c.input
  inputLen : d.inputLen = c.inputLen
  lineReady : d.lineReady = c.lineReady
  info : d.fb.info = c.fb.info

variable {c d e : Console}

/-- Nothing changes where nothing is done. -/
theorem Keeps.refl (c : Console) : c.Keeps c := ⟨rfl, rfl, rfl, rfl, rfl, rfl, rfl, rfl, rfl⟩

/-- What two operations keep, they keep together. -/
theorem Keeps.trans (h : c.Keeps d) (h' : d.Keeps e) : c.Keeps e where
  font := h'.font.trans h.font
  columns := h'.columns.trans h.columns
  rows := h'.rows.trans h.rows
  foreground := h'.foreground.trans h.foreground
  background := h'.background.trans h.background
  input := h'.input.trans h.input
  inputLen := h'.inputLen.trans h.inputLen
  lineReady := h'.lineReady.trans h.lineReady
  info := h'.info.trans h.info

/-! ## Cells -/

/-- Different grid positions are different cells. -/
theorem cellIndex_inj {row column row' column' : Nat} (h : column < maxColumns)
    (h' : column' < maxColumns) :
    cellIndex row column = cellIndex row' column' ↔ row = row' ∧ column = column' := cell_inj h h'

/-- A store changes its own cell only. -/
theorem getCell_setCell (c : Console) {row column row' column' : Nat} (cell : Cell)
    (h : column < maxColumns) (h' : column' < maxColumns) :
    (c.setCell row column cell).getCell row' column' =
      if row' = row ∧ column' = column then cell else c.getCell row' column' := by
  simp only [getCell, setCell, Function.update_apply, cellIndex_inj h' h]

/-- Every cell of a cleared screen is empty. -/
theorem getCell_clear (c : Console) {row column : Nat} (hrow : row < c.rows)
    (hcolumn : column < c.columns) : c.clear.getCell row column = Cell.EMPTY := by
  have hrows := c.rows_le
  have hcolumns := c.columns_le
  have hlt := row_lt (x := column) (y := row) (w := maxColumns) (r := maxRows) (by omega) (by omega)
  simp only [getCell, clear, writeRow, cellIndex]
  rw [if_pos ⟨Nat.zero_le _, by rw [Nat.mul_comm maxColumns]; omega⟩]

/-- Scrolling a grid with a row. -/
theorem scroll_eq (hrows : c.rows ≠ 0) :
    c.scroll = { c with
      fb := c.fb.scrollUp charHeight c.background
      cells := writeRow (forRange 1 (c.rows - 1)
        (fun row cells => writeRow cells ((row - 1) * maxColumns) c.columns fun i =>
          cells (row * maxColumns + i)) c.cells) (cellIndex (c.rows - 1) 0) maxColumns
            fun _ => Cell.EMPTY
      cursorX := 0
      cursorY := c.rows - 1 } := by
  have hlast : ¬c.rows - 1 ≥ c.rows := by omega
  rw [scroll, if_neg hrows]
  dsimp only [clearRow]
  rw [if_neg hlast]

/-- Scrolling leaves the cursor at the beginning of the bottom row. -/
theorem scroll_cursor (hrows : c.rows ≠ 0) :
    c.scroll.cursorX = 0 ∧ c.scroll.cursorY = c.rows - 1 := by
  rw [scroll_eq hrows]
  exact ⟨rfl, rfl⟩

/-- Scrolling keeps the grid, the colors and the input line. -/
theorem keeps_scroll (c : Console) : c.Keeps c.scroll := by
  by_cases hrows : c.rows = 0
  · rw [scroll, if_pos hrows]
    exact Keeps.refl c
  · rw [scroll_eq hrows]
    exact ⟨rfl, rfl, rfl, rfl, rfl, rfl, rfl, rfl, by simp⟩

/-- Scrolling moves the rows up and leaves a blank row at the bottom. -/
theorem getCell_scroll {row column : Nat} (hrow : row < c.rows) (hcolumn : column < c.columns) :
    c.scroll.getCell row column =
      if row + 1 < c.rows then c.getCell (row + 1) column else Cell.EMPTY := by
  have hcolumns := c.columns_le
  rw [scroll_eq (by omega), getCell]
  dsimp only [cellIndex]
  rw [writeRow_cell _ (by omega) (by omega), forRange_shift]
  have hcopy := rows_copy (w := maxColumns) (x := column) (y := row) (p := 0) (q := 1) (a := 0)
    (b := 0) (n := c.columns) (h := c.rows - 1) c.cells (by omega) (by omega) (by omega) (by omega)
  simp only [Nat.add_zero, Nat.zero_add, Nat.sub_zero, Nat.add_sub_cancel_left] at hcopy ⊢
  rw [hcopy]
  by_cases hlast : row + 1 < c.rows
  · rw [if_neg (by omega), if_pos (by omega), if_pos hlast]
    rfl
  · rw [if_pos (by omega), if_neg hlast]

/-! ## New lines -/

/-- The three ways to start a new line. -/
theorem newline_cases (c : Console) :
    (c.rows = 0 ∧ c.newline = { c with cursorX := 0 }) ∨
      (c.cursorY + 1 < c.rows ∧ c.newline = { c with cursorX := 0, cursorY := c.cursorY + 1 }) ∨
      (c.rows ≠ 0 ∧ c.rows ≤ c.cursorY + 1 ∧ c.newline = { c with cursorX := 0 }.scroll) := by
  unfold newline
  dsimp only
  split_ifs with h1 h2
  · exact Or.inl ⟨h1, rfl⟩
  · exact Or.inr (Or.inl ⟨h2, rfl⟩)
  · exact Or.inr (Or.inr ⟨h1, Nat.le_of_not_lt h2, rfl⟩)

/-- A change of the cursor alone. -/
theorem keeps_cursor (c : Console) (x y : Nat) : c.Keeps { c with cursorX := x, cursorY := y } :=
  ⟨rfl, rfl, rfl, rfl, rfl, rfl, rfl, rfl, rfl⟩

/-- A new line keeps them too. -/
theorem keeps_newline (c : Console) : c.Keeps c.newline := by
  obtain ⟨-, h⟩ | ⟨-, h⟩ | ⟨-, -, h⟩ := c.newline_cases
  · rw [h]
    exact c.keeps_cursor 0 c.cursorY
  · rw [h]
    exact c.keeps_cursor 0 (c.cursorY + 1)
  · rw [h]
    exact (c.keeps_cursor 0 c.cursorY).trans (keeps_scroll _)

/-- A new line starts in the first column. -/
@[simp] theorem newline_cursorX (c : Console) : c.newline.cursorX = 0 := by
  obtain ⟨-, h⟩ | ⟨-, h⟩ | ⟨hrows, -, h⟩ := c.newline_cases
  · rw [h]
  · rw [h]
  · rw [h]
    exact (scroll_cursor (c := { c with cursorX := 0 }) hrows).1

/-- The cursor stays in the grid. -/
theorem newline_cursorY (c : Console) (hrows : c.rows ≠ 0) :
    c.newline.cursorY = min (c.cursorY + 1) (c.rows - 1) := by
  obtain ⟨h0, -⟩ | ⟨hlt, h⟩ | ⟨-, hge, h⟩ := c.newline_cases
  · exact absurd h0 hrows
  · rw [h]
    dsimp only
    omega
  · rw [h, (scroll_cursor (c := { c with cursorX := 0 }) hrows).2]
    dsimp only
    omega

/-! ## Drawing a cell -/

/-- Store a cell and draw it. -/
def drawCell (c : Console) (row column : Nat) (cell : Cell) : Console :=
  let c := c.setCell row column cell
  { c with fb := c.renderCell row column c.fb }

/-- Drawing a cell stores it and then paints it. -/
theorem drawCell_fb (c : Console) (row column : Nat) (cell : Cell) :
    (c.drawCell row column cell).fb = (c.setCell row column cell).renderCell row column c.fb := rfl

/-- On the cells, drawing is storing. -/
theorem getCell_drawCell (c : Console) {row column row' column' : Nat} (cell : Cell)
    (h : column < maxColumns) (h' : column' < maxColumns) :
    (c.drawCell row column cell).getCell row' column' =
      if row' = row ∧ column' = column then cell else c.getCell row' column' := by
  rw [← getCell_setCell c cell h h']
  rfl

/-- Start a new line when the cursor is past the last column. -/
def wrap (c : Console) : Console := if c.cursorX ≥ c.columns then c.newline else c

/-- Move the cursor past a written cell. -/
def advance (c : Console) : Console := { c with cursorX := c.cursorX + 1 }.wrap

/-- Inside a row the cursor moves one column to the right. -/
theorem advance_of_lt (h : c.cursorX + 1 < c.columns) :
    c.advance = { c with cursorX := c.cursorX + 1 } := if_neg (Nat.not_le_of_lt h)

/-- At the end of a row it moves to the next one. -/
theorem advance_of_le (h : c.columns ≤ c.cursorX + 1) : c.advance = c.newline := if_pos h

/-- Writing a character draws its cell and advances, on a screen that has cells. -/
theorem writeCell_eq (c : Console) (character : UInt8) :
    c.writeCell character =
      if c.columns = 0 ∨ c.rows = 0 then c
      else
        let d := c.wrap
        (d.drawCell d.cursorY d.cursorX ⟨character, d.foreground, d.background⟩).advance := rfl

/-- A backspace empties the cell before the cursor, if there is one. -/
theorem backspace_eq (c : Console) :
    c.backspace =
      if c.cursorX = 0 ∧ c.cursorY = 0 then c
      else
        let d :=
          if c.cursorX = 0 then { c with cursorY := c.cursorY - 1, cursorX := c.columns - 1 }
          else { c with cursorX := c.cursorX - 1 }
        d.drawCell d.cursorY d.cursorX Cell.EMPTY := rfl

/-- Drawing a cell keeps the grid, the colors and the input line. -/
theorem keeps_drawCell (c : Console) (row column : Nat) (cell : Cell) :
    c.Keeps (c.drawCell row column cell) :=
  ⟨rfl, rfl, rfl, rfl, rfl, rfl, rfl, rfl, renderCell_info _ row column c.fb⟩

private theorem keeps_wrap (c : Console) : c.Keeps c.wrap := by
  unfold wrap
  split
  · exact c.keeps_newline
  · exact Keeps.refl c

private theorem keeps_advance (c : Console) : c.Keeps c.advance :=
  (c.keeps_cursor (c.cursorX + 1) c.cursorY).trans (keeps_wrap _)

/-- So does writing a character. -/
theorem keeps_writeCell (c : Console) (character : UInt8) : c.Keeps (c.writeCell character) := by
  rw [writeCell_eq]
  split
  · exact Keeps.refl c
  · exact (c.keeps_wrap.trans (keeps_drawCell _ _ _ _)).trans (keeps_advance _)

/-- So does a backspace. -/
theorem keeps_backspace (c : Console) : c.Keeps c.backspace := by
  rw [backspace_eq]
  split_ifs
  · exact Keeps.refl c
  · exact (c.keeps_cursor (c.columns - 1) (c.cursorY - 1)).trans (keeps_drawCell _ _ _ _)
  · exact (c.keeps_cursor (c.cursorX - 1) c.cursorY).trans (keeps_drawCell _ _ _ _)

/-- A byte of output changes cells, cursor and pixels only. -/
theorem keeps_putChar (c : Console) (character : UInt8) : c.Keeps (c.putChar character) := by
  unfold putChar
  dsimp only
  split_ifs
  · exact c.keeps_newline
  · exact c.keeps_cursor 0 c.cursorY
  · exact c.keeps_newline
  · exact c.keeps_cursor _ c.cursorY
  · exact c.keeps_backspace
  · exact c.keeps_writeCell character
  · exact Keeps.refl c

/-! ## The cursor -/

/-- The cursor is on a cell, at the origin of a grid without cells. -/
structure InGrid (c : Console) : Prop where
  cursorX_lt : c.cursorX < max 1 c.columns
  cursorY_lt : c.cursorY < max 1 c.rows

/-- A new line leads to a cursor in the grid. -/
theorem inGrid_newline (h : c.cursorY < max 1 c.rows) : c.newline.InGrid := by
  have hkeeps := c.keeps_newline
  constructor
  · rw [newline_cursorX]
    omega
  · rw [hkeeps.rows]
    by_cases hrows : c.rows = 0
    · simp only [newline, if_pos hrows]
      exact h
    · rw [newline_cursorY c hrows]
      omega

/-- A printed byte goes to the cursor's cell; the cursor advances. -/
theorem writeCell_of_lt (hx : c.cursorX < c.columns) (hrows : c.rows ≠ 0) (character : UInt8) :
    c.writeCell character =
      (c.drawCell c.cursorY c.cursorX ⟨character, c.foreground, c.background⟩).advance := by
  have hwrap : c.wrap = c := if_neg (by omega)
  rw [writeCell_eq, if_neg (by omega)]
  dsimp only
  rw [hwrap]

private theorem inGrid_advance (h : c.cursorY < max 1 c.rows) : c.advance.InGrid := by
  by_cases hedge : c.cursorX + 1 < c.columns
  · rw [advance_of_lt hedge]
    exact ⟨Nat.lt_of_lt_of_le hedge (Nat.le_max_right _ _), h⟩
  · rw [advance_of_le (Nat.le_of_not_lt hedge)]
    exact inGrid_newline h

/-- Writing a character keeps the cursor in the grid. -/
theorem inGrid_writeCell (h : c.InGrid) (character : UInt8) : (c.writeCell character).InGrid := by
  have hx := h.cursorX_lt
  by_cases hempty : c.columns = 0 ∨ c.rows = 0
  · rw [writeCell_eq, if_pos hempty]
    exact h
  · rw [writeCell_of_lt (by omega) (by omega)]
    exact inGrid_advance h.cursorY_lt

/-- A backspace keeps it there. -/
theorem inGrid_backspace (h : c.InGrid) : c.backspace.InGrid := by
  obtain ⟨hx, hy⟩ := h
  rw [backspace_eq]
  split_ifs with hhome hleft
  · exact ⟨hx, hy⟩
  · constructor
    · dsimp only [drawCell, setCell]
      omega
    · dsimp only [drawCell, setCell]
      omega
  · constructor
    · dsimp only [drawCell, setCell]
      omega
    · exact hy

/-- The cursor never leaves the grid. -/
theorem inGrid_putChar (h : c.InGrid) (character : UInt8) : (c.putChar character).InGrid := by
  have hnewline := inGrid_newline h.cursorY_lt
  unfold putChar
  dsimp only
  split_ifs with _ _ _ htab
  · exact hnewline
  · exact ⟨by dsimp only; omega, h.cursorY_lt⟩
  · exact hnewline
  · exact ⟨by dsimp only; omega, h.cursorY_lt⟩
  · exact inGrid_backspace h
  · exact inGrid_writeCell h character
  · exact h

/-- Clearing puts it there. -/
theorem inGrid_clear (c : Console) : c.clear.InGrid :=
  ⟨Nat.lt_of_lt_of_le Nat.one_pos (Nat.le_max_left _ _),
    Nat.lt_of_lt_of_le Nat.one_pos (Nat.le_max_left _ _)⟩

end SillOS.Console

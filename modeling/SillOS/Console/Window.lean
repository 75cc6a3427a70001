import SillOS.Console.Cells

/-!
# A window onto an unbounded terminal

The reference terminal has the console's width and never scrolls. The console shows
its last lines: the simulation relates a grid position to the line that many lines
below the top of the window.
-/

namespace SillOS

open Fb

/-! ## The reference terminal -/

/-- A terminal with a line for every number. -/
structure Terminal where
  lines : Nat → Nat → Cell
  line : Nat
  column : Nat
  foreground : Color
  background : Color

namespace Terminal

def blank (foreground background : Color) : Terminal where
  lines := fun _ _ => Cell.EMPTY
  line := 0
  column := 0
  foreground := foreground
  background := background

def newline (t : Terminal) : Terminal := { t with line := t.line + 1, column := 0 }

/-- Store a cell at the cursor. -/
def store (t : Terminal) (cell : Cell) : Terminal :=
  let line := Function.update (t.lines t.line) t.column cell
  { t with lines := Function.update t.lines t.line line }

/-- A store changes its own place only. -/
theorem lines_store (t : Terminal) (cell : Cell) (line column : Nat) :
    (t.store cell).lines line column =
      if line = t.line ∧ column = t.column then cell else t.lines line column := by
  simp only [store, Function.update_apply]
  split_ifs with hline hcolumn <;> grind

/-- Go to the next column, or to the next line after the last column. -/
def advance (width : Nat) (t : Terminal) : Terminal :=
  if t.column + 1 < width then { t with column := t.column + 1 } else t.newline

/-- Store a cell and advance. -/
def print (width : Nat) (t : Terminal) (character : UInt8) : Terminal :=
  (t.store ⟨character, t.foreground, t.background⟩).advance width

/-- The next multiple of the tab size, or the next line. -/
def tab (width : Nat) (t : Terminal) : Terminal :=
  let next := t.column / 4 * 4 + 4
  if next ≥ width then t.newline else { t with column := next }

/-- Execute a byte; bytes that neither print nor move the cursor are ignored. -/
def put (width : Nat) (t : Terminal) (byte : UInt8) : Terminal :=
  if byte = 0x0a then t.newline
  else if byte = 0x0d then { t with column := 0 }
  else if byte = 0x09 then t.tab width
  else if 0x20 ≤ byte ∧ byte ≤ 0x7e then t.print width byte
  else t

end Terminal

/-- A byte of output or a change of color. -/
inductive Output where
  | byte (byte : UInt8)
  | foreground (color : Color)
  | background (color : Color)

def Terminal.output (width : Nat) (t : Terminal) : Output → Terminal
  | .byte byte => t.put width byte
  | .foreground color => { t with foreground := color }
  | .background color => { t with background := color }

/-- The first line in a window of the given height. -/
def Terminal.top (t : Terminal) (rows : Nat) : Nat := t.line + 1 - rows

namespace Console

def output (c : Console) : Output → Console
  | .byte byte => c.putChar byte
  | .foreground color => c.setForeground color
  | .background color => c.setBackground color

/-! ## The simulation -/

/-- The console shows the last lines of the terminal. -/
structure Shows (c : Console) (t : Terminal) : Prop where
  foreground : c.foreground = t.foreground
  background : c.background = t.background
  cursorX : c.cursorX = t.column
  cursorY : t.top c.rows + c.cursorY = t.line
  cells : ∀ row column, row < c.rows → column < c.columns →
    c.getCell row column = t.lines (t.top c.rows + row) column
  /-- Nothing has been written below the cursor. -/
  unwritten : ∀ line column, t.line < line → t.lines line column = Cell.EMPTY

variable {c : Console} {t : Terminal}

/-- The cursor is inside the window. -/
theorem Shows.cursorY_lt (h : c.Shows t) : c.cursorY < c.rows := by
  have hy := h.cursorY
  simp only [Terminal.top] at hy
  omega

/-- A new line moves window and terminal alike. -/
theorem shows_newline (h : c.Shows t) (hrows : c.rows ≠ 0) : c.newline.Shows t.newline := by
  have hkeeps := c.keeps_newline
  have hy := h.cursorY
  have hlt := h.cursorY_lt
  constructor
  · exact hkeeps.foreground.trans h.foreground
  · exact hkeeps.background.trans h.background
  · exact newline_cursorX c
  · rw [hkeeps.rows, newline_cursorY c hrows]
    simp only [Terminal.top, Terminal.newline] at hy ⊢
    omega
  · intro row column hrow hcolumn
    rw [hkeeps.rows] at hrow ⊢
    rw [hkeeps.columns] at hcolumn
    obtain ⟨h0, -⟩ | ⟨hroom, heq⟩ | ⟨-, hfull, heq⟩ := c.newline_cases
    · exact absurd h0 hrows
    · -- The window does not move yet.
      have htop : t.newline.top c.rows = t.top c.rows := by
        simp only [Terminal.top, Terminal.newline] at hy ⊢
        omega
      rw [heq, htop]
      exact h.cells row column hrow hcolumn
    · have htop : t.newline.top c.rows = t.top c.rows + 1 := by
        simp only [Terminal.top, Terminal.newline] at hy ⊢
        omega
      have hscroll := getCell_scroll (c := { c with cursorX := 0 }) hrow hcolumn
      rw [heq, htop, hscroll]
      dsimp only [Terminal.newline]
      split_ifs with hlast
      · have hcell := h.cells (row + 1) column hlast hcolumn
        rw [show t.top c.rows + 1 + row = t.top c.rows + (row + 1) by omega]
        exact hcell
      · rw [h.unwritten _ column (by omega)]
  · intro line column hline
    exact h.unwritten line column (Nat.lt_of_succ_lt hline)

/-- Both cursors move inside their line. -/
theorem shows_column (h : c.Shows t) (x : Nat) :
    { c with cursorX := x }.Shows { t with column := x } where
  foreground := h.foreground
  background := h.background
  cursorX := rfl
  cursorY := h.cursorY
  cells := h.cells
  unwritten := h.unwritten

/-- The cell at the cursor is stored in both. -/
theorem shows_drawCell (h : c.Shows t) (hx : c.cursorX < c.columns) (cell : Cell) :
    (c.drawCell c.cursorY c.cursorX cell).Shows (t.store cell) where
  foreground := h.foreground
  background := h.background
  cursorX := h.cursorX
  cursorY := h.cursorY
  cells row column hrow hcolumn := by
    have hmax := c.columns_le
    have hx' := h.cursorX
    have hy := h.cursorY
    rw [getCell_drawCell c cell (Nat.lt_of_lt_of_le hx hmax) (Nat.lt_of_lt_of_le hcolumn hmax),
      Terminal.lines_store, h.cells row column hrow hcolumn]
    refine if_congr ?_ rfl rfl
    change _ ↔ t.top c.rows + row = t.line ∧ column = t.column
    omega
  unwritten line column hline := by
    rw [Terminal.lines_store, if_neg fun hno => Nat.ne_of_gt hline hno.1]
    exact h.unwritten line column hline

private theorem shows_advance (h : c.Shows t) (hrows : c.rows ≠ 0) :
    c.advance.Shows (t.advance c.columns) := by
  unfold Terminal.advance
  rw [← h.cursorX]
  split_ifs with hedge
  · rw [advance_of_lt hedge]
    exact shows_column h (c.cursorX + 1)
  · rw [advance_of_le (Nat.le_of_not_lt hedge)]
    exact shows_newline h hrows

/-- A printed byte goes to the same place in both. -/
theorem shows_writeCell (h : c.Shows t) (hx : c.cursorX < c.columns) (hrows : c.rows ≠ 0)
    (character : UInt8) : (c.writeCell character).Shows (t.print c.columns character) := by
  have hstore := shows_drawCell h hx ⟨character, c.foreground, c.background⟩
  rw [writeCell_of_lt hx hrows, Terminal.print, ← h.foreground, ← h.background]
  exact shows_advance hstore hrows

/-- One byte other than backspace. -/
theorem shows_put (h : c.Shows t) (hgrid : c.InGrid) (hcolumns : c.columns ≠ 0)
    (hrows : c.rows ≠ 0) {byte : UInt8} (hbyte : byte ≠ 8) :
    (c.putChar byte).Shows (t.put c.columns byte) := by
  have hnewline := shows_newline h hrows
  have hx := hgrid.cursorX_lt
  have hnext : t.column / 4 * 4 + 4 = (c.cursorX / tabSize + 1) * tabSize := by
    rw [h.cursorX, tabSize]
    omega
  unfold putChar Terminal.put Terminal.tab
  dsimp only
  rw [hnext]
  split_ifs with hn hr ht htab hprint
  · exact hnewline
  · exact shows_column h 0
  · exact hnewline
  · exact shows_column h _
  · exact shows_writeCell h (by omega) hrows byte
  · exact h

private theorem inGrid_output (h : c.InGrid) (event : Output) : (c.output event).InGrid := by
  cases event with
  | byte byte => exact inGrid_putChar h byte
  | foreground color => exact ⟨h.cursorX_lt, h.cursorY_lt⟩
  | background color => exact ⟨h.cursorX_lt, h.cursorY_lt⟩

/-- The size of the grid is fixed. -/
theorem output_size (c : Console) (event : Output) :
    (c.output event).columns = c.columns ∧ (c.output event).rows = c.rows := by
  cases event with
  | byte byte => exact ⟨(c.keeps_putChar byte).columns, (c.keeps_putChar byte).rows⟩
  | foreground color => exact ⟨rfl, rfl⟩
  | background color => exact ⟨rfl, rfl⟩

private theorem shows_output (h : c.Shows t) (hgrid : c.InGrid) (hcolumns : c.columns ≠ 0)
    (hrows : c.rows ≠ 0) {event : Output} (hevent : event ≠ .byte 8) :
    (c.output event).Shows (t.output c.columns event) := by
  cases event with
  | byte byte =>
    refine shows_put h hgrid hcolumns hrows ?_
    rintro rfl
    exact hevent rfl
  | foreground color => exact ⟨rfl, h.background, h.cursorX, h.cursorY, h.cells, h.unwritten⟩
  | background color => exact ⟨h.foreground, rfl, h.cursorX, h.cursorY, h.cells, h.unwritten⟩

/-- A cleared console shows the blank terminal. -/
theorem shows_clear (hrows : c.rows ≠ 0) :
    c.clear.Shows (Terminal.blank c.foreground c.background) where
  foreground := rfl
  background := rfl
  cursorX := rfl
  cursorY := by
    change 0 + 1 - c.rows + 0 = 0
    omega
  cells row column hrow hcolumn := getCell_clear c hrow hcolumn
  unwritten _ _ _ := rfl

/-- After clearing, the console is the window of the terminal's last lines, whatever it
showed before and whatever bytes other than backspace are written. -/
theorem shows_last_lines (c : Console) (hcolumns : 1 ≤ c.columns) (hrows : 1 ≤ c.rows)
    (events : List Output) (hevents : Output.byte 8 ∉ events) :
    let d := events.foldl output c.clear
    let t := events.foldl (Terminal.output c.columns) (Terminal.blank c.foreground c.background)
    let top := t.line + 1 - c.rows
    (∀ row column, row < c.rows → column < c.columns →
      d.getCell row column = t.lines (top + row) column) ∧
      d.cursorX = t.column ∧ top + d.cursorY = t.line := by
  intro d t top
  have hsim : d.Shows t ∧ d.InGrid ∧ d.columns = c.columns ∧ d.rows = c.rows := by
    refine List.foldl_rel (r := fun (d : Console) t =>
      d.Shows t ∧ d.InGrid ∧ d.columns = c.columns ∧ d.rows = c.rows)
      ⟨shows_clear (Nat.ne_of_gt hrows), c.inGrid_clear, rfl, rfl⟩ ?_
    rintro event hevent d t ⟨hshows, hgrid, hwidth, hheight⟩
    have hsize := d.output_size event
    have hne : event ≠ .byte 8 := by
      rintro rfl
      exact hevents hevent
    have hstep := shows_output hshows hgrid (by omega) (by omega) hne
    rw [hwidth] at hstep
    exact ⟨hstep, inGrid_output hgrid event, hsize.1.trans hwidth, hsize.2.trans hheight⟩
  obtain ⟨hshows, -, hwidth, hheight⟩ := hsim
  have htop : t.top d.rows = top := by rw [hheight, Terminal.top]
  refine ⟨fun row column hrow hcolumn => ?_, hshows.cursorX, ?_⟩
  · rw [hshows.cells row column (hheight ▸ hrow) (hwidth ▸ hcolumn), htop]
  · rw [← htop]
    exact hshows.cursorY

/-- Four bytes on a single line of three cells. -/
theorem shows_last_lines_wrapped :
    let events := [Output.byte 0x61, .byte 0x62, .foreground Color.BLACK, .byte 0x63, .byte 0x64]
    let d := events.foldl output lineConsole.clear
    (1 ≤ lineConsole.columns ∧ 1 ≤ lineConsole.rows ∧ Output.byte 8 ∉ events) ∧
      d.getCell 0 0 = ⟨0x64, Color.BLACK, Color.BLACK⟩ ∧ d.cursorX = 1 ∧ d.cursorY = 0 := by
  intro events d
  have hcolumns : 1 ≤ lineConsole.columns := by rw [lineConsole_columns]; decide
  have hrows : 1 ≤ lineConsole.rows := by rw [lineConsole_rows]
  have hevents : Output.byte 8 ∉ events := by simp [events]
  obtain ⟨hcells, hx, hy⟩ := shows_last_lines lineConsole hcolumns hrows events hevents
  refine ⟨⟨hcolumns, hrows, hevents⟩, ?_, ?_, ?_⟩
  · rw [hcells 0 0 hrows hcolumns, lineConsole_columns, lineConsole_rows]
    rfl
  · rw [hx, lineConsole_columns]
    rfl
  · rw [lineConsole_columns, lineConsole_rows] at hy
    exact Nat.add_left_cancel hy

end Console

end SillOS

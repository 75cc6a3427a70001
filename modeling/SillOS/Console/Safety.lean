import SillOS.Console.Redraw
import SillOS.Core.Transition

/-!
# Memory safety of the console

The console once more with every access checked: an index outside of the cell
buffer or the input buffer, and a subtraction that would underflow, ends the call.
On a console whose cursor is in the grid no check fails, whatever its size, and
every operation keeps the cursor in the grid.
-/

namespace SillOS.Console

open Fb Raster

/-- A console of any size. -/
def ofSize (font : Font) (fb : Framebuffer) (width height : Nat) : Console :=
  { new font fb with
    columns := min (width / charWidth) maxColumns
    rows := min (height / charHeight) maxRows
    columns_le := Nat.min_le_right _ _
    rows_le := Nat.min_le_right _ _ }

/-- The console that the kernel starts has the size of its framebuffer. -/
theorem new_eq_ofSize (font : Font) (fb : Framebuffer) :
    new font fb = ofSize font fb fb.info.width fb.info.height := rfl

namespace Checked

/-- A value, if its check passes. -/
def check {α : Type} (ok : Prop) [Decidable ok] (a : α) : Option α := if ok then some a else none

private theorem check_of {α : Type} {ok : Prop} [Decidable ok] (h : ok) (a : α) :
    check ok a = some a :=
  if_pos h

/-- A difference, if it does not underflow. -/
def sub (a b : Nat) : Option Nat := check (b ≤ a) (a - b)

private theorem sub_of_le {a b : Nat} (h : b ≤ a) : sub a b = some (a - b) := if_pos h

/-! ## The checked operations -/

def getCell (c : Console) (row column : Nat) : Option Cell :=
  check (cellIndex row column < maxColumns * maxRows) (c.getCell row column)

def setCell (c : Console) (row column : Nat) (cell : Cell) : Option Console :=
  check (cellIndex row column < maxColumns * maxRows) (c.setCell row column cell)

def clearRow (c : Console) (row : Nat) : Option Console :=
  if row ≥ c.rows then some c
  else
    check (cellIndex row 0 + maxColumns ≤ maxColumns * maxRows)
      { c with cells := writeRow c.cells (cellIndex row 0) maxColumns fun _ => Cell.EMPTY }

def renderCell (c : Console) (row column : Nat) (s : Framebuffer) : Option Framebuffer :=
  if row ≥ c.rows ∨ column ≥ c.columns then some s
  else do
    let cell ← getCell c row column
    let x := column * charWidth
    let y := row * charHeight
    let s := s.drawRect x y charWidth charHeight cell.background
    return if cell.character ≠ 0x20 then c.font.drawChar x y cell.character cell.foreground s else s

/-- Move one row of cells up. -/
def moveRow (columns : Nat) (cells : Nat → Cell) (row : Nat) : Option (Nat → Cell) := do
  let src := row * maxColumns
  let above ← sub row 1
  let dst := above * maxColumns
  check (src + columns ≤ maxColumns * maxRows ∧ dst + columns ≤ maxColumns * maxRows)
    (writeRow cells dst columns fun i => cells (src + i))

def scroll (c : Console) : Option Console :=
  if c.rows = 0 then some c
  else do
    let fb := c.fb.scrollUp charHeight c.background
    let cells ← Transition.run (moveRow c.columns) c.cells (List.range' 1 (c.rows - 1))
    let last ← sub c.rows 1
    let c ← clearRow { c with fb := fb, cells := cells } last
    let last ← sub c.rows 1
    return { c with cursorX := 0, cursorY := last }

def newline (c : Console) : Option Console :=
  let c := { c with cursorX := 0 }
  if c.rows = 0 then some c
  else if c.cursorY + 1 < c.rows then some { c with cursorY := c.cursorY + 1 }
  else scroll c

def writeCell (c : Console) (character : UInt8) : Option Console :=
  if c.columns = 0 ∨ c.rows = 0 then some c
  else do
    let c ← if c.cursorX ≥ c.columns then newline c else some c
    let row := c.cursorY
    let column := c.cursorX
    let c ← setCell c row column ⟨character, c.foreground, c.background⟩
    let fb ← renderCell c row column c.fb
    let c := { c with fb := fb, cursorX := c.cursorX + 1 }
    if c.cursorX ≥ c.columns then newline c else some c

/-- The subtraction of `columns` saturates. -/
def backspace (c : Console) : Option Console :=
  if c.cursorX = 0 ∧ c.cursorY = 0 then some c
  else do
    let c ←
      if c.cursorX = 0 then do
        let above ← sub c.cursorY 1
        some { c with cursorY := above, cursorX := c.columns - 1 }
      else do
        let left ← sub c.cursorX 1
        some { c with cursorX := left }
    let c ← setCell c c.cursorY c.cursorX Cell.EMPTY
    let fb ← renderCell c c.cursorY c.cursorX c.fb
    return { c with fb := fb }

def putChar (c : Console) (character : UInt8) : Option Console :=
  if character = 0x0a then newline c
  else if character = 0x0d then some { c with cursorX := 0 }
  else if character = 0x09 then
    let nextTab := (c.cursorX / tabSize + 1) * tabSize
    if nextTab ≥ c.columns then newline c else some { c with cursorX := nextTab }
  else if character = 8 then backspace c
  else if 0x20 ≤ character ∧ character ≤ 0x7e then writeCell c character
  else some c

def writeStr (c : Console) (text : List UInt8) : Option Console := Transition.run putChar c text

def receiveKey (c : Console) (key : Char) : Option Console :=
  if key = '\n' ∨ key = '\r' then do
    let c ← putChar c 0x0a
    return { c with lineReady := true }
  else if key.val = 8 ∨ key.val = 0x7f then
    if c.inputLen > 0 ∧ c.cursorX > 2 then do
      let inputLen ← sub c.inputLen 1
      putChar { c with inputLen := inputLen } 8
    else some c
  else if key.val < 0x80 ∧ ¬(key.val < 0x20 ∨ key.val = 0x7f) then
    if c.inputLen < inputSize then do
      let character := key.val.toUInt8
      let input ← check (c.inputLen < inputSize) (Function.update c.input c.inputLen character)
      putChar { c with input := input, inputLen := c.inputLen + 1 } character
    else some c
  else some c

def readLine (c : Console) (buffer : List UInt8) : Option (Console × List UInt8 × Option Nat) :=
  if !c.lineReady then some (c, buffer, none)
  else
    let length := min c.inputLen buffer.length
    check (length ≤ buffer.length ∧ length ≤ inputSize)
      ({ c with inputLen := 0, lineReady := false },
        (List.range length).map c.input ++ buffer.drop length, some length)

/-- One checked operation. Clearing fills exactly the cell buffer. -/
def apply (c : Console) : Op → Option Console
  | .putChar character => putChar c character
  | .writeStr text => writeStr c text
  | .receiveKey key => receiveKey c key
  | .readLine buffer => (readLine c buffer).map fun result => result.1
  | .clear => some c.clear
  | .setForeground color => some (c.setForeground color)
  | .setBackground color => some (c.setBackground color).clear
  | .present => some c.present

end Checked

/-! ## No check fails -/

/-- The invariant of the cursor and the input buffer. -/
structure Safe (c : Console) : Prop where
  inGrid : c.InGrid
  inputLen_le : c.inputLen ≤ inputSize

variable {c : Console}

/-- The cells of the largest grid are the cell buffer. -/
theorem cellIndex_lt {row column : Nat} (hrow : row < maxRows) (hcolumn : column < maxColumns) :
    cellIndex row column < maxColumns * maxRows := by
  rw [Nat.mul_comm]
  exact row_lt hcolumn hrow

/-- A row of the largest grid ends inside the cell buffer. -/
theorem row_end_le {row n : Nat} (hrow : row < maxRows) (hn : n ≤ maxColumns) :
    row * maxColumns + n ≤ maxColumns * maxRows := by
  have hle := Nat.mul_le_mul_right maxColumns (Nat.succ_le_of_lt hrow)
  rw [Nat.succ_eq_add_one, Nat.add_mul, Nat.one_mul, Nat.mul_comm maxRows] at hle
  exact Nat.le_trans (Nat.add_le_add_left hn _) hle

/-- The cursor's cell is in the cell buffer even if the grid has no cells. -/
theorem InGrid.cursor_lt (h : c.InGrid) : c.cursorY < maxRows ∧ c.cursorX < maxColumns := by
  have hx := h.cursorX_lt
  have hy := h.cursorY_lt
  have hcolumns := c.columns_le
  have hrows := c.rows_le
  have hsize : 1 ≤ maxColumns ∧ 1 ≤ maxRows := by decide
  omega

private theorem checked_setCell (c : Console) {row column : Nat} (hrow : row < maxRows)
    (hcolumn : column < maxColumns) (cell : Cell) :
    Checked.setCell c row column cell = some (c.setCell row column cell) :=
  Checked.check_of (cellIndex_lt hrow hcolumn) _

private theorem checked_clearRow (c : Console) (row : Nat) :
    Checked.clearRow c row = some (c.clearRow row) := by
  have hrows := c.rows_le
  unfold Checked.clearRow clearRow
  split
  · rfl
  · have hend : cellIndex row 0 + maxColumns ≤ maxColumns * maxRows := by
      rw [cellIndex, Nat.add_zero]
      exact row_end_le (by omega) (Nat.le_refl _)
    exact Checked.check_of hend _

private theorem clearRow_rows (c : Console) (row : Nat) : (c.clearRow row).rows = c.rows := by
  unfold clearRow
  split <;> rfl

private theorem checked_renderCell (c : Console) (row column : Nat) (s : Framebuffer) :
    Checked.renderCell c row column s = some (c.renderCell row column s) := by
  have hcolumns := c.columns_le
  have hrows := c.rows_le
  unfold Checked.renderCell renderCell
  split
  · rfl
  · rw [Checked.getCell, Checked.check_of (cellIndex_lt (by omega) (by omega))]
    rfl

private theorem checked_moveRow {columns row : Nat} (hcolumns : columns ≤ maxColumns)
    (hpos : 1 ≤ row)
    (hrow : row < maxRows) (cells : Nat → Cell) :
    Checked.moveRow columns cells row =
      some (writeRow cells ((row - 1) * maxColumns) columns fun i =>
        cells (row * maxColumns + i)) := by
  rw [Checked.moveRow, Checked.sub_of_le hpos]
  exact Checked.check_of ⟨row_end_le hrow hcolumns, row_end_le (by omega) hcolumns⟩ _

private theorem checked_scroll (c : Console) : Checked.scroll c = some c.scroll := by
  have hbound := c.rows_le
  unfold Checked.scroll scroll
  split
  · rfl
  rename_i hrows
  have hlast : 1 ≤ c.rows := Nat.pos_of_ne_zero hrows
  have hmove : Transition.run (Checked.moveRow c.columns) c.cells (List.range' 1 (c.rows - 1)) =
      some (forRange 1 (c.rows - 1) (fun row cells =>
        writeRow cells ((row - 1) * maxColumns) c.columns fun i =>
          cells (row * maxColumns + i)) c.cells) := by
    refine (Transition.run_total (P := fun _ => True) (fun cells row hrow _ => ?_) trivial).1
    rw [List.mem_range'_1] at hrow
    exact ⟨checked_moveRow c.columns_le hrow.1 (by omega) cells, trivial⟩
  dsimp only
  rw [hmove, Checked.sub_of_le hlast]
  simp only [bind, Option.bind_some, checked_clearRow]
  rw [Checked.sub_of_le (by rw [clearRow_rows]; exact hlast)]
  rfl

private theorem checked_newline (c : Console) : Checked.newline c = some c.newline := by
  unfold Checked.newline newline
  simp only [checked_scroll]
  split_ifs <;> rfl

private theorem checked_writeCell (h : c.InGrid) (character : UInt8) :
    Checked.writeCell c character = some (c.writeCell character) := by
  have hx := h.cursorX_lt
  have hcursor := h.cursor_lt
  unfold Checked.writeCell writeCell
  split
  · rfl
  rename_i hcells
  have hwrap : ¬c.cursorX ≥ c.columns := by omega
  simp only [if_neg hwrap, bind, Option.bind_some, checked_setCell c hcursor.1 hcursor.2,
    checked_renderCell, checked_newline]
  split_ifs <;> rfl

private theorem checked_backspace (h : c.InGrid) : Checked.backspace c = some c.backspace := by
  obtain ⟨hrow, hcolumn⟩ := h.cursor_lt
  have hcolumns := c.columns_le
  have hsize : 1 ≤ maxColumns := by decide
  unfold Checked.backspace backspace
  split_ifs with hhome hleft
  · rfl
  · have hsub : Checked.sub c.cursorY 1 = some (c.cursorY - 1) := Checked.sub_of_le (by omega)
    simp only [hsub, bind, Option.bind_some]
    rw [checked_setCell _ (by omega) (by omega)]
    simp only [Option.bind_some, checked_renderCell]
    rfl
  · have hsub : Checked.sub c.cursorX 1 = some (c.cursorX - 1) := Checked.sub_of_le (by omega)
    simp only [hsub, bind, Option.bind_some]
    rw [checked_setCell _ hrow (by omega)]
    simp only [Option.bind_some, checked_renderCell]
    rfl

private theorem checked_putChar (h : c.InGrid) (character : UInt8) :
    Checked.putChar c character = some (c.putChar character) := by
  unfold Checked.putChar putChar
  simp only [checked_newline, checked_backspace h, checked_writeCell h]
  split_ifs <;> rfl

/-- Output does not touch the input buffer. -/
theorem safe_putChar (h : c.Safe) (character : UInt8) : (c.putChar character).Safe :=
  ⟨inGrid_putChar h.inGrid character, (c.keeps_putChar character).inputLen ▸ h.inputLen_le⟩

private theorem checked_writeStr (h : c.Safe) (text : List UInt8) :
    Checked.writeStr c text = some (c.writeStr text) ∧ (c.writeStr text).Safe :=
  Transition.run_total (fun _ character _ hd =>
    ⟨checked_putChar hd.inGrid character, safe_putChar hd character⟩) h

private theorem checked_receiveKey (h : c.Safe) (key : Char) :
    Checked.receiveKey c key = some (c.receiveKey key) ∧ (c.receiveKey key).Safe := by
  obtain ⟨⟨hx, hy⟩, hlen⟩ := h
  unfold Checked.receiveKey receiveKey
  split_ifs with henter herase hguard hprint hroom
  · rw [checked_putChar ⟨hx, hy⟩]
    obtain ⟨hgrid, hlen'⟩ := safe_putChar ⟨⟨hx, hy⟩, hlen⟩ 0x0a
    exact ⟨rfl, ⟨hgrid.cursorX_lt, hgrid.cursorY_lt⟩, hlen'⟩
  · rw [Checked.sub_of_le hguard.1]
    have hpop : { c with inputLen := c.inputLen - 1 }.Safe :=
      ⟨⟨hx, hy⟩, Nat.le_trans (Nat.sub_le _ _) hlen⟩
    exact ⟨checked_putChar hpop.inGrid 8, safe_putChar hpop 8⟩
  · exact ⟨rfl, ⟨hx, hy⟩, hlen⟩
  · dsimp only
    rw [Checked.check_of hroom]
    have hpush : { c with
        input := Function.update c.input c.inputLen key.val.toUInt8
        inputLen := c.inputLen + 1 }.Safe := ⟨⟨hx, hy⟩, hroom⟩
    exact ⟨checked_putChar hpush.inGrid _, safe_putChar hpush _⟩
  · exact ⟨rfl, ⟨hx, hy⟩, hlen⟩
  · exact ⟨rfl, ⟨hx, hy⟩, hlen⟩

private theorem checked_readLine (h : c.Safe) (buffer : List UInt8) :
    Checked.readLine c buffer = some (c.readLine buffer) ∧ (c.readLine buffer).1.Safe := by
  obtain ⟨⟨hx, hy⟩, hlen⟩ := h
  unfold Checked.readLine readLine
  split
  · exact ⟨rfl, ⟨hx, hy⟩, hlen⟩
  · refine ⟨Checked.check_of ⟨Nat.min_le_right _ _, ?_⟩ _, ⟨hx, hy⟩, Nat.zero_le _⟩
    exact Nat.le_trans (Nat.min_le_left _ _) hlen

/-- One operation passes all checks and keeps the invariant. -/
theorem checked_apply (h : c.Safe) (op : Op) :
    Checked.apply c op = some (c.apply op) ∧ (c.apply op).Safe := by
  cases op with
  | putChar character => exact ⟨checked_putChar h.inGrid character, safe_putChar h character⟩
  | writeStr text => exact checked_writeStr h text
  | receiveKey key => exact checked_receiveKey h key
  | readLine buffer =>
    obtain ⟨hread, hsafe⟩ := checked_readLine h buffer
    refine ⟨?_, hsafe⟩
    rw [Checked.apply, hread]
    rfl
  | clear => exact ⟨rfl, c.inGrid_clear, Nat.zero_le _⟩
  | setForeground color => exact ⟨rfl, ⟨h.inGrid.cursorX_lt, h.inGrid.cursorY_lt⟩, h.inputLen_le⟩
  | setBackground color => exact ⟨rfl, inGrid_clear _, Nat.zero_le _⟩
  | present => exact ⟨rfl, ⟨h.inGrid.cursorX_lt, h.inGrid.cursorY_lt⟩, h.inputLen_le⟩

private theorem safe_ofSize (font : Font) (fb : Framebuffer) (width height : Nat) :
    (ofSize font fb width height).Safe :=
  ⟨⟨Nat.lt_of_lt_of_le Nat.one_pos (Nat.le_max_left _ _),
    Nat.lt_of_lt_of_le Nat.one_pos (Nat.le_max_left _ _)⟩, Nat.zero_le _⟩

/-- On a console of any size, no operation of any sequence fails a check, and
afterwards cursor and input line are within their bounds. -/
theorem console_safe (font : Font) (fb : Framebuffer) (width height : Nat) (ops : List Op) :
    let c := ops.foldl apply (ofSize font fb width height)
    Transition.run Checked.apply (ofSize font fb width height) ops = some c ∧
      c.inputLen ≤ inputSize ∧ c.cursorX < max c.columns 1 ∧ c.cursorY < max c.rows 1 := by
  intro c
  obtain ⟨hrun, hgrid, hlen⟩ := Transition.run_total (P := Safe)
    (fun _ op _ h => checked_apply h op) (safe_ofSize font fb width height)
  exact ⟨hrun, hlen, Nat.max_comm _ _ ▸ hgrid.cursorX_lt, Nat.max_comm _ _ ▸ hgrid.cursorY_lt⟩

end SillOS.Console

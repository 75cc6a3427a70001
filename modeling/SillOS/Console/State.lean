import SillOS.Console.Font

/-!
# The console

A grid of character cells with a cursor, a line of keyboard input, and the
framebuffer that the console draws to. Output changes cells and pixels side by
side; `render` redraws everything from the cells.
-/

namespace SillOS

open Fb Raster

def charWidth : Nat := 8

def charHeight : Nat := 16

def inputSize : Nat := 256

def maxColumns : Nat := 1920 / charWidth

def maxRows : Nat := 1080 / charHeight

def defaultForeground : Color := Color.WHITE

def defaultBackground : Color := Color.BLACK

/-- A character with its colors. -/
structure Cell where
  character : UInt8
  foreground : Color
  background : Color
  deriving DecidableEq, Repr

def Cell.EMPTY : Cell := ⟨0x20, defaultForeground, defaultBackground⟩

/-- The console with its cell buffer and its framebuffer. -/
structure Console where
  font : Font
  cursorX : Nat
  cursorY : Nat
  columns : Nat
  rows : Nat
  foreground : Color
  background : Color
  /-- The cell buffer, in rows of `maxColumns` cells. -/
  cells : Nat → Cell
  /-- The input buffer of `inputSize` bytes. -/
  input : Nat → UInt8
  inputLen : Nat
  lineReady : Bool
  fb : Framebuffer
  columns_le : columns ≤ maxColumns
  rows_le : rows ≤ maxRows

namespace Console

/-- A console of the size of its framebuffer. -/
def new (font : Font) (fb : Framebuffer) : Console where
  font := font
  cursorX := 0
  cursorY := 0
  columns := min (fb.info.width / charWidth) maxColumns
  rows := min (fb.info.height / charHeight) maxRows
  foreground := defaultForeground
  background := defaultBackground
  cells := fun _ => Cell.EMPTY
  input := fun _ => 0
  inputLen := 0
  lineReady := false
  fb := fb
  columns_le := Nat.min_le_right _ _
  rows_le := Nat.min_le_right _ _

/-! ## Cells -/

def cellIndex (row column : Nat) : Nat := row * maxColumns + column

def getCell (c : Console) (row column : Nat) : Cell := c.cells (cellIndex row column)

def setCell (c : Console) (row column : Nat) (cell : Cell) : Console :=
  { c with cells := Function.update c.cells (cellIndex row column) cell }

def clearRow (c : Console) (row : Nat) : Console :=
  if row ≥ c.rows then c
  else { c with cells := writeRow c.cells (cellIndex row 0) maxColumns fun _ => Cell.EMPTY }

/-- Forget the cells and the input line. -/
def clear (c : Console) : Console :=
  { c with
    cells := writeRow c.cells 0 (maxColumns * maxRows) fun _ => Cell.EMPTY
    cursorX := 0
    cursorY := 0
    inputLen := 0
    lineReady := false
    fb := c.fb.clear c.background }

def setForeground (c : Console) (color : Color) : Console := { c with foreground := color }

def setBackground (c : Console) (color : Color) : Console := { c with background := color }

/-! ## Rendering -/

/-- Draw exactly one cell. -/
def renderCell (c : Console) (row column : Nat) (s : Framebuffer) : Framebuffer :=
  if row ≥ c.rows ∨ column ≥ c.columns then s
  else
    let cell := c.getCell row column
    let x := column * charWidth
    let y := row * charHeight
    let s := s.drawRect x y charWidth charHeight cell.background
    if cell.character ≠ 0x20 then c.font.drawChar x y cell.character cell.foreground s else s

def renderRow (c : Console) (row : Nat) (s : Framebuffer) : Framebuffer :=
  if row ≥ c.rows then s
  else forRange 0 c.columns (fun column => c.renderCell row column) s

/-- Redraw everything. -/
def render (c : Console) : Framebuffer :=
  forRange 0 c.rows (fun row => c.renderRow row) (c.fb.clear c.background)

/-! ## Output -/

/-- Move the pixels, then the cells, up by one row. -/
def scroll (c : Console) : Console :=
  if c.rows = 0 then c
  else
    let fb := c.fb.scrollUp charHeight c.background
    let cells := forRange 1 (c.rows - 1)
      (fun row cells =>
        let src := row * maxColumns
        let dst := (row - 1) * maxColumns
        writeRow cells dst c.columns fun i => cells (src + i)) c.cells
    let c := { c with fb := fb, cells := cells }.clearRow (c.rows - 1)
    { c with cursorX := 0, cursorY := c.rows - 1 }

def newline (c : Console) : Console :=
  let c := { c with cursorX := 0 }
  if c.rows = 0 then c
  else if c.cursorY + 1 < c.rows then { c with cursorY := c.cursorY + 1 }
  else c.scroll

/-- Store and draw a cell, and wrap at the right edge. -/
def writeCell (c : Console) (character : UInt8) : Console :=
  if c.columns = 0 ∨ c.rows = 0 then c
  else
    let c := if c.cursorX ≥ c.columns then c.newline else c
    let row := c.cursorY
    let column := c.cursorX
    let c := c.setCell row column ⟨character, c.foreground, c.background⟩
    let c := { c with fb := c.renderCell row column c.fb, cursorX := c.cursorX + 1 }
    if c.cursorX ≥ c.columns then c.newline else c

/-- Erase the cell before the cursor, the last one of the row above from column 0. -/
def backspace (c : Console) : Console :=
  if c.cursorX = 0 ∧ c.cursorY = 0 then c
  else
    let c :=
      if c.cursorX = 0 then { c with cursorY := c.cursorY - 1, cursorX := c.columns - 1 }
      else { c with cursorX := c.cursorX - 1 }
    let c := c.setCell c.cursorY c.cursorX Cell.EMPTY
    { c with fb := c.renderCell c.cursorY c.cursorX c.fb }

def tabSize : Nat := 4

def putChar (c : Console) (character : UInt8) : Console :=
  if character = 0x0a then c.newline
  else if character = 0x0d then { c with cursorX := 0 }
  else if character = 0x09 then
    let nextTab := (c.cursorX / tabSize + 1) * tabSize
    if nextTab ≥ c.columns then c.newline else { c with cursorX := nextTab }
  else if character = 8 then c.backspace
  else if 0x20 ≤ character ∧ character ≤ 0x7e then c.writeCell character
  else c

def writeStr (c : Console) (text : List UInt8) : Console := text.foldl putChar c

/-! ## Input -/

/-- A key from the keyboard. -/
def receiveKey (c : Console) (key : Char) : Console :=
  if key = '\n' ∨ key = '\r' then
    let c := c.putChar 0x0a
    { c with lineReady := true }
  else if key.val = 8 ∨ key.val = 0x7f then
    if c.inputLen > 0 ∧ c.cursorX > 2 then
      { c with inputLen := c.inputLen - 1 }.putChar 8
    else c
  else if key.val < 0x80 ∧ ¬(key.val < 0x20 ∨ key.val = 0x7f) then
    if c.inputLen < inputSize then
      let character := key.val.toUInt8
      { c with
        input := Function.update c.input c.inputLen character
        inputLen := c.inputLen + 1 }.putChar character
    else c
  else c

/-- Hand on a finished line: the console, the buffer, and the length of the line. -/
def readLine (c : Console) (buffer : List UInt8) : Console × List UInt8 × Option Nat :=
  if !c.lineReady then (c, buffer, none)
  else
    let length := min c.inputLen buffer.length
    ({ c with inputLen := 0, lineReady := false },
      (List.range length).map c.input ++ buffer.drop length, some length)

/-- The Enter key up to the shell: the console and the command line read from it. -/
def enter (c : Console) (key : Char) : Console × Option (List UInt8) :=
  let commandBuffer := List.replicate inputSize 0
  let c := c.receiveKey key
  let (c, commandBuffer, length) := c.readLine commandBuffer
  (c, length.map fun length => commandBuffer.take length)

/-- The prompt. -/
def prompt (c : Console) : Console := (c.putChar 0x3e).putChar 0x20

def present (c : Console) : Console := { c with fb := c.fb.present }

/-- Start a console on a framebuffer. -/
def init (font : Font) (fb : Framebuffer) : Console := (new font fb).clear.prompt.present

/-! ## A small console -/

/-- A screen of three cells in a row. -/
def lineInfo : Info where
  width := 24
  height := 16
  frontPitch := 96
  redShift := 16
  greenShift := 8
  blueShift := 0
  width_pos := by decide
  width_le := by decide
  height_pos := by decide
  height_le := by decide

/-- A screen of sixteen cells in a row. -/
def rowInfo : Info where
  width := 128
  height := 16
  frontPitch := 512
  redShift := 16
  greenShift := 8
  blueShift := 0
  width_pos := by decide
  width_le := by decide
  height_pos := by decide
  height_le := by decide

/-- A font of one empty glyph. -/
def blankFont : Font where
  data := List.replicate 96 0
  headerSize := 32
  glyphCount := 1
  glyphSize := 64
  glyphs_le := by simp
  rows_le := by decide

def lineScreen : Framebuffer := Framebuffer.init lineInfo (fun _ => 0) fun _ => 0

def lineConsole : Console := new blankFont lineScreen

/-- The screen has the size it was made with. -/
theorem lineScreen_info : lineScreen.info = lineInfo := by
  simp [lineScreen, Framebuffer.init]

/-- Three cells fit its width. -/
theorem lineConsole_columns : lineConsole.columns = 3 := by
  change min (lineScreen.info.width / charWidth) maxColumns = 3
  rw [lineScreen_info]
  rfl

/-- One cell fits its height. -/
theorem lineConsole_rows : lineConsole.rows = 1 := by
  change min (lineScreen.info.height / charHeight) maxRows = 1
  rw [lineScreen_info]
  rfl

end Console

end SillOS

import SillOS.Console.LineEditing

/-!
# The echo of the input line

The cells before the cursor, read backward across row ends, show the prompt and the
input line as far as they have not been scrolled off the screen. Positions are
numbered row by row over the visible columns; one step of the cursor, a scroll
included, moves every visible position back by one.
-/

namespace SillOS.Console

variable {c : Console}

/-! ## Walking back -/

/-- The cell before a cell: the one to the left, or the last one of the row above. -/
def cellBefore (columns : Nat) : Nat × Nat → Option (Nat × Nat)
  | (row, column + 1) => some (row, column)
  | (row + 1, 0) => some (row, columns - 1)
  | (0, 0) => none

/-- Walk back some cells, unless this leaves the screen. -/
def walkBack (columns : Nat) (cell : Nat × Nat) : Nat → Option (Nat × Nat)
  | 0 => some cell
  | n + 1 => (walkBack columns cell n).bind (cellBefore columns)

/-- A step back lowers the position by one. -/
theorem cellBefore_position {columns : Nat} {cell before : Nat × Nat} (hcolumn : cell.2 < columns)
    (h : cellBefore columns cell = some before) :
    before.2 < columns ∧ before.1 * columns + before.2 + 1 = cell.1 * columns + cell.2 := by
  match cell, h with
  | (row, column + 1), rfl => exact ⟨by dsimp only at *; omega, rfl⟩
  | (row + 1, 0), rfl =>
    refine ⟨by dsimp only at *; omega, ?_⟩
    dsimp only at *
    rw [Nat.add_mul, Nat.one_mul]
    omega

/-- Walking back n cells ends n positions before, in a column of the screen. -/
theorem walkBack_position {columns n : Nat} {cell before : Nat × Nat} (hcolumn : cell.2 < columns)
    (h : walkBack columns cell n = some before) :
    before.2 < columns ∧ before.1 * columns + before.2 + n = cell.1 * columns + cell.2 := by
  induction n generalizing before with
  | zero =>
    obtain rfl := Option.some_inj.mp h
    exact ⟨hcolumn, rfl⟩
  | succ n ih =>
    obtain ⟨next, hnext, hbefore⟩ := Option.bind_eq_some_iff.mp h
    obtain ⟨hlt, hpos⟩ := ih hnext
    obtain ⟨hlt', hpos'⟩ := cellBefore_position hlt hbefore
    exact ⟨hlt', by omega⟩

/-! ## The text before the cursor -/

/-- The visible cells before the cursor show the end of a text. -/
def Echoes (c : Console) (text : List UInt8) : Prop :=
  ∀ row column i, column < c.columns → i < text.length →
    row * c.columns + column + (i + 1) = c.cursorY * c.columns + c.cursorX →
    text.reverse[i]? = some (c.getCell row column).character

/-- A console without cells before the cursor shows nothing. -/
theorem echoes_nil (c : Console) : c.Echoes [] := fun _ _ i _ hi => absurd hi (Nat.not_lt_zero i)

/-- The position of the cursor after one step, and where its cells have come from. -/
theorem getCell_advance_before (hx : c.cursorX < c.columns) (hy : c.cursorY < c.rows)
    {row column i : Nat} (hcolumn : column < c.columns)
    (hpos : row * c.columns + column + (i + 1) =
      c.advance.cursorY * c.columns + c.advance.cursorX) :
    ∃ origin, c.advance.getCell row column = c.getCell origin column ∧
      origin * c.columns + column + i = c.cursorY * c.columns + c.cursorX := by
  by_cases hedge : c.cursorX + 1 < c.columns
  · rw [advance_of_lt hedge] at hpos ⊢
    exact ⟨row, rfl, by dsimp only at hpos; omega⟩
  rw [advance_of_le (Nat.le_of_not_lt hedge)] at hpos ⊢
  have hrow : (c.cursorY + 1) * c.columns = c.cursorY * c.columns + c.columns := by
    rw [Nat.add_mul, Nat.one_mul]
  obtain ⟨h0, -⟩ | ⟨-, h⟩ | ⟨hrows, hlast, h⟩ := c.newline_cases
  · omega
  · rw [h] at hpos ⊢
    exact ⟨row, rfl, by dsimp only at hpos; omega⟩
  · -- The cursor was in the bottom row: every cell comes from the row below it.
    have hscroll := scroll_cursor (c := { c with cursorX := 0 }) hrows
    rw [h, hscroll.1, hscroll.2] at hpos
    dsimp only at hpos
    have hlastrow : c.rows - 1 = c.cursorY := by omega
    rw [hlastrow] at hpos
    have habove : row < c.cursorY := by
      by_contra hbelow
      have hle := Nat.mul_le_mul_right c.columns (Nat.le_of_not_lt hbelow)
      omega
    rw [h, getCell_scroll (c := { c with cursorX := 0 }) (by dsimp only; omega) hcolumn,
      if_pos (by dsimp only; omega)]
    refine ⟨row + 1, rfl, ?_⟩
    rw [Nat.add_mul, Nat.one_mul]
    omega

/-- Writing a byte adds it to the text before the cursor. -/
theorem echoes_writeCell {text : List UInt8} (h : c.Echoes text) (hx : c.cursorX < c.columns)
    (hy : c.cursorY < c.rows) (byte : UInt8) : (c.writeCell byte).Echoes (text ++ [byte]) := by
  have hcolumns := c.columns_le
  have hkeeps := c.keeps_writeCell byte
  intro row column i hcolumn hi hpos
  rw [hkeeps.columns] at hcolumn hpos
  rw [writeCell_of_lt hx (by omega)] at hpos ⊢
  obtain ⟨origin, hcell, horigin⟩ :=
    getCell_advance_before (c := c.drawCell _ _ _) hx hy hcolumn hpos
  rw [hcell, getCell_drawCell c _ (by omega) (by omega), List.reverse_concat]
  change origin * c.columns + column + i = c.cursorY * c.columns + c.cursorX at horigin
  cases i with
  | zero =>
    rw [if_pos ((Raster.cell_inj hcolumn hx).mp horigin)]
    rfl
  | succ i =>
    have hother : ¬(origin = c.cursorY ∧ column = c.cursorX) := by
      rintro ⟨rfl, rfl⟩
      omega
    rw [List.length_append, List.length_singleton] at hi
    rw [if_neg hother, List.getElem?_cons_succ]
    exact h origin column i hcolumn (by omega) horigin

/-- Erasing inside a row takes the last byte off the text. -/
theorem echoes_backspace {text : List UInt8} (h : c.Echoes text) (hx : c.cursorX < c.columns)
    (hleft : 0 < c.cursorX) : c.backspace.Echoes text.dropLast := by
  have hcolumns := c.columns_le
  have hback : c.backspace =
      { c with cursorX := c.cursorX - 1 }.drawCell c.cursorY (c.cursorX - 1) Cell.EMPTY := by
    rw [backspace_eq, if_neg (by omega), if_neg (by omega)]
  intro row column i hcolumn hi hpos
  rw [hback] at hcolumn hpos ⊢
  change column < c.columns at hcolumn
  change row * c.columns + column + (i + 1) = c.cursorY * c.columns + (c.cursorX - 1) at hpos
  have hother : ¬(row = c.cursorY ∧ column = c.cursorX - 1) := by
    rintro ⟨rfl, rfl⟩
    omega
  rw [List.length_dropLast] at hi
  have hshown := h row column (i + 1) hcolumn (by omega) (by omega)
  rw [getCell_drawCell _ _ (by omega) (by omega), if_neg hother, ← List.tail_reverse,
    List.getElem?_tail, hshown]
  rfl

/-! ## Typing -/

/-- The prompt. -/
def promptText : List UInt8 := [0x3e, 0x20]

/-- The prompt and the input line end at the cursor and are visible before it. -/
structure Echoing (c : Console) : Prop where
  columns_pos : c.columns ≠ 0
  rows_pos : c.rows ≠ 0
  inGrid : c.InGrid
  cursorX : c.cursorX = (2 + c.inputLen) % c.columns
  echoes_line : c.Echoes (promptText ++ c.line)

/-- The cursor of an echoing console stands before the end of its row. -/
theorem Echoing.cursorX_lt (h : c.Echoing) : c.cursorX < c.columns :=
  h.cursorX ▸ Nat.mod_lt _ (Nat.pos_of_ne_zero h.columns_pos)

private theorem InGrid.cursorY_lt_rows (h : c.InGrid) (hrows : c.rows ≠ 0) :
    c.cursorY < c.rows := by
  have hy := h.cursorY_lt
  omega

/-- A key that pushes its byte. -/
theorem echoing_push (h : c.Echoing) (byte : UInt8) (hlow : 0x20 ≤ byte.toNat)
    (hhigh : byte.toNat ≤ 0x7e) :
    ({ c with
      input := Function.update c.input c.inputLen byte
      inputLen := c.inputLen + 1 }.putChar byte).Echoing := by
  rw [putChar_of_printable _ byte hlow hhigh]
  have hline := line_push c byte
  have hcursor := h.cursorX_lt
  have hrow := h.inGrid.cursorY_lt_rows h.rows_pos
  obtain ⟨hcolumns, hrows, hgrid, hx, hechoes⟩ := h
  generalize hd : { c with
    input := Function.update c.input c.inputLen byte
    inputLen := c.inputLen + 1 } = d at hline ⊢
  have hkeeps := d.keeps_writeCell byte
  have hechoes' : d.Echoes (promptText ++ c.line) := by rw [← hd]; exact hechoes
  have hcursor' : d.cursorX < d.columns := by rw [← hd]; exact hcursor
  have hrow' : d.cursorY < d.rows := by rw [← hd]; exact hrow
  have hlen : d.inputLen = c.inputLen + 1 := by rw [← hd]
  have hcolumns' : d.columns = c.columns := by rw [← hd]
  have hrows' : d.rows = c.rows := by rw [← hd]
  refine ⟨?_, ?_, inGrid_writeCell ?_ byte, ?_, ?_⟩
  · rwa [hkeeps.columns, hcolumns']
  · rwa [hkeeps.rows, hrows']
  · rw [← hd]
    exact ⟨hgrid.cursorX_lt, hgrid.cursorY_lt⟩
  · rw [hkeeps.inputLen, hkeeps.columns, hlen]
    refine writeCell_cursorX (hcolumns' ▸ hcolumns) (hrows' ▸ hrows) ?_ byte
    rw [← hd]
    exact hx
  · rw [hkeeps.line_eq, hline, ← List.append_assoc]
    exact echoes_writeCell hechoes' hcursor' hrow' byte

/-- A key that pops. -/
theorem echoing_pop (h : c.Echoing) (hlen : c.inputLen > 0) (hright : c.cursorX > 2) :
    ({ c with inputLen := c.inputLen - 1 }.putChar 8).Echoing := by
  rw [putChar_backspace]
  have hline := line_pop hlen
  have hcursor := h.cursorX_lt
  obtain ⟨hcolumns, hrows, hgrid, hx, hechoes⟩ := h
  have hne : c.line ≠ [] := by
    rw [← List.length_pos_iff, line_length]
    exact hlen
  have hechoes' : { c with inputLen := c.inputLen - 1 }.Echoes (promptText ++ c.line) := hechoes
  have hkeeps := keeps_backspace { c with inputLen := c.inputLen - 1 }
  refine ⟨?_, ?_, inGrid_backspace ⟨hgrid.cursorX_lt, hgrid.cursorY_lt⟩, ?_, ?_⟩
  · rwa [hkeeps.columns]
  · rwa [hkeeps.rows]
  · rw [hkeeps.inputLen, hkeeps.columns,
      backspace_cursorX (c := { c with inputLen := c.inputLen - 1 }) hright]
    dsimp only
    rw [show 2 + c.inputLen = 2 + (c.inputLen - 1) + 1 by omega] at hx
    obtain ⟨-, hsucc⟩ | ⟨-, hzero⟩ := succ_mod_cases (2 + (c.inputLen - 1)) hcolumns
    · omega
    · omega
  · rw [hkeeps.line_eq, hline, ← List.dropLast_append_of_ne_nil hne]
    exact echoes_backspace hechoes' hcursor (Nat.lt_trans Nat.two_pos hright)

/-- A key keeps the echo in step with the line. -/
theorem echoing_receiveKey (h : c.Echoing) {key : Char} (hkey : key ≠ '\n' ∧ key ≠ '\r') :
    (c.receiveKey key).Echoing := by
  rw [receiveKey_eq c hkey]
  split_ifs with herase hguard hpush
  · exact echoing_pop h hguard.1 hguard.2
  · exact h
  · obtain ⟨⟨hlow, hhigh⟩, -⟩ := hpush
    have hbyte : (UInt8.ofNat key.toNat).toNat = key.toNat :=
      Nat.mod_eq_of_lt (Nat.lt_of_le_of_lt hhigh (by decide))
    exact echoing_push h _ (hbyte.symm ▸ hlow) (hbyte.symm ▸ hhigh)
  · exact h

private theorem echoing_run (h : c.Echoing) {keys : List Char}
    (hkeys : ∀ key ∈ keys, key ≠ '\n' ∧ key ≠ '\r') : (keys.foldl receiveKey c).Echoing := by
  induction keys generalizing c with
  | nil => exact h
  | cons key keys ih =>
    rw [List.forall_mem_cons] at hkeys
    exact ih (echoing_receiveKey h hkeys.1) hkeys.2

/-- The prompt of an empty line. -/
theorem echoing_prompt (hgrid : c.InGrid) (hcolumns : c.columns ≠ 0) (hrows : c.rows ≠ 0)
    (hx : c.cursorX = 0) (hinput : c.inputLen = 0) : c.prompt.Echoing := by
  have harrow := c.putChar_of_printable 0x3e (by decide) (by decide)
  have hkeeps := c.keeps_writeCell 0x3e
  have hkeeps' := (c.writeCell 0x3e).keeps_writeCell 0x20
  have hfirst : (c.writeCell 0x3e).cursorX = 1 % c.columns :=
    writeCell_cursorX (n := 0) hcolumns hrows (hx.trans (Nat.zero_mod _).symm) 0x3e
  have hechoes : (c.writeCell 0x3e).Echoes ([] ++ [0x3e]) :=
    echoes_writeCell c.echoes_nil (hx ▸ Nat.pos_of_ne_zero hcolumns)
      (hgrid.cursorY_lt_rows hrows) 0x3e
  have hgrid' := inGrid_writeCell hgrid 0x3e
  have hprompt : c.prompt = (c.writeCell 0x3e).writeCell 0x20 := by
    rw [prompt, harrow, putChar_of_printable _ 0x20 (by decide) (by decide)]
  have hempty : c.prompt.line = [] := by
    rw [hprompt, (hkeeps.trans hkeeps').line_eq, line, hinput]
    rfl
  refine ⟨?_, ?_, ?_, ?_, ?_⟩
  · rwa [hprompt, hkeeps'.columns, hkeeps.columns]
  · rwa [hprompt, hkeeps'.rows, hkeeps.rows]
  · rw [hprompt]
    exact inGrid_writeCell hgrid' 0x20
  · rw [hprompt, hkeeps'.inputLen, hkeeps.inputLen, hinput, hkeeps'.columns]
    refine writeCell_cursorX (hkeeps.columns ▸ hcolumns) (hkeeps.rows ▸ hrows) ?_ 0x20
    rw [hfirst, hkeeps.columns]
  · rw [hempty, hprompt]
    refine echoes_writeCell hechoes ?_ (hgrid'.cursorY_lt_rows (hkeeps.rows ▸ hrows)) 0x20
    rw [hfirst, hkeeps.columns]
    exact Nat.mod_lt 1 (Nat.pos_of_ne_zero hcolumns)

/-- After the prompt and any keys but Enter, the cursor is at the length of prompt and
line modulo the width, and the cells before it, as far as walking back stays on the
screen, hold prompt and line from the end. The cursor starts on the grid, where every
operation leaves it. -/
theorem echo_shows_line (c : Console) (hcolumns : 1 ≤ c.columns) (hrows : 1 ≤ c.rows)
    (hgrid : c.InGrid) (hx : c.cursorX = 0) (hinput : c.inputLen = 0) (keys : List Char)
    (hkeys : ∀ key ∈ keys, key ≠ '\n' ∧ key ≠ '\r') :
    let d := keys.foldl receiveKey c.prompt
    d.cursorX = (2 + d.inputLen) % d.columns ∧
      ∀ i, 1 ≤ i → i ≤ 2 + d.inputLen → ∀ row column,
        walkBack d.columns (d.cursorY, d.cursorX) i = some (row, column) →
        (promptText ++ d.line).reverse[i - 1]? = some (d.getCell row column).character := by
  intro d
  have h : d.Echoing := echoing_run
    (echoing_prompt hgrid (Nat.ne_of_gt hcolumns) (Nat.ne_of_gt hrows) hx hinput) hkeys
  refine ⟨h.cursorX, fun i hpos hi row column hwalk => ?_⟩
  obtain ⟨hcolumn, hposition⟩ := walkBack_position h.cursorX_lt hwalk
  have hlength : (promptText ++ d.line).length = 2 + d.inputLen := by
    rw [List.length_append, line_length]
    rfl
  rw [← Nat.sub_add_cancel hpos] at hposition
  exact h.echoes_line row column (i - 1) hcolumn (by omega) hposition

/-- Two letters on a screen of three cells in one row. -/
theorem echo_shows_two_letters :
    (1 ≤ lineConsole.columns ∧ 1 ≤ lineConsole.rows ∧ lineConsole.InGrid ∧
      lineConsole.cursorX = 0 ∧ lineConsole.inputLen = 0 ∧
      ∀ key ∈ ['a', 'b'], key ≠ '\n' ∧ key ≠ '\r') ∧
    let d := ['a', 'b'].foldl receiveKey lineConsole.prompt
    d.cursorX = (2 + d.inputLen) % d.columns ∧
      ∀ i, 1 ≤ i → i ≤ 2 + d.inputLen → ∀ row column,
        walkBack d.columns (d.cursorY, d.cursorX) i = some (row, column) →
        (promptText ++ d.line).reverse[i - 1]? = some (d.getCell row column).character := by
  have hcolumns : 1 ≤ lineConsole.columns := by rw [lineConsole_columns]; decide
  have hrows : 1 ≤ lineConsole.rows := by rw [lineConsole_rows]
  have hgrid : lineConsole.InGrid := by
    constructor
    · rw [lineConsole_columns]
      decide
    · rw [lineConsole_rows]
      decide
  have hkeys : ∀ key ∈ ['a', 'b'], key ≠ '\n' ∧ key ≠ '\r' := by simp
  exact ⟨⟨hcolumns, hrows, hgrid, rfl, rfl, hkeys⟩,
    echo_shows_line lineConsole hcolumns hrows hgrid rfl rfl ['a', 'b'] hkeys⟩

end SillOS.Console

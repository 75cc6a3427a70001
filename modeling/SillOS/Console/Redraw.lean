import SillOS.Console.Cells

/-!
# Incremental drawing and the full redraw

Output updates cells and pixels by separate code. The two stay in step as long as
the background color looks like the background of a blank cell; setting any other
background color leaves them apart at once, on every screen with a cell.
-/

namespace SillOS

open Fb Raster

/-- A background color that looks like that of a blank cell, or a screen without cells. -/
def Harmless (info : Info) (color : Color) : Prop :=
  info.width < charWidth ∨ info.height < charHeight ∨
    info.colorToU32 color = info.colorToU32 defaultBackground

namespace Console

/-! ## The invariant -/

/-- The console's grid is that of its screen. -/
structure Sized (info : Info) (c : Console) : Prop where
  info_eq : c.fb.info = info
  columns_eq : c.columns = min (info.width / charWidth) maxColumns
  rows_eq : c.rows = min (info.height / charHeight) maxRows

/-- The backbuffer shows the picture of the cells. -/
structure Drawn (info : Info) (c : Console) : Prop where
  sized : c.Sized info
  background : Harmless info c.background
  pixel_eq : ∀ x y, info.OnScreen x y → c.fb.pixel x y = c.picture x y

variable {info : Info} {c d : Console}

/-- What keeps the grid keeps its size. -/
theorem Keeps.sized (h : c.Keeps d) (hc : c.Sized info) : d.Sized info where
  info_eq := h.info.trans hc.info_eq
  columns_eq := h.columns.trans hc.columns_eq
  rows_eq := h.rows.trans hc.rows_eq

/-- The grid is on the screen. -/
theorem Sized.fit (h : c.Sized info) :
    c.columns * charWidth ≤ info.width ∧ c.rows * charHeight ≤ info.height := by
  obtain ⟨-, hcolumns, hrows⟩ := h
  simp only [charWidth, charHeight] at *
  omega

/-- Blank cells cannot be told from the background. -/
theorem Sized.blank (h : c.Sized info) {color : Color} (hcolor : Harmless info color) {x y : Nat}
    (hin : x / charWidth < c.columns ∧ y / charHeight < c.rows) :
    info.colorToU32 color = info.colorToU32 defaultBackground := by
  obtain ⟨hcolumns, hrows⟩ := h.fit
  obtain hwidth | hheight | hcolor := hcolor
  · simp only [charWidth] at *
    omega
  · simp only [charHeight] at *
    omega
  · exact hcolor

/-- The picture depends on the settings and on the cells of the grid. -/
theorem Keeps.picture_eq (h : c.Keeps d)
    (hcells : ∀ row column, row < c.rows → column < c.columns →
      d.getCell row column = c.getCell row column) (x y : Nat) : d.picture x y = c.picture x y := by
  unfold picture
  rw [h.columns, h.rows, h.font, h.info, h.background]
  by_cases hin : x / charWidth < c.columns ∧ y / charHeight < c.rows
  · rw [if_pos hin, if_pos hin, hcells _ _ hin.2 hin.1]
  · rw [if_neg hin, if_neg hin]

/-! ## Output -/

private theorem drawn_cursor (h : c.Drawn info) (x y : Nat) :
    { c with cursorX := x, cursorY := y }.Drawn info where
  sized := (c.keeps_cursor x y).sized h.sized
  background := h.background
  pixel_eq := h.pixel_eq

/-- Scrolling moves pixels and cells alike, and the new bottom row is blank in both. -/
theorem drawn_scroll (h : c.Drawn info) : c.scroll.Drawn info := by
  by_cases hrows : c.rows = 0
  · rw [scroll, if_pos hrows]
    exact h
  have hkeeps := c.keeps_scroll
  refine ⟨hkeeps.sized h.sized, hkeeps.background ▸ h.background, fun x y hxy => ?_⟩
  obtain ⟨hcolumns, hfit⟩ := h.sized.fit
  obtain rfl := h.sized.info_eq
  have hfb : c.scroll.fb = c.fb.scrollUp charHeight c.background := by rw [scroll_eq hrows]
  have hnext : (y + charHeight) / charHeight = y / charHeight + 1 :=
    Nat.add_div_right y (by decide)
  have hmod : (y + charHeight) % charHeight = y % charHeight := Nat.add_mod_right y charHeight
  rw [hfb, Framebuffer.pixel_scrollUp hxy (by decide), picture, hkeeps.columns, hkeeps.rows,
    hkeeps.font, hkeeps.info, hkeeps.background]
  by_cases hin : x / charWidth < c.columns ∧ y / charHeight < c.rows
  · rw [if_pos hin, getCell_scroll hin.2 hin.1]
    by_cases hlast : y / charHeight + 1 < c.rows
    · -- The pixel comes from the row below.
      have hon : y + charHeight < c.fb.info.height := by
        simp only [charHeight] at *
        omega
      rw [if_pos hon, if_pos hlast, h.pixel_eq _ _ ⟨hxy.1, hon⟩, picture, hnext, hmod,
        if_pos ⟨hin.1, hlast⟩]
    · rw [if_neg hlast, Cell.EMPTY_pixel, ← h.sized.blank h.background hin]
      split_ifs with hon
      · rw [h.pixel_eq _ _ ⟨hxy.1, hon⟩, picture, hnext, if_neg fun hno => hlast hno.2]
      · rfl
  · rw [if_neg hin]
    split_ifs with hon
    · rw [h.pixel_eq _ _ ⟨hxy.1, hon⟩, picture, hnext, if_neg (by omega)]
    · rfl

private theorem drawn_newline (h : c.Drawn info) : c.newline.Drawn info := by
  obtain ⟨-, heq⟩ | ⟨-, heq⟩ | ⟨-, -, heq⟩ := c.newline_cases
  · rw [heq]
    exact drawn_cursor h 0 c.cursorY
  · rw [heq]
    exact drawn_cursor h 0 (c.cursorY + 1)
  · rw [heq]
    exact drawn_scroll (drawn_cursor h 0 c.cursorY)

/-- Storing and drawing a cell. -/
theorem drawn_drawCell (h : c.Drawn info) {row column : Nat} (hcolumn : column < maxColumns)
    (cell : Cell) : (c.drawCell row column cell).Drawn info := by
  have hkeeps := c.keeps_drawCell row column cell
  refine ⟨hkeeps.sized h.sized, h.background, fun x y hxy => ?_⟩
  obtain rfl := h.sized.info_eq
  have hget : ∀ row' column', column' < c.columns →
      (c.drawCell row column cell).getCell row' column' =
        if row' = row ∧ column' = column then cell else c.getCell row' column' := by
    intro row' column' hcolumn'
    have hmax := Nat.lt_of_lt_of_le hcolumn' c.columns_le
    rw [getCell_drawCell c cell hcolumn hmax]
  by_cases hin : row < c.rows ∧ column < c.columns
  · have hdraw := overlays_renderCell (c.setCell row column cell) c.fb.info hin.1 hin.2
    have hcell : (c.setCell row column cell).getCell row column = cell := by
      rw [getCell_setCell c cell hcolumn hcolumn, if_pos ⟨rfl, rfl⟩]
    rw [drawCell_fb, hdraw.pixel_eq c.fb rfl x y hxy, h.pixel_eq x y hxy, hcell, picture, picture,
      hkeeps.columns, hkeeps.rows, hkeeps.font, hkeeps.info, hkeeps.background]
    by_cases hat : x / charWidth = column ∧ y / charHeight = row
    · have hgrid : x / charWidth < c.columns ∧ y / charHeight < c.rows := by omega
      rw [if_pos hat, if_pos hgrid, if_pos hgrid, hget _ _ hgrid.1, if_pos hat.symm]
      rfl
    · rw [if_neg hat, Option.getD_none]
      split_ifs with hgrid
      · rw [hget _ _ hgrid.1, if_neg fun hno => hat hno.symm]
      · rfl
  · -- Outside of the grid, nothing is drawn and no cell of the grid changes.
    have hfb : (c.drawCell row column cell).fb = c.fb := by
      have hout : row ≥ c.rows ∨ column ≥ c.columns := by omega
      rw [drawCell_fb]
      exact if_pos hout
    rw [hfb, h.pixel_eq x y hxy, hkeeps.picture_eq]
    intro row' column' hrow' hcolumn'
    rw [hget row' column' hcolumn', if_neg (by omega)]

private theorem drawn_wrap (h : c.Drawn info) : c.wrap.Drawn info := by
  unfold wrap
  split
  · exact drawn_newline h
  · exact h

private theorem drawn_advance (h : c.Drawn info) : c.advance.Drawn info :=
  drawn_wrap (drawn_cursor h (c.cursorX + 1) c.cursorY)

private theorem drawn_writeCell (h : c.Drawn info) (character : UInt8) :
    (c.writeCell character).Drawn info := by
  have hwrap := drawn_wrap h
  have hmax := c.columns_le
  rw [writeCell_eq]
  split_ifs with hempty
  · exact h
  · have hcolumn : c.wrap.cursorX < maxColumns := by
      unfold wrap
      split_ifs with hedge
      · rw [newline_cursorX]
        omega
      · omega
    exact drawn_advance (drawn_drawCell hwrap hcolumn _)

private theorem drawn_backspace (h : c.Drawn info) (hgrid : c.InGrid) : c.backspace.Drawn info := by
  have hmax := c.columns_le
  have hx := hgrid.cursorX_lt
  have hpos : 1 < maxColumns := by decide
  rw [backspace_eq]
  split_ifs with hhome hleft
  · exact h
  · refine drawn_drawCell (drawn_cursor h (c.columns - 1) (c.cursorY - 1)) ?_ _
    dsimp only
    omega
  · refine drawn_drawCell (drawn_cursor h (c.cursorX - 1) c.cursorY) ?_ _
    dsimp only
    omega

/-- A byte of output keeps cells and pixels in step. -/
theorem drawn_putChar (h : c.Drawn info) (hgrid : c.InGrid) (character : UInt8) :
    (c.putChar character).Drawn info := by
  unfold putChar
  dsimp only
  split_ifs
  · exact drawn_newline h
  · exact drawn_cursor h 0 c.cursorY
  · exact drawn_newline h
  · exact drawn_cursor h _ c.cursorY
  · exact drawn_backspace h hgrid
  · exact drawn_writeCell h character
  · exact h

/-! ## The other operations -/

/-- Clearing keeps the size of the grid. -/
theorem sized_clear (h : c.Sized info) : c.clear.Sized info where
  info_eq := (Framebuffer.clear_info c.fb c.background).trans h.info_eq
  columns_eq := h.columns_eq
  rows_eq := h.rows_eq

/-- So does setting a color. -/
theorem sized_setBackground (h : c.Sized info) (color : Color) :
    (c.setBackground color).Sized info := ⟨h.info_eq, h.columns_eq, h.rows_eq⟩

/-- What the screen shows after clearing. -/
theorem pixel_clear (h : c.Sized info) {x y : Nat} (hxy : info.OnScreen x y) :
    c.clear.fb.pixel x y = info.colorToU32 c.background := by
  obtain rfl := h.info_eq
  exact Framebuffer.pixel_clear hxy

/-- What a full redraw after clearing would show. -/
theorem picture_clear (h : c.Sized info) (x y : Nat) :
    c.clear.picture x y =
      if x / charWidth < c.columns ∧ y / charHeight < c.rows then
        info.colorToU32 defaultBackground
      else info.colorToU32 c.background := by
  have hinfo := (sized_clear h).info_eq
  unfold picture
  rw [hinfo]
  by_cases hin : x / charWidth < c.columns ∧ y / charHeight < c.rows
  · rw [if_pos hin, getCell_clear c hin.2 hin.1, Cell.EMPTY_pixel]
    exact if_pos hin
  · rw [if_neg hin]
    exact if_neg hin

/-- Clearing brings cells and pixels in step when the background color is harmless. -/
theorem drawn_clear (h : c.Sized info) (hbackground : Harmless info c.background) :
    c.clear.Drawn info := by
  refine ⟨sized_clear h, hbackground, fun x y hxy => ?_⟩
  rw [pixel_clear h hxy, picture_clear h]
  split_ifs with hin
  · exact h.blank hbackground hin
  · rfl

private theorem drawn_present (h : c.Drawn info) : c.present.Drawn info where
  sized := ⟨c.fb.present_info.trans h.sized.info_eq, h.sized.columns_eq, h.sized.rows_eq⟩
  background := h.background
  pixel_eq x y hxy := by
    have hpicture : c.present.picture x y = c.picture x y := by
      simp only [picture, present, getCell, Framebuffer.present_info]
    rw [hpicture, ← h.pixel_eq x y hxy]
    exact c.fb.present_pixel x y

/-- The input line is not on the screen. -/
theorem drawn_input (h : c.Drawn info) (input : Nat → UInt8) (inputLen : Nat) (lineReady : Bool) :
    { c with input := input, inputLen := inputLen, lineReady := lineReady }.Drawn info where
  sized := ⟨h.sized.info_eq, h.sized.columns_eq, h.sized.rows_eq⟩
  background := h.background
  pixel_eq := h.pixel_eq

/-! ## Runs -/

/-- The operations of the console; setting the background clears the screen. -/
inductive Op where
  | putChar (character : UInt8)
  | writeStr (text : List UInt8)
  | receiveKey (key : Char)
  | readLine (buffer : List UInt8)
  | clear
  | setForeground (color : Color)
  | setBackground (color : Color)
  | present

/-- The effect of an operation. -/
def apply (c : Console) : Op → Console
  | .putChar character => c.putChar character
  | .writeStr text => c.writeStr text
  | .receiveKey key => c.receiveKey key
  | .readLine buffer => (c.readLine buffer).1
  | .clear => c.clear
  | .setForeground color => c.setForeground color
  | .setBackground color => (c.setBackground color).clear
  | .present => c.present

/-- Pixels in step with the cells, and the cursor in the grid. -/
def Good (info : Info) (c : Console) : Prop := c.Drawn info ∧ c.InGrid

/-- Printing a character keeps the invariant. -/
theorem good_putChar (h : c.Good info) (character : UInt8) : (c.putChar character).Good info :=
  ⟨drawn_putChar h.1 h.2 character, inGrid_putChar h.2 character⟩

/-- The input line is neither on the screen nor does it move the cursor. -/
theorem good_input (h : c.Good info) (input : Nat → UInt8) (inputLen : Nat) (lineReady : Bool) :
    { c with input := input, inputLen := inputLen, lineReady := lineReady }.Good info :=
  ⟨drawn_input h.1 input inputLen lineReady, ⟨h.2.cursorX_lt, h.2.cursorY_lt⟩⟩

/-- So does a key. -/
theorem good_receiveKey (h : c.Good info) (key : Char) : (c.receiveKey key).Good info := by
  unfold receiveKey
  dsimp only
  split_ifs
  · exact good_input (good_putChar h 0x0a) _ _ true
  · exact good_putChar (good_input h c.input (c.inputLen - 1) c.lineReady) 8
  · exact h
  · exact good_putChar (good_input h _ (c.inputLen + 1) c.lineReady) _
  · exact h
  · exact h

private theorem good_clear (h : c.Sized info) (hbackground : Harmless info c.background) :
    c.clear.Good info := ⟨drawn_clear h hbackground, c.inGrid_clear⟩

/-- One operation, with a harmless background color if it sets one. -/
theorem good_apply (h : c.Good info) (op : Op)
    (hop : ∀ color, op = Op.setBackground color → Harmless info color) :
    (c.apply op).Good info := by
  cases op with
  | putChar character => exact good_putChar h character
  | writeStr text =>
    exact List.foldlRecOn text putChar h fun _ hd character _ => good_putChar hd character
  | receiveKey key => exact good_receiveKey h key
  | readLine buffer =>
    unfold apply readLine
    dsimp only
    split_ifs
    · exact h
    · exact good_input h c.input 0 false
  | clear => exact good_clear h.1.sized h.1.background
  | setForeground color =>
    refine ⟨⟨?_, h.1.background, h.1.pixel_eq⟩, ⟨h.2.cursorX_lt, h.2.cursorY_lt⟩⟩
    exact ⟨h.1.sized.info_eq, h.1.sized.columns_eq, h.1.sized.rows_eq⟩
  | setBackground color =>
    exact good_clear (sized_setBackground h.1.sized color) (hop color rfl)
  | present => exact ⟨drawn_present h.1, ⟨h.2.cursorX_lt, h.2.cursorY_lt⟩⟩

/-- A new console has the size of its screen. -/
theorem sized_new (font : Font) (fb : Framebuffer) : (new font fb).Sized fb.info := ⟨rfl, rfl, rfl⟩

/-- A new console meets the invariant. -/
theorem good_init (font : Font) (fb : Framebuffer) : (init font fb).Good fb.info := by
  have hclear := good_clear (sized_new font fb) (Or.inr (Or.inr rfl))
  have hprompt := good_putChar (good_putChar hclear 0x3e) 0x20
  exact ⟨drawn_present hprompt.1, ⟨hprompt.2.cursorX_lt, hprompt.2.cursorY_lt⟩⟩

/-- Without harmful background colors, every reached state is in step. -/
theorem good_run (font : Font) (fb : Framebuffer) {ops : List Op}
    (hops : ∀ color, Op.setBackground color ∈ ops → Harmless fb.info color) :
    (ops.foldl apply (init font fb)).Good fb.info :=
  List.foldlRecOn ops apply (good_init font fb) fun _ hc op hop =>
    good_apply hc op fun color heq => hops color (heq ▸ hop)

/-- With any other background color, clearing alone takes the screen out of step. -/
theorem clear_ne_render (h : c.Sized info) (hbackground : ¬Harmless info c.background) :
    info.OnScreen 0 0 ∧ c.clear.fb.pixel 0 0 ≠ c.clear.render.pixel 0 0 := by
  have hon : info.OnScreen 0 0 := ⟨info.width_pos, info.height_pos⟩
  have hclear := sized_clear h
  have hcolumns := h.columns_eq
  have hrows := h.rows_eq
  simp only [Harmless, not_or, charWidth, charHeight] at hbackground hcolumns hrows
  obtain ⟨hwidth, hheight, hcolor⟩ := hbackground
  have hgrid : 0 / charWidth < c.columns ∧ 0 / charHeight < c.rows := by
    simp only [maxColumns, maxRows, charWidth, charHeight] at hcolumns hrows ⊢
    omega
  rw [pixel_clear h hon, pixel_render _ (hclear.info_eq.symm ▸ hon), picture_clear h,
    if_pos hgrid]
  exact ⟨hon, hcolor⟩

/-- The screen is what a full redraw would show, after every operation of a run, if and
only if the run sets no harmful background color. -/
theorem redraw_iff (font : Font) (fb : Framebuffer) (ops : List Op) :
    (∀ done, done <+: ops → ∀ x y, fb.info.OnScreen x y →
      (done.foldl apply (init font fb)).fb.pixel x y =
        (done.foldl apply (init font fb)).render.pixel x y) ↔
      ∀ color, Op.setBackground color ∈ ops → Harmless fb.info color := by
  constructor
  · intro hstep
    induction ops using List.reverseRecOn with
    | nil => simp
    | append_singleton ops op ih =>
      have hops := ih fun done hdone => hstep done (hdone.trans (List.prefix_append ops [op]))
      intro color hmem
      rw [List.mem_append, List.mem_singleton] at hmem
      cases hmem with
      | inl hmem => exact hops color hmem
      | inr heq =>
        subst heq
        by_contra hharm
        -- The color is set in a state that is still in step.
        have hset := sized_setBackground (good_run font fb hops).1.sized color
        obtain ⟨hon, hne⟩ := clear_ne_render hset hharm
        have hlast := hstep _ List.prefix_rfl 0 0 hon
        rw [List.foldl_append] at hlast
        exact hne hlast
  · intro hops done hdone x y hxy
    obtain ⟨hdrawn, -⟩ := good_run font fb fun color hmem => hops color (hdone.subset hmem)
    have hinfo := hdrawn.sized.info_eq
    rw [hdrawn.pixel_eq x y hxy, pixel_render _ (hinfo.symm ▸ hxy)]

/-- A redraw changes the first pixel of a screen that has been cleared in white. -/
theorem redraw_white :
    let c := [Op.setBackground Color.WHITE].foldl apply (init blankFont lineScreen)
    ¬∀ x y, lineInfo.OnScreen x y → c.fb.pixel x y = c.render.pixel x y := by
  intro c hall
  have hsized := (good_init blankFont lineScreen).1.sized
  rw [lineScreen_info] at hsized
  have hharm : ¬Harmless lineInfo Color.WHITE := by
    simp only [Harmless]
    decide
  obtain ⟨hon, hne⟩ := clear_ne_render (sized_setBackground hsized Color.WHITE) hharm
  exact hne (hall 0 0 hon)

end Console

end SillOS

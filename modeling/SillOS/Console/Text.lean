import Mathlib.Algebra.Order.BigOperators.Group.List
import Mathlib.Data.List.DropRight
import SillOS.Console.FontFile
import SillOS.Core.Utf8

/-!
# Drawing text

A font draws a text byte by byte with a cursor of its own. Where a byte is drawn can
be read off the bytes before it, without running the cursor: its column is the width
of what follows the last line feed or carriage return, its line the number of line
feeds.
-/

namespace SillOS.RawFont

open Fb Raster

/-! ## The cursor -/

/-- The framebuffer and where the next byte goes. -/
structure Pen where
  cursorX : Nat
  cursorY : Nat
  fb : Framebuffer

/-- Draw one byte of a text that starts in column `x`; `none` is a panic. -/
def drawByte (font : RawFont) (x : Nat) (color : Color) (pen : Pen) (character : UInt8) :
    Option Pen :=
  if character = 0x0a then do
    guard (pen.cursorY + scaledHeight < 2 ^ 64)
    return { pen with cursorX := x, cursorY := pen.cursorY + scaledHeight }
  else if character = 0x0d then return { pen with cursorX := x }
  else if character = 0x09 then do
    guard (pen.cursorX + scaledWidth * 4 < 2 ^ 64)
    return { pen with cursorX := pen.cursorX + scaledWidth * 4 }
  else if 0x20 ≤ character ∧ character ≤ 0x7e then do
    let fb ← font.drawChar pen.cursorX pen.cursorY character color pen.fb
    guard (pen.cursorX + scaledWidth < 2 ^ 64)
    return { pen with cursorX := pen.cursorX + scaledWidth, fb := fb }
  else return pen

/-- Draw a text; `none` is a panic. -/
def drawText (font : RawFont) (x y : Nat) (text : List Char) (color : Color) (s : Framebuffer) :
    Option Framebuffer :=
  (Transition.run (font.drawByte x color) ⟨x, y, s⟩ (Utf8.encode text)).map Pen.fb

/-! ## The layout -/

/-- A byte that is drawn. -/
def Visible (character : UInt8) : Prop := 0x20 ≤ character ∧ character ≤ 0x7e

instance (character : UInt8) : Decidable (Visible character) :=
  inferInstanceAs (Decidable (_ ∧ _))

/-- A byte after which the cursor is back in the first column. -/
def startsLine (character : UInt8) : Bool := character = 0x0a ∨ character = 0x0d

/-- The columns that a byte takes. -/
def charColumns (character : UInt8) : Nat :=
  if character = 0x09 then 4 else if Visible character then 1 else 0

/-- The column behind some bytes. -/
def column (bytes : List UInt8) : Nat :=
  ((bytes.rtakeWhile fun b => !startsLine b).map charColumns).sum

/-- The line behind some bytes. -/
def line (bytes : List UInt8) : Nat := bytes.count 0x0a

/-- Some character of a text at a place lights the pixel: a set bit of its glyph is there, with
the glyph where the bytes before the character put it. -/
def Lights (font : RawFont) (x y : Nat) (bytes : List UInt8) (px py : Nat) : Prop :=
  ∃ before character, before ++ [character] <+: bytes ∧ Visible character ∧
    ((x + 8 * column before ≤ px ∧ px < x + 8 * column before + 8) ∧
      y + 16 * line before ≤ py ∧ py < y + 16 * line before + 16) ∧
    font.sourceBit character (py - (y + 16 * line before)) (px - (x + 8 * column before))

/-- Every place of the text has room for a character before the end of the address space. -/
def HasRoom (x y : Nat) (bytes : List UInt8) : Prop :=
  ∀ before, before <+: bytes →
    x + 8 * column before + 16 < 2 ^ 64 ∧ y + 16 * line before + 16 < 2 ^ 64

section Layout

variable {x y px py : Nat} {bytes : List UInt8} {character : UInt8} {font : RawFont}

private theorem column_concat_of_startsLine (h : startsLine character) :
    column (bytes ++ [character]) = 0 := by
  rw [column, List.rtakeWhile_concat_neg _ _ _ (by simpa using h)]
  rfl

private theorem column_concat (h : startsLine character = false) :
    column (bytes ++ [character]) = column bytes + charColumns character := by
  rw [column, List.rtakeWhile_concat_pos _ _ _ (by simpa using h), List.map_append,
    List.sum_append, List.map_singleton, List.sum_singleton]
  rfl

private theorem line_concat : line (bytes ++ [character]) =
    line bytes + if character = 0x0a then 1 else 0 := by
  rw [line, List.count_append, List.count_singleton]
  simp only [beq_iff_eq]
  rfl

private theorem startsLine_of_visible (h : Visible character) : startsLine character = false := by
  rw [startsLine, decide_eq_false_iff_not, not_or]
  exact ⟨fun heq => absurd (heq ▸ h) (by decide), fun heq => absurd (heq ▸ h) (by decide)⟩

private theorem charColumns_of_visible (h : Visible character) : charColumns character = 1 := by
  have htab : character ≠ 0x09 := fun heq => absurd (heq ▸ h) (by decide)
  rw [charColumns, if_neg htab, if_pos h]

private theorem line_concat_of_not_startsLine (h : startsLine character = false) :
    line (bytes ++ [character]) = line bytes := by
  rw [startsLine, decide_eq_false_iff_not, not_or] at h
  rw [line_concat, if_neg h.1, Nat.add_zero]

/-- A text with room has room without its last character. -/
theorem HasRoom.before (h : HasRoom x y (bytes ++ [character])) : HasRoom x y bytes :=
  fun before hbefore => h before (hbefore.trans (List.prefix_append _ _))

private theorem charColumns_le (character : UInt8) : charColumns character ≤ 4 := by
  rw [charColumns]
  split_ifs <;> decide

private theorem column_le (bytes : List UInt8) : column bytes ≤ 4 * bytes.length := by
  have hsum := List.sum_le_card_nsmul
    ((bytes.rtakeWhile fun b => !startsLine b).map charColumns) 4 fun n hn => by
      obtain ⟨b, -, rfl⟩ := List.mem_map.mp hn
      exact charColumns_le b
  have hlength := (List.rtakeWhile_suffix (fun b => !startsLine b) bytes).length_le
  rw [List.length_map, Nat.nsmul_eq_mul] at hsum
  rw [column]
  omega

/-- A text that is short for the address space has room. -/
theorem hasRoom_of_length (hx : x + 32 * bytes.length + 16 < 2 ^ 64)
    (hy : y + 16 * bytes.length + 16 < 2 ^ 64) : HasRoom x y bytes := by
  intro before hbefore
  have hlength := hbefore.length_le
  have hcolumn := column_le before
  have hline : line before ≤ before.length := List.count_le_length
  constructor <;> omega

private theorem not_lights_nil : ¬font.Lights x y [] px py := by
  rintro ⟨before, character, hprefix, -⟩
  simpa using List.prefix_nil.mp hprefix

/-- The pixels of a text with one more character. -/
theorem lights_concat : font.Lights x y (bytes ++ [character]) px py ↔
    font.Lights x y bytes px py ∨ Visible character ∧
      ((x + 8 * column bytes ≤ px ∧ px < x + 8 * column bytes + 8) ∧
        y + 16 * line bytes ≤ py ∧ py < y + 16 * line bytes + 16) ∧
      font.sourceBit character (py - (y + 16 * line bytes)) (px - (x + 8 * column bytes)) := by
  constructor
  · rintro ⟨before, last, hprefix, hlit⟩
    obtain heq | hprefix := List.prefix_concat_iff.mp hprefix
    · obtain ⟨rfl, hlast⟩ := List.append_inj' heq rfl
      obtain rfl := List.singleton_inj.mp hlast
      exact Or.inr hlit
    · exact Or.inl ⟨before, last, hprefix, hlit⟩
  · rintro (⟨before, last, hprefix, hlit⟩ | hlit)
    · exact ⟨before, last, hprefix.trans (List.prefix_append _ _), hlit⟩
    · exact ⟨bytes, character, List.prefix_rfl, hlit⟩

private theorem lights_concat_of_not_visible (h : ¬Visible character) :
    font.Lights x y (bytes ++ [character]) px py ↔ font.Lights x y bytes px py := by
  rw [lights_concat, or_iff_left fun hlit => h hlit.1]

end Layout

/-! ## Drawing follows the layout -/

/-- The pen after some bytes of a text: it stands where the layout says, and has painted exactly
the pixels that the bytes light. -/
structure Drawn (font : RawFont) (x y : Nat) (color : Color) (s : Framebuffer)
    (bytes : List UInt8) (pen : Pen) : Prop where
  cursorX_eq : pen.cursorX = x + 8 * column bytes
  cursorY_eq : pen.cursorY = y + 16 * line bytes
  info_eq : pen.fb.info = s.info
  lit : ∀ px py, s.info.OnScreen px py → font.Lights x y bytes px py →
    pen.fb.pixel px py = s.info.colorToU32 color
  unlit : ∀ px py, s.info.OnScreen px py → ¬font.Lights x y bytes px py →
    pen.fb.pixel px py = s.pixel px py

section Drawing

variable {font : RawFont} {x y : Nat} {color : Color} {s : Framebuffer} {bytes : List UInt8}
  {pen : Pen} {character : UInt8}

private theorem drawn_nil (font : RawFont) (x y : Nat) (color : Color) (s : Framebuffer) :
    font.Drawn x y color s [] ⟨x, y, s⟩ where
  cursorX_eq := rfl
  cursorY_eq := rfl
  info_eq := rfl
  lit _ _ _ h := absurd h not_lights_nil
  unlit _ _ _ _ := rfl

/-- A byte that is not drawn only moves the pen. -/
theorem Drawn.move (h : font.Drawn x y color s bytes pen) (hcharacter : ¬Visible character)
    {cursorX cursorY : Nat} (hx : cursorX = x + 8 * column (bytes ++ [character]))
    (hy : cursorY = y + 16 * line (bytes ++ [character])) :
    font.Drawn x y color s (bytes ++ [character]) ⟨cursorX, cursorY, pen.fb⟩ where
  cursorX_eq := hx
  cursorY_eq := hy
  info_eq := h.info_eq
  lit px py hon hlit := h.lit px py hon ((lights_concat_of_not_visible hcharacter).mp hlit)
  unlit px py hon hlit := h.unlit px py hon (mt (lights_concat_of_not_visible hcharacter).mpr hlit)

/-- A visible byte is painted, and the pen is behind it. -/
theorem Drawn.paint (h : font.Drawn x y color s bytes pen) (hfont : font.InData)
    (hcharacter : Visible character) (hx : pen.cursorX + 16 < 2 ^ 64)
    (hy : pen.cursorY + 16 < 2 ^ 64) :
    ∃ fb, font.drawChar pen.cursorX pen.cursorY character color pen.fb = some fb ∧
      font.Drawn x y color s (bytes ++ [character])
        ⟨pen.cursorX + scaledWidth, pen.cursorY, fb⟩ := by
  obtain ⟨fb, hdraw, hinfo, hpixel⟩ := hfont.draws character _ _ color pen.fb hx hy
  rw [h.cursorX_eq, h.cursorY_eq, h.info_eq] at hpixel
  have hline : startsLine character = false := startsLine_of_visible hcharacter
  refine ⟨fb, hdraw, ?_, ?_, hinfo.trans h.info_eq, fun px py hon hlit => ?_,
    fun px py hon hlit => ?_⟩
  · rw [column_concat hline, charColumns_of_visible hcharacter, h.cursorX_eq]
    rfl
  · rw [line_concat_of_not_startsLine hline, h.cursorY_eq]
  · rw [hpixel px py hon]
    rw [lights_concat] at hlit
    split_ifs with hcell
    · rfl
    · exact h.lit px py hon (hlit.resolve_right fun hnew => hcell hnew.2)
  · rw [lights_concat, not_or] at hlit
    rw [hpixel px py hon, if_neg fun hcell => hlit.2 ⟨hcharacter, hcell⟩]
    exact h.unlit px py hon hlit.1

/-- One byte takes the pen to where the layout says. -/
theorem drawn_step (h : font.Drawn x y color s bytes pen) (hfont : font.InData)
    (hroom : HasRoom x y (bytes ++ [character])) :
    ∃ pen', font.drawByte x color pen character = some pen' ∧
      font.Drawn x y color s (bytes ++ [character]) pen' := by
  have hhere := hroom bytes (List.prefix_append _ _)
  have hnext := hroom (bytes ++ [character]) List.prefix_rfl
  rw [← h.cursorX_eq, ← h.cursorY_eq] at hhere
  unfold drawByte
  split_ifs with hfeed hreturn htab hvisible
  · subst hfeed
    have hline : y + 16 * line (bytes ++ [0x0a]) = pen.cursorY + scaledHeight := by
      rw [h.cursorY_eq, line_concat]
      rfl
    have hguard : pen.cursorY + scaledHeight < 2 ^ 64 := by omega
    refine ⟨_, by simp only [guard, hguard, if_true]; rfl, ?_⟩
    exact h.move (by decide) (by rw [column_concat_of_startsLine rfl]; rfl) hline.symm
  · subst hreturn
    refine ⟨_, rfl, h.move (by decide) ?_ ?_⟩
    · rw [column_concat_of_startsLine rfl]
      rfl
    · rw [h.cursorY_eq, line_concat]
      rfl
  · subst htab
    have hcolumn : x + 8 * column (bytes ++ [0x09]) = pen.cursorX + scaledWidth * 4 := by
      rw [h.cursorX_eq, column_concat rfl, Nat.mul_add, ← Nat.add_assoc]
      rfl
    have hguard : pen.cursorX + scaledWidth * 4 < 2 ^ 64 := by omega
    refine ⟨_, by simp only [guard, hguard, if_true]; rfl, h.move (by decide) hcolumn.symm ?_⟩
    rw [h.cursorY_eq, line_concat]
    rfl
  · obtain ⟨fb, hdraw, hdrawn⟩ := h.paint hfont hvisible hhere.1 hhere.2
    have hguard : pen.cursorX + scaledWidth < 2 ^ 64 := by
      have : scaledWidth = 8 := rfl
      omega
    refine ⟨_, ?_, hdrawn⟩
    simp only [hdraw, guard, hguard, if_true]
    rfl
  · have hline : startsLine character = false := by simp [startsLine, hfeed, hreturn]
    refine ⟨_, rfl, h.move hvisible ?_ ?_⟩
    · have hwidth : charColumns character = 0 := by
        rw [charColumns, if_neg htab]
        exact if_neg hvisible
      rw [column_concat hline, hwidth, Nat.add_zero, h.cursorX_eq]
    · rw [line_concat_of_not_startsLine hline, h.cursorY_eq]

/-- The bytes of a text with room take the pen to where the layout says. -/
theorem drawn_run (hfont : font.InData) (color : Color) (s : Framebuffer)
    (hroom : HasRoom x y bytes) :
    ∃ pen, Transition.run (font.drawByte x color) ⟨x, y, s⟩ bytes = some pen ∧
      font.Drawn x y color s bytes pen := by
  induction bytes using List.reverseRecOn with
  | nil => exact ⟨_, rfl, drawn_nil font x y color s⟩
  | append_singleton bytes character ih =>
    obtain ⟨pen, hrun, hdrawn⟩ := ih hroom.before
    obtain ⟨pen', hbyte, hdrawn'⟩ := drawn_step hdrawn hfont hroom
    refine ⟨pen', ?_, hdrawn'⟩
    rw [Transition.run_append, hrun, Option.bind_some, Transition.run_cons, hbyte]
    rfl

/-- Where a text has room and the font's glyphs are in its data, drawing the text does not panic,
and sets exactly the pixels that the layout lights: a character stands as many columns to the
right as the bytes since the last line feed or carriage return take, a tab four of them and a byte
that is not drawn none, and as many lines down as line feeds precede it. -/
theorem drawText_follows_layout (hfont : font.InData) (text : List Char) (color : Color)
    (s : Framebuffer) (hroom : HasRoom x y (Utf8.encode text)) :
    ∃ t, font.drawText x y text color s = some t ∧ t.info = s.info ∧
      ∀ px py, s.info.OnScreen px py →
        (font.Lights x y (Utf8.encode text) px py → t.pixel px py = s.info.colorToU32 color) ∧
        (¬font.Lights x y (Utf8.encode text) px py → t.pixel px py = s.pixel px py) := by
  obtain ⟨pen, hrun, hdrawn⟩ := drawn_run hfont color s hroom
  refine ⟨pen.fb, ?_, hdrawn.info_eq, fun px py hon => ⟨hdrawn.lit px py hon,
    hdrawn.unlit px py hon⟩⟩
  rw [drawText, hrun]
  rfl

end Drawing

/-- A font of 128 filled glyphs. -/
def solid : RawFont where
  data := List.replicate (128 * 64) 0xff
  headerSize := 0
  glyphCount := 128
  glyphSize := 64

private theorem solid_inData : solid.InData := by
  refine Or.inr ⟨?_, Or.inr (by decide)⟩
  rw [show solid.data.length = 128 * 64 from List.length_replicate]
  decide

/-- One row down, a text leaves the first pixel and paints the second. -/
theorem drawText_solid :
    (solid.InData ∧ HasRoom 0 1 (Utf8.encode ['A', '\n', 'B'])) ∧
      ∃ t, solid.drawText 0 1 ['A', '\n', 'B'] Color.WHITE Framebuffer.stripes = some t ∧
        t.pixel 0 0 = Framebuffer.stripes.pixel 0 0 ∧
        t.pixel 0 1 = Framebuffer.stripes.info.colorToU32 Color.WHITE := by
  have hroom : HasRoom 0 1 (Utf8.encode ['A', '\n', 'B']) :=
    hasRoom_of_length (by decide) (by decide)
  obtain ⟨t, hdraw, -, hpixel⟩ :=
    drawText_follows_layout solid_inData _ Color.WHITE Framebuffer.stripes hroom
  refine ⟨⟨solid_inData, hroom⟩, t, hdraw, (hpixel 0 0 ⟨by decide, by decide⟩).2 ?_,
    (hpixel 0 1 ⟨by decide, by decide⟩).1 ?_⟩
  · rintro ⟨before, character, -, -, ⟨-, hrow, -⟩, -⟩
    omega
  · refine ⟨[], 0x41, ⟨[0x0a, 0x42], by decide⟩, by decide, by decide, ?_⟩
    have hbyte : solid.data.getD 4160 0 = 0xff := by
      rw [solid, List.getD_eq_getElem _ _ (by rw [List.length_replicate]; decide),
        List.getElem_replicate]
    change (true && true && (solid.data.getD 4160 0).toNat.testBit 7) = true
    rw [hbyte]
    decide

end SillOS.RawFont

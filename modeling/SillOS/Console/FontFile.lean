import Mathlib.Data.List.GetD
import Mathlib.Data.Nat.Bitwise
import SillOS.Console.Font
import SillOS.Core.Transition
import SillOS.Fb.CopyRect

/-!
# Font files

A font as it is accepted from a file, and drawing with every access checked. The
checks on the file compare no size in its header with the data; here is exactly
when that matters to drawing.
-/

namespace SillOS

open Fb Raster

/-- A font as accepted from a file. -/
structure RawFont where
  data : List UInt8
  headerSize : Nat
  glyphCount : Nat
  glyphSize : Nat

def psf2Magic : List UInt8 := [0x72, 0xb5, 0x4a, 0x86]

/-- A little-endian number of four bytes; `none` is an index behind the data. -/
def readU32 (data : List UInt8) (offset : Nat) : Option Nat := do
  let b0 ← data[offset]?
  let b1 ← data[offset + 1]?
  let b2 ← data[offset + 2]?
  let b3 ← data[offset + 3]?
  return b0.toNat + 256 * (b1.toNat + 256 * (b2.toNat + 256 * b3.toNat))

namespace RawFont

/-- Accept a font file; `none` is a failed assertion. -/
def new (data : List UInt8) : Option RawFont := do
  guard (data.length ≥ 32)
  guard (data.take 4 = psf2Magic)
  let version ← readU32 data 4
  guard (version = 0)
  let headerSize ← readU32 data 8
  let glyphCount ← readU32 data 16
  let glyphSize ← readU32 data 20
  let width ← readU32 data 28
  let height ← readU32 data 24
  guard (width = fontWidth)
  guard (height = fontHeight)
  return ⟨data, headerSize, glyphCount, glyphSize⟩

/-- The bytes of a glyph; `none` is a slice that ends behind the data. -/
def glyph (font : RawFont) (index : Nat) : Option (List UInt8) :=
  if index ≥ font.glyphCount then some []
  else
    let offset := font.headerSize + index * font.glyphSize
    if offset + font.glyphSize ≤ font.data.length then
      some ((font.data.drop offset).take font.glyphSize)
    else none

/-- Draw one pixel of a glyph; `none` is an index behind the glyph, or an overflow. -/
def drawPixel (glyph : List UInt8) (x y : Nat) (color : Color) (row : Nat) (s : Framebuffer)
    (col : Nat) : Option Framebuffer := do
  let byte ← glyph[Font.byteIndex row col]?
  let bit := 7 - col * 2 % 8
  if byte &&& (1 <<< UInt8.ofNat bit) != 0 then
    guard (x + col < 2 ^ 64 ∧ y + row < 2 ^ 64)
    return s.putPixel (x + col) (y + row) color
  else return s

/-- Draw the rows of a glyph. -/
def drawRows (glyph : List UInt8) (x y : Nat) (color : Color) (s : Framebuffer) :
    Option Framebuffer :=
  Transition.run
    (fun s row => Transition.run (drawPixel glyph x y color row) s (List.range' 0 scaledWidth)) s
    (List.range' 0 scaledHeight)

/-- Draw a character; `none` is a panic. -/
def drawChar (font : RawFont) (x y : Nat) (character : UInt8) (color : Color) (s : Framebuffer) :
    Option Framebuffer := do
  let glyph ← font.glyph character.toNat
  if glyph.isEmpty then return s else drawRows glyph x y color s

/-- The source bit of a drawn pixel: column `2 * col` of row `2 * row`, two bytes a row, most
significant bit first. -/
def sourceBit (font : RawFont) (character : UInt8) (row col : Nat) : Bool :=
  character.toNat < font.glyphCount && font.glyphSize != 0 &&
    (font.data.getD (font.headerSize + character.toNat * font.glyphSize +
      (2 * (2 * row) + 2 * col / 8)) 0).toNat.testBit (7 - 2 * col % 8)

/-- Wherever there is room for a character, drawing it does not panic and sets exactly its source
bits on the screen. -/
def Draws (font : RawFont) : Prop :=
  ∀ (character : UInt8) (x y : Nat) (color : Color) (s : Framebuffer),
    x + 16 < 2 ^ 64 → y + 16 < 2 ^ 64 →
      ∃ t, font.drawChar x y character color s = some t ∧ t.info = s.info ∧
        ∀ px py, s.info.OnScreen px py → t.pixel px py =
          if ((x ≤ px ∧ px < x + 8) ∧ y ≤ py ∧ py < y + 16) ∧
              font.sourceBit character (py - y) (px - x) then s.info.colorToU32 color
          else s.pixel px py

/-- The glyphs of all characters are in the data, and are empty or hold every byte that is read. -/
def InData (font : RawFont) : Prop :=
  font.glyphCount = 0 ∨
    font.headerSize + min font.glyphCount 256 * font.glyphSize ≤ font.data.length ∧
      (font.glyphSize = 0 ∨ 62 ≤ font.glyphSize)

/-! ## Drawing a glyph -/

section Glyph

variable {glyph : List UInt8} {x y : Nat} {color : Color}

/-- A masked byte is nonzero if its bit is set. -/
theorem and_mask_ne_zero (byte : UInt8) {bit : Nat} (h : bit < 8) :
    (byte &&& (1 <<< UInt8.ofNat bit) != 0) = byte.toNat.testBit bit := by
  have hmask : (1 <<< UInt8.ofNat bit : UInt8).toNat = 2 ^ bit := by
    match bit, h with
    | 0, _ | 1, _ | 2, _ | 3, _ | 4, _ | 5, _ | 6, _ | 7, _ => rfl
  have hand : (byte &&& (1 <<< UInt8.ofNat bit)).toNat =
      (byte.toNat.testBit bit).toNat * 2 ^ bit := by
    rw [UInt8.toNat_and, hmask, Nat.and_two_pow]
  have hpos : 0 < 2 ^ bit := Nat.two_pow_pos bit
  have hzero : byte &&& (1 <<< UInt8.ofNat bit) = 0 ↔ byte.toNat.testBit bit = false := by
    rw [← UInt8.toNat_inj, hand]
    cases byte.toNat.testBit bit <;> simp
  cases hbit : byte.toNat.testBit bit with
  | false => simp [hzero.mpr hbit]
  | true => simp [bne_iff_ne, hzero, hbit]

/-- A pixel whose byte is in the glyph. -/
theorem drawPixel_eq {row col : Nat} (s : Framebuffer)
    (hbyte : Font.byteIndex row col < glyph.length) (hx : x + col < 2 ^ 64)
    (hy : y + row < 2 ^ 64) :
    drawPixel glyph x y color row s col =
      some (if Font.bitSet glyph row col then s.putPixel (x + col) (y + row) color else s) := by
  have hget : glyph.getD (Font.byteIndex row col) 0 = glyph[Font.byteIndex row col] :=
    List.getD_eq_getElem _ _ hbyte
  simp only [drawPixel, Font.bitSet, List.getElem?_eq_getElem hbyte, hget, bind, Option.bind_some]
  split
  · simp only [guard, hx, hy, and_self, if_true]
    rfl
  · rfl

/-- A glyph that holds every byte that is read draws its set bits. -/
theorem drawRows_eq (s : Framebuffer) (hlength : 62 ≤ glyph.length) (hx : x + 16 < 2 ^ 64)
    (hy : y + 16 < 2 ^ 64) :
    drawRows glyph x y color s =
      some (forRange 0 scaledHeight
        (fun row => forRange 0 scaledWidth fun col s =>
          if Font.bitSet glyph row col then s.putPixel (x + col) (y + row) color else s) s) := by
  refine (Transition.run_total (P := fun _ => True) (fun s row hrow _ => ⟨?_, trivial⟩) trivial).1
  refine (Transition.run_total (P := fun _ => True) (fun s col hcol _ => ⟨?_, trivial⟩) trivial).1
  rw [List.mem_range'_1] at hrow hcol
  simp only [scaledHeight, scaledWidth, fontHeight, fontWidth] at hrow hcol
  refine drawPixel_eq s ?_ (by omega) (by omega)
  simp only [Font.byteIndex, bytesPerRow]
  omega

/-- Drawing a nonempty glyph reads its byte 61. -/
theorem length_of_drawRows {s t : Framebuffer} (h : drawRows glyph x y color s = some t) :
    62 ≤ glyph.length := by
  obtain ⟨u, v, hrow⟩ := Transition.run_step h (a := 15) (by decide)
  obtain ⟨w, z, hcol⟩ := Transition.run_step hrow (a := 7) (by decide)
  obtain ⟨byte, hbyte, -⟩ := Option.bind_eq_some_iff.mp hcol
  exact (List.getElem?_eq_some_iff.mp hbyte).1

end Glyph

/-! ## Drawing a character -/

section Character

variable {font : RawFont} {data : List UInt8}

/-- The glyph of a character, if it is in the data. -/
theorem glyph_eq {index : Nat} (hindex : index < font.glyphCount)
    (hend : font.headerSize + index * font.glyphSize + font.glyphSize ≤ font.data.length) :
    ∃ glyph, font.glyph index = some glyph ∧ glyph.length = font.glyphSize ∧
      ∀ i < font.glyphSize, glyph.getD i 0 =
        font.data.getD (font.headerSize + index * font.glyphSize + i) 0 := by
  refine ⟨(font.data.drop (font.headerSize + index * font.glyphSize)).take font.glyphSize, ?_, ?_,
    fun i hi => ?_⟩
  · rw [glyph, if_neg (Nat.not_le.mpr hindex), if_pos hend]
  · rw [List.length_take, List.length_drop]
    omega
  · simp only [List.getD_eq_getElem?_getD, List.getElem?_take, List.getElem?_drop, if_pos hi]

/-- A character without a glyph in the data cannot be drawn. -/
theorem glyph_eq_none {index : Nat} (hindex : index < font.glyphCount)
    (hend : ¬font.headerSize + index * font.glyphSize + font.glyphSize ≤ font.data.length) :
    font.glyph index = none := by
  rw [glyph, if_neg (Nat.not_le.mpr hindex), if_neg hend]

/-- The source bits are the bits of the glyph. -/
private theorem bitSet_eq_sourceBit {character : UInt8} {glyph : List UInt8}
    (hindex : character.toNat < font.glyphCount) (hsize : 62 ≤ font.glyphSize)
    (hglyph : ∀ i < font.glyphSize, glyph.getD i 0 =
      font.data.getD (font.headerSize + character.toNat * font.glyphSize + i) 0)
    {row col : Nat} (hrow : row < 16) (hcol : col < 8) :
    Font.bitSet glyph row col = font.sourceBit character row col := by
  have hbyte : Font.byteIndex row col = 2 * (2 * row) + 2 * col / 8 := by
    simp only [Font.byteIndex, bytesPerRow]
    omega
  have hne : font.glyphSize != 0 := by
    rw [bne_iff_ne]
    omega
  have hlt : 2 * (2 * row) + 2 * col / 8 < font.glyphSize := by omega
  rw [Font.bitSet, and_mask_ne_zero _ (by omega), hbyte, hglyph _ hlt, Nat.mul_comm col 2]
  simp only [sourceBit, decide_eq_true hindex, hne, Bool.true_and]

section DrawChar

variable {character : UInt8} {x y : Nat} {color : Color} {s : Framebuffer} {glyph : List UInt8}

/-- An empty glyph is not drawn. -/
private theorem drawChar_empty (h : font.glyph character.toNat = some []) :
    font.drawChar x y character color s = some s := by
  rw [drawChar, h]
  rfl

/-- Every other glyph is drawn row by row. -/
private theorem drawChar_eq_drawRows (h : font.glyph character.toNat = some glyph)
    (hpos : 0 < glyph.length) :
    font.drawChar x y character color s = drawRows glyph x y color s := by
  have hne : ¬glyph.isEmpty = true := by
    rw [List.isEmpty_iff]
    exact List.ne_nil_of_length_pos hpos
  rw [drawChar, h]
  exact if_neg hne

end DrawChar

/-- Glyphs in the data are drawn. -/
theorem InData.draws (h : font.InData) : font.Draws := by
  intro character x y color s hx hy
  by_cases hindex : character.toNat < font.glyphCount
  · obtain ⟨hdata, hsize⟩ := h.resolve_left (Nat.ne_of_gt (Nat.zero_lt_of_lt hindex))
    have hbyte := character.toNat_lt
    have hend : font.headerSize + character.toNat * font.glyphSize + font.glyphSize ≤
        font.data.length := by
      have hle : (character.toNat + 1) * font.glyphSize ≤
          min font.glyphCount 256 * font.glyphSize := Nat.mul_le_mul_right _ (by omega)
      rw [Nat.add_mul, Nat.one_mul] at hle
      omega
    obtain ⟨glyph, hglyph, hlength, hget⟩ := glyph_eq hindex hend
    rcases hsize with hzero | hsize
    · obtain rfl := List.eq_nil_of_length_eq_zero (hlength.trans hzero)
      refine ⟨s, drawChar_empty hglyph, rfl, fun px py _ => ?_⟩
      simp [sourceBit, hzero]
    · have hoverlay := Font.overlays_glyph s.info glyph x y color
      refine ⟨_, ?_, hoverlay.info_eq s rfl, fun px py hon => ?_⟩
      · rw [drawChar_eq_drawRows hglyph (by omega)]
        exact drawRows_eq s (hlength ▸ hsize) hx hy
      · rw [hoverlay.pixel_eq s rfl px py hon]
        have hcond : ((x ≤ px ∧ px < x + scaledWidth) ∧ y ≤ py ∧ py < y + scaledHeight) ∧
            Font.bitSet glyph (py - y) (px - x) ↔
            ((x ≤ px ∧ px < x + 8) ∧ y ≤ py ∧ py < y + 16) ∧
              font.sourceBit character (py - y) (px - x) := by
          refine and_congr_right fun hin => ?_
          obtain ⟨⟨hx1, hx2⟩, hy1, hy2⟩ := hin
          simp only [scaledWidth, scaledHeight, fontWidth, fontHeight] at hx2 hy2
          rw [bitSet_eq_sourceBit hindex hsize hget (by omega) (by omega)]
        rw [if_congr hcond rfl rfl]
        split <;> rfl
  · refine ⟨s, drawChar_empty (if_pos (Nat.not_lt.mp hindex)), rfl, fun px py _ => ?_⟩
    simp [sourceBit, hindex]

/-- A font that draws has its glyphs in the data. -/
theorem Draws.inData (h : font.Draws) : font.InData := by
  by_cases hcount : font.glyphCount = 0
  · exact Or.inl hcount
  have hdraw (index : Nat) (hlt : index < 256) : ∃ t,
      font.drawChar 0 0 (UInt8.ofNat index) Color.WHITE Framebuffer.stripes = some t ∧
        (UInt8.ofNat index).toNat = index := by
    obtain ⟨t, ht, -⟩ := h (UInt8.ofNat index) 0 0 Color.WHITE Framebuffer.stripes
      (by decide) (by decide)
    exact ⟨t, ht, UInt8.toNat_ofNat_of_lt hlt⟩
  refine Or.inr ⟨?_, ?_⟩
  · -- The last glyph that a character can select ends in the data.
    obtain ⟨t, ht, hindex⟩ := hdraw (min font.glyphCount 256 - 1) (by omega)
    by_contra hdata
    have hend : ¬font.headerSize + (min font.glyphCount 256 - 1) * font.glyphSize +
        font.glyphSize ≤ font.data.length := by
      have hsucc : min font.glyphCount 256 - 1 + 1 = min font.glyphCount 256 := by omega
      rwa [Nat.add_assoc, ← Nat.succ_mul, Nat.succ_eq_add_one, hsucc]
    rw [drawChar, hindex, glyph_eq_none (by omega) hend] at ht
    cases ht
  · by_contra hsize
    obtain ⟨t, ht, hindex⟩ := hdraw 0 (by decide)
    have hend : font.headerSize + 0 * font.glyphSize + font.glyphSize ≤ font.data.length := by
      by_contra hend
      rw [drawChar, hindex, glyph_eq_none (by omega) hend] at ht
      cases ht
    obtain ⟨glyph, hglyph, hlength, -⟩ := glyph_eq (by omega) hend
    rw [drawChar_eq_drawRows (hindex.symm ▸ hglyph) (by omega)] at ht
    have := length_of_drawRows ht
    omega

/-- The console's font, as one whose sizes are not known to fit. -/
def ofFont (font : Font) : RawFont := ⟨font.data, font.headerSize, font.glyphCount, font.glyphSize⟩

private theorem glyph_ofFont (font : Font) (index : Nat) :
    (ofFont font).glyph index = some (font.glyph index) := by
  by_cases hindex : index ≥ font.glyphCount
  · rw [glyph, Font.glyph, if_pos hindex]
    exact if_pos hindex
  · have hdata := font.glyphs_le
    have hend : (index + 1) * font.glyphSize ≤ font.glyphCount * font.glyphSize :=
      Nat.mul_le_mul_right _ (by omega)
    rw [Nat.add_mul, Nat.one_mul] at hend
    rw [glyph, Font.glyph, if_neg hindex]
    refine (if_neg hindex).trans (if_pos ?_)
    simp only [ofFont]
    omega

/-- On the console's font no access fails, and drawing is what the console does. -/
theorem drawChar_ofFont (font : Font) {x y : Nat} (character : UInt8) (color : Color)
    (s : Framebuffer) (hx : x + 16 < 2 ^ 64) (hy : y + 16 < 2 ^ 64) :
    (ofFont font).drawChar x y character color s = some (font.drawChar x y character color s) := by
  have hglyph := glyph_ofFont font character.toNat
  rw [Font.drawChar]
  by_cases hempty : (font.glyph character.toNat).isEmpty
  · rw [List.isEmpty_iff.mp hempty] at hglyph
    rw [if_pos hempty]
    exact drawChar_empty hglyph
  · have hlength : 61 < (font.glyph character.toNat).length :=
      @Font.byteIndex_lt font character.toNat 15 7 hempty (by decide) (by decide)
    rw [if_neg hempty, drawChar_eq_drawRows hglyph (by omega)]
    exact drawRows_eq s hlength hx hy

/-- An accepted font keeps the data it was read from. -/
theorem new_data (h : new data = some font) : font.data = data := by
  simp only [new, bind, Option.bind_eq_some_iff] at h
  obtain ⟨_, -, _, -, _, -, _, -, _, -, _, -, _, -, _, -, _, -, _, -, _, -, heq⟩ := h
  cases heq
  rfl

/-- An accepted font can be drawn, whatever the character, the color and the place, exactly if
there are no glyphs, or the glyphs that a byte can select end in the data and are empty or have
62 bytes. -/
theorem draws_iff (h : new data = some font) :
    font.Draws ↔ font.glyphCount = 0 ∨
      font.headerSize + min font.glyphCount 256 * font.glyphSize ≤ data.length ∧
        (font.glyphSize = 0 ∨ 62 ≤ font.glyphSize) := by
  rw [← new_data h]
  exact ⟨Draws.inData, InData.draws⟩

/-- A header that declares this number of glyphs of 64 bytes right behind it. -/
def header (glyphCount : UInt8) : List UInt8 :=
  psf2Magic ++ [0, 0, 0, 0, 32, 0, 0, 0, 0, 0, 0, 0, glyphCount, 0, 0, 0, 64, 0, 0, 0, 32, 0, 0, 0,
    16, 0, 0, 0]

/-- A font with one blank glyph. -/
theorem draws_iff_blank :
    ∃ font, new (header 1 ++ List.replicate 64 0) = some font ∧
      (font.Draws ↔ font.glyphCount = 0 ∨
        font.headerSize + min font.glyphCount 256 * font.glyphSize ≤ 96 ∧
          (font.glyphSize = 0 ∨ 62 ≤ font.glyphSize)) := by
  have hnew : new (header 1 ++ List.replicate 64 0) =
      some ⟨header 1 ++ List.replicate 64 0, 32, 1, 64⟩ := by rfl
  exact ⟨_, hnew, draws_iff hnew⟩

/-- A header without its glyph is accepted, and drawing character 0 panics. -/
theorem header_panics :
    ∃ font, new (header 1) = some font ∧ ¬font.Draws ∧
      font.drawChar 0 0 0 Color.WHITE Framebuffer.stripes = none := by
  have hpanic : (⟨header 1, 32, 1, 64⟩ : RawFont).drawChar 0 0 0 Color.WHITE Framebuffer.stripes =
      none := by rfl
  refine ⟨⟨header 1, 32, 1, 64⟩, by rfl, fun h => ?_, hpanic⟩
  obtain ⟨t, ht, -⟩ := h 0 0 0 Color.WHITE Framebuffer.stripes (by decide) (by decide)
  rw [hpanic] at ht
  cases ht

end Character

end RawFont

end SillOS

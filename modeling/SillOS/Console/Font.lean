import SillOS.Fb.Overlay

/-!
# The console font

Glyphs of 16 by 32 pixels, one bit a pixel, of which every second pixel of every
second row is drawn. Only set bits are painted.
-/

namespace SillOS

open Fb Raster

def fontWidth : Nat := 16

def fontHeight : Nat := 32

def scaledWidth : Nat := fontWidth / 2

def scaledHeight : Nat := fontHeight / 2

def bytesPerRow : Nat := 2

/-- A font whose glyphs are inside its data and have all their rows. -/
structure Font where
  data : List UInt8
  headerSize : Nat
  glyphCount : Nat
  glyphSize : Nat
  glyphs_le : headerSize + glyphCount * glyphSize ≤ data.length
  rows_le : fontHeight * bytesPerRow ≤ glyphSize

namespace Font

/-- The bytes of a glyph, none for an unknown one. -/
def glyph (font : Font) (index : Nat) : List UInt8 :=
  if index ≥ font.glyphCount then []
  else
    let offset := font.headerSize + index * font.glyphSize
    (font.data.drop offset).take font.glyphSize

/-- The byte of a glyph that holds a drawn pixel. -/
def byteIndex (row col : Nat) : Nat :=
  let sourceY := row * 2
  let sourceX := col * 2
  sourceY * bytesPerRow + sourceX / 8

/-- Whether a drawn pixel of a glyph is set. -/
def bitSet (glyph : List UInt8) (row col : Nat) : Bool :=
  let sourceX := col * 2
  let byte := glyph.getD (byteIndex row col) 0
  let bit := 7 - sourceX % 8
  byte &&& (1 <<< UInt8.ofNat bit) != 0

/-- Paint the set pixels of a character. -/
def drawChar (font : Font) (x y : Nat) (character : UInt8) (color : Color) (s : Framebuffer) :
    Framebuffer :=
  let glyph := font.glyph character.toNat
  if glyph.isEmpty then s
  else
    forRange 0 scaledHeight
      (fun row => forRange 0 scaledWidth fun col s =>
        if bitSet glyph row col then s.putPixel (x + col) (y + row) color else s) s

/-- Every byte that drawing a glyph reads is a byte of the glyph. -/
theorem byteIndex_lt {font : Font} {index row col : Nat} (h : ¬(font.glyph index).isEmpty)
    (hrow : row < scaledHeight) (hcol : col < scaledWidth) :
    byteIndex row col < (font.glyph index).length := by
  have hsize := font.rows_le
  have hdata := font.glyphs_le
  unfold glyph at h ⊢
  split at h
  · exact absurd rfl h
  · rename_i hindex
    have hend : (index + 1) * font.glyphSize ≤ font.glyphCount * font.glyphSize :=
      Nat.mul_le_mul_right _ (by omega)
    rw [Nat.add_mul, Nat.one_mul] at hend
    rw [if_neg hindex, List.length_take, List.length_drop]
    simp only [byteIndex, scaledHeight, scaledWidth, fontHeight, fontWidth, bytesPerRow] at *
    omega

/-- The pixels that a character paints. -/
def lit (font : Font) (character : UInt8) (row col : Nat) : Bool :=
  let glyph := font.glyph character.toNat
  !glyph.isEmpty && bitSet glyph row col

/-- One row of a glyph. -/
private theorem overlays_glyphRow (info : Info) (glyph : List UInt8) (x₀ y₀ row : Nat)
    (color : Color) :
    Overlays info
      (fun s => forRange 0 scaledWidth (fun col s =>
        if bitSet glyph row col then s.putPixel (x₀ + col) (y₀ + row) color else s) s)
      fun x y => if (x₀ ≤ x ∧ x < x₀ + scaledWidth) ∧ y = y₀ + row ∧ bitSet glyph row (x - x₀) then
        some (info.colorToU32 color) else none := by
  have hloop := Overlays.loop (n := scaledWidth) (fun x _ => x - x₀)
    (fun col _ => (Overlays.putPixel info (x₀ + col) (y₀ + row) color).ite
      (bitSet glyph row col = true)) ?_
  · refine hloop.congr fun x y _ => ?_
    simp only [← ite_and]
    refine if_congr ?_ rfl rfl
    cases bitSet glyph row (x - x₀) with
    | false => simp
    | true =>
      simp only [and_true, true_and]
      omega
  · intro col x y hsome
    simp only [← ite_and, ne_eq, ite_eq_right_iff, reduceCtorEq, imp_false, not_not] at hsome
    omega

/-- The rows of a glyph paint its set bits. -/
theorem overlays_glyph (info : Info) (glyph : List UInt8) (x₀ y₀ : Nat) (color : Color) :
    Overlays info
      (fun s => forRange 0 scaledHeight
        (fun row => forRange 0 scaledWidth fun col s =>
          if bitSet glyph row col then s.putPixel (x₀ + col) (y₀ + row) color else s) s)
      fun x y => if ((x₀ ≤ x ∧ x < x₀ + scaledWidth) ∧ y₀ ≤ y ∧ y < y₀ + scaledHeight) ∧
          bitSet glyph (y - y₀) (x - x₀) then
        some (info.colorToU32 color) else none := by
  have hloop := Overlays.loop (n := scaledHeight) (fun _ y => y - y₀)
    (fun row _ => overlays_glyphRow info glyph x₀ y₀ row color) ?_
  · refine hloop.congr fun x y _ => ?_
    simp only [← ite_and]
    refine if_congr ?_ rfl rfl
    cases bitSet glyph (y - y₀) (x - x₀) with
    | false => simp
    | true =>
      simp only [and_true]
      omega
  · intro row x y hsome
    simp only [ne_eq, ite_eq_right_iff, reduceCtorEq, imp_false, not_not] at hsome
    omega

/-- Drawing a character paints its lit pixels. -/
theorem overlays_drawChar (info : Info) (font : Font) (x₀ y₀ : Nat) (character : UInt8)
    (color : Color) :
    Overlays info (fun s => font.drawChar x₀ y₀ character color s)
      fun x y => if ((x₀ ≤ x ∧ x < x₀ + scaledWidth) ∧ y₀ ≤ y ∧ y < y₀ + scaledHeight) ∧
          font.lit character (y - y₀) (x - x₀) then
        some (info.colorToU32 color) else none := by
  unfold drawChar
  dsimp only
  by_cases hempty : (font.glyph character.toNat).isEmpty
  · simpa only [lit, hempty, if_true, Bool.not_true, Bool.false_and, Bool.false_eq_true,
      and_false, if_false] using Overlays.transparent info
  · simpa only [lit, hempty, Bool.false_eq_true, if_false, Bool.not_false, Bool.true_and] using
      overlays_glyph info (font.glyph character.toNat) x₀ y₀ color

end Font

end SillOS

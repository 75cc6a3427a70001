import SillOS.Core.ByteMemory
import SillOS.Core.Raster

/-!
# The framebuffer

One backbuffer of 32-bit pixels that the kernel draws to, and one front buffer of
bytes with its own row pitch that the user sees. `present` copies the dirty
rectangle, the bounding box of what has been drawn, from one to the other.

`usize` values are natural numbers; only the sums that the source saturates can
pass the largest `usize`. A shift count is taken modulo the word size.
-/

namespace SillOS.Fb

open Raster

def maxWidth : Nat := 1920

def maxHeight : Nat := 1080

def bytesPerPixel : Nat := 4

/-- `usize::saturating_add`. -/
def saturatingAdd (a b : Nat) : Nat := min (a + b) (2 ^ 64 - 1)

/-- A color by its three channels. -/
structure Color where
  r : UInt8
  g : UInt8
  b : UInt8
  deriving DecidableEq, Repr

namespace Color

def BLACK : Color := ⟨0, 0, 0⟩

def WHITE : Color := ⟨255, 255, 255⟩

def RED : Color := ⟨255, 0, 0⟩

def GREEN : Color := ⟨0, 255, 0⟩

def BLUE : Color := ⟨0, 0, 255⟩

def fromName (name : String) : Option Color :=
  match name with
  | "black" => some BLACK
  | "red" => some RED
  | "green" => some GREEN
  | "white" => some WHITE
  | "blue" => some BLUE
  | _ => none

end Color

/-- A framebuffer that `init` accepts. -/
structure Info where
  /-- Visible pixels in a row. -/
  width : Nat
  /-- Rows. -/
  height : Nat
  /-- Bytes from one row of the front buffer to the next. -/
  frontPitch : Nat
  redShift : UInt8
  greenShift : UInt8
  blueShift : UInt8
  width_pos : 0 < width
  width_le : width ≤ maxWidth
  height_pos : 0 < height
  height_le : height ≤ maxHeight

/-- A framebuffer with its buffers and its dirty rectangle
`[dirtyMinX, dirtyMaxX) × [dirtyMinY, dirtyMaxY)`. -/
structure Framebuffer where
  info : Info
  /-- The backbuffer, row by row without padding. -/
  back : Nat → UInt32
  /-- The front buffer, byte by byte. -/
  front : ByteMemory
  /-- Whether there is anything to present. -/
  dirty : Bool
  dirtyMinX : Nat
  dirtyMinY : Nat
  dirtyMaxX : Nat
  dirtyMaxY : Nat

namespace Framebuffer

/-- Mark a rectangle as dirty, clipped to the framebuffer. -/
def markDirty (s : Framebuffer) (x y width height : Nat) : Framebuffer :=
  if width = 0 ∨ height = 0 then s
  else if x ≥ s.info.width ∨ y ≥ s.info.height then s
  else
    let maxX := min (saturatingAdd x width) s.info.width
    let maxY := min (saturatingAdd y height) s.info.height
    if maxX ≤ x ∨ maxY ≤ y then s
    else if !s.dirty then
      { s with dirty := true, dirtyMinX := x, dirtyMinY := y, dirtyMaxX := maxX, dirtyMaxY := maxY }
    else
      { s with
        dirtyMinX := min s.dirtyMinX x
        dirtyMinY := min s.dirtyMinY y
        dirtyMaxX := max s.dirtyMaxX maxX
        dirtyMaxY := max s.dirtyMaxY maxY }

end Framebuffer

/-- The pixel value of a color. -/
def Info.colorToU32 (info : Info) (color : Color) : UInt32 :=
  (color.r.toUInt32 <<< info.redShift.toUInt32) ||| (color.g.toUInt32 <<< info.greenShift.toUInt32)
    ||| (color.b.toUInt32 <<< info.blueShift.toUInt32)

namespace Framebuffer

/-- Draw one pixel. -/
def putPixel (s : Framebuffer) (x y : Nat) (color : Color) : Framebuffer :=
  if x ≥ s.info.width ∨ y ≥ s.info.height then s
  else
    let pixel := s.info.colorToU32 color
    { s with back := Function.update s.back (y * s.info.width + x) pixel }.markDirty x y 1 1

/-- Fill the whole backbuffer. -/
def clear (s : Framebuffer) (color : Color) : Framebuffer :=
  let pixel := s.info.colorToU32 color
  { s with back := writeRow s.back 0 (s.info.width * s.info.height) fun _ => pixel }.markDirty
    0 0 s.info.width s.info.height

/-- Fill a rectangle, clipped to the framebuffer. -/
def drawRect (s : Framebuffer) (x y width height : Nat) (color : Color) : Framebuffer :=
  if width = 0 ∨ height = 0 then s
  else if x ≥ s.info.width ∨ y ≥ s.info.height then s
  else
    let endX := min (saturatingAdd x width) s.info.width
    let endY := min (saturatingAdd y height) s.info.height
    if endX ≤ x ∨ endY ≤ y then s
    else
      let pixel := s.info.colorToU32 color
      let back := forRange y (endY - y)
        (fun py back => writeRow back (py * s.info.width + x) (endX - x) fun _ => pixel) s.back
      { s with back := back }.markDirty x y (endX - x) (endY - y)

/-- Copy a rectangle inside the backbuffer, row by row from the top. -/
def copyRect (s : Framebuffer) (srcX srcY dstX dstY width height : Nat) : Framebuffer :=
  if width = 0 ∨ height = 0 then s
  else if srcX ≥ s.info.width ∨ srcY ≥ s.info.height ∨ dstX ≥ s.info.width ∨
      dstY ≥ s.info.height then s
  else
    let width := min (min width (s.info.width - srcX)) (s.info.width - dstX)
    let height := min (min height (s.info.height - srcY)) (s.info.height - dstY)
    if width = 0 ∨ height = 0 then s
    else
      let back := forRange 0 height
        (fun row back => writeRow back ((dstY + row) * s.info.width + dstX) width
          fun i => back ((srcY + row) * s.info.width + srcX + i)) s.back
      { s with back := back }.markDirty dstX dstY width height

/-- Scroll the backbuffer upward, filling the newly exposed area at the bottom. -/
def scrollUp (s : Framebuffer) (pixels : Nat) (color : Color) : Framebuffer :=
  if pixels = 0 then s
  else if pixels ≥ s.info.height then s.clear color
  else
    (s.copyRect 0 pixels 0 0 s.info.width (s.info.height - pixels)).drawRect
      0 (s.info.height - pixels) s.info.width pixels color

/-- The backbuffer as the bytes of its little-endian pixels. -/
def backBytes (s : Framebuffer) : ByteMemory := fun i =>
  UInt8.ofNat ((s.back (i / bytesPerPixel)).toNat / 256 ^ (i % bytesPerPixel))

/-- Copy the dirty rectangle to the front buffer. -/
def present (s : Framebuffer) : Framebuffer :=
  if !s.dirty then s
  else
    let (minX, minY, maxX, maxY) := (s.dirtyMinX, s.dirtyMinY, s.dirtyMaxX, s.dirtyMaxY)
    let s := { s with dirty := false }
    if minX ≥ maxX ∨ minY ≥ maxY then s
    else
      let width := maxX - minX
      let rowSize := width * bytesPerPixel
      { s with
        front := forRange minY (maxY - minY)
          (fun y front => writeRow front (y * s.info.frontPitch + minX * bytesPerPixel) rowSize
            fun i => s.backBytes (y * s.info.width * bytesPerPixel + minX * bytesPerPixel + i))
          s.front }

/-- Copy the whole backbuffer to the front buffer. -/
def presentFull (s : Framebuffer) : Framebuffer :=
  (s.markDirty 0 0 s.info.width s.info.height).present

/-- Take over an accepted framebuffer, with buffers of arbitrary contents. -/
def init (info : Info) (back : Nat → UInt32) (front : ByteMemory) : Framebuffer :=
  let s : Framebuffer := {
    info := info
    back := back
    front := front
    dirty := false
    dirtyMinX := 0
    dirtyMinY := 0
    dirtyMaxX := 0
    dirtyMaxY := 0 }
  (s.clear Color.BLACK).present

end Framebuffer

end SillOS.Fb

import SillOS.Console.Cells
import SillOS.Fb.Present

/-!
# What the console draws with

The console changes the framebuffer only by the framebuffer's own operations, so
whatever these keep, every operation of the console keeps.
-/

namespace SillOS

open Fb Raster

namespace Fb.Framebuffer

/-- Operations lead from one state of the framebuffer to another. -/
def Reaches (s t : Framebuffer) : Prop := ∃ ops : List Op, t = ops.foldl apply s

variable {s t u : Framebuffer}

/-- A framebuffer reaches itself. -/
theorem Reaches.refl (s : Framebuffer) : s.Reaches s := ⟨[], rfl⟩

/-- Drawing goes on after drawing. -/
theorem Reaches.trans (h : s.Reaches t) (h' : t.Reaches u) : s.Reaches u := by
  obtain ⟨ops, rfl⟩ := h
  obtain ⟨ops', rfl⟩ := h'
  exact ⟨ops ++ ops', List.foldl_append.symm⟩

/-- One call leads to what is reached. -/
theorem reaches_apply (s : Framebuffer) (op : Op) : s.Reaches (s.apply op) := ⟨[op], rfl⟩

/-- A loop of operations. -/
theorem reaches_forRange {body : Nat → Framebuffer → Framebuffer}
    (hbody : ∀ r (s : Framebuffer), s.Reaches (body r s)) (y n : Nat) (s : Framebuffer) :
    s.Reaches (forRange y n body s) :=
  forRange_invariant (P := fun t => s.Reaches t) (fun r _ _ _ ht => ht.trans (hbody r _))
    (Reaches.refl s)

/-- What is owed to the user stays accounted for. -/
theorem Reaches.pending {info : Info} {front : ByteMemory} {T : Set (Nat × Nat)}
    (h : s.Reaches t) (hpitch : bytesPerPixel * info.width ≤ info.frontPitch)
    (hs : s.Pending info front T) : ∃ U, t.Pending info front U := by
  obtain ⟨ops, rfl⟩ := h
  exact List.foldlRecOn (motive := fun t => ∃ U, Pending info front t U) ops apply ⟨T, hs⟩
    fun t ht op _ => ht.elim fun U hU => ⟨_, hU.apply hpitch op⟩

end Fb.Framebuffer

open Framebuffer

private theorem Font.reaches_drawChar (font : Font) (x y : Nat) (character : UInt8) (color : Color)
    (s : Framebuffer) : s.Reaches (font.drawChar x y character color s) := by
  unfold drawChar
  dsimp only
  split_ifs
  · exact Reaches.refl s
  · refine reaches_forRange (fun row s => reaches_forRange (fun col s => ?_) 0 scaledWidth s) 0
      scaledHeight s
    split_ifs
    · exact s.reaches_apply (.putPixel (x + col) (y + row) color)
    · exact Reaches.refl s

namespace Console

/-- An operation that changes the framebuffer by its operations. -/
def Paints (c d : Console) : Prop := c.fb.Reaches d.fb

variable {c d e : Console}

/-- Painting nothing is painting. -/
theorem Paints.refl (c : Console) : c.Paints c := Reaches.refl c.fb

/-- Painting goes on after painting. -/
theorem Paints.trans (h : c.Paints d) (h' : d.Paints e) : c.Paints e := Reaches.trans h h'

private theorem reaches_renderCell (c : Console) (row column : Nat) (s : Framebuffer) :
    s.Reaches (c.renderCell row column s) := by
  unfold renderCell
  dsimp only
  split_ifs
  · exact Reaches.refl s
  · exact (s.reaches_apply (.drawRect _ _ _ _ _)).trans (Font.reaches_drawChar ..)
  · exact s.reaches_apply (.drawRect _ _ _ _ _)

private theorem paints_drawCell (c : Console) (row column : Nat) (cell : Cell) :
    c.Paints (c.drawCell row column cell) := reaches_renderCell (c.setCell row column cell) _ _ c.fb

private theorem paints_scroll (c : Console) : c.Paints c.scroll := by
  by_cases hrows : c.rows = 0
  · rw [scroll, if_pos hrows]
    exact Paints.refl c
  · rw [Paints, scroll_eq hrows]
    exact c.fb.reaches_apply (.scrollUp charHeight c.background)

private theorem paints_newline (c : Console) : c.Paints c.newline := by
  obtain ⟨-, h⟩ | ⟨-, h⟩ | ⟨-, -, h⟩ := c.newline_cases
  · rw [h]
    exact Paints.refl c
  · rw [h]
    exact Paints.refl c
  · rw [h]
    exact paints_scroll { c with cursorX := 0 }

private theorem paints_wrap (c : Console) : c.Paints c.wrap := by
  unfold wrap
  split_ifs
  · exact c.paints_newline
  · exact Paints.refl c

private theorem paints_advance (c : Console) : c.Paints c.advance :=
  paints_wrap { c with cursorX := c.cursorX + 1 }

private theorem paints_writeCell (c : Console) (character : UInt8) :
    c.Paints (c.writeCell character) := by
  rw [writeCell_eq]
  split_ifs
  · exact Paints.refl c
  · exact (c.paints_wrap.trans (paints_drawCell _ _ _ _)).trans (paints_advance _)

private theorem paints_backspace (c : Console) : c.Paints c.backspace := by
  rw [backspace_eq]
  split_ifs
  · exact Paints.refl c
  · exact paints_drawCell { c with cursorY := c.cursorY - 1, cursorX := c.columns - 1 } _ _ _
  · exact paints_drawCell { c with cursorX := c.cursorX - 1 } _ _ _

/-- Printing a character paints. -/
theorem paints_putChar (c : Console) (character : UInt8) : c.Paints (c.putChar character) := by
  unfold putChar
  dsimp only
  split_ifs
  · exact c.paints_newline
  · exact Paints.refl c
  · exact c.paints_newline
  · exact Paints.refl c
  · exact c.paints_backspace
  · exact c.paints_writeCell character
  · exact Paints.refl c

/-- Clearing paints. -/
theorem paints_clear (c : Console) : c.Paints c.clear := c.fb.reaches_apply (.clear c.background)

/-- Presenting counts as painting. -/
theorem paints_present (c : Console) : c.Paints c.present := c.fb.reaches_apply .present

/-- A key paints its echo. -/
theorem paints_receiveKey (c : Console) (key : Char) : c.Paints (c.receiveKey key) := by
  unfold receiveKey
  dsimp only
  split_ifs
  · exact c.paints_putChar 0x0a
  · exact paints_putChar { c with inputLen := c.inputLen - 1 } 8
  · exact Paints.refl c
  · exact paints_putChar { c with
      input := Function.update c.input c.inputLen key.val.toUInt8
      inputLen := c.inputLen + 1 } _
  · exact Paints.refl c
  · exact Paints.refl c

/-- Taking the line paints nothing. -/
theorem paints_readLine (c : Console) (buffer : List UInt8) : c.Paints (c.readLine buffer).1 := by
  unfold readLine
  dsimp only
  split_ifs
  · exact Paints.refl c
  · exact Paints.refl c

/-- A new console has painted its framebuffer. -/
theorem paints_init (font : Font) (fb : Framebuffer) : fb.Reaches (init font fb).fb :=
  ((((new font fb).paints_clear).trans (paints_putChar _ 0x3e)).trans (paints_putChar _ 0x20)).trans
    (paints_present _)

end Console

end SillOS

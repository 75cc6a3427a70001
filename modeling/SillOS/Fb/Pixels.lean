import SillOS.Fb.Framebuffer

/-!
# What drawing does to the pixels

Each drawing operation, read back pixel by pixel from the backbuffer. No drawing
operation changes the front buffer, and presenting changes no pixel.
-/

namespace SillOS.Fb

open Raster

/-- A pixel of the screen. -/
def Info.OnScreen (info : Info) (x y : Nat) : Prop := x < info.width ∧ y < info.height

namespace Framebuffer

/-- The backbuffer's pixel. -/
def pixel (s : Framebuffer) (x y : Nat) : UInt32 := s.back (y * s.info.width + x)

section MarkDirty

variable (s : Framebuffer) (x y width height : Nat)

/-- Marking changes neither the size nor a memory. -/
@[simp] theorem markDirty_info : (s.markDirty x y width height).info = s.info := by
  unfold markDirty
  dsimp only
  split_ifs <;> rfl

@[simp] theorem markDirty_back : (s.markDirty x y width height).back = s.back := by
  unfold markDirty
  dsimp only
  split_ifs <;> rfl

@[simp] theorem markDirty_front : (s.markDirty x y width height).front = s.front := by
  unfold markDirty
  dsimp only
  split_ifs <;> rfl

@[simp] theorem markDirty_pixel (px py : Nat) :
    (s.markDirty x y width height).pixel px py = s.pixel px py := by
  simp only [pixel, markDirty_info, markDirty_back]

end MarkDirty

section Drawing

/-- Saturation is invisible behind the clipping. -/
theorem min_saturatingAdd (info : Info) (a b : Nat) :
    min (saturatingAdd a b) info.width = min (a + b) info.width ∧
      min (saturatingAdd a b) info.height = min (a + b) info.height := by
  have hw := info.width_le
  have hh := info.height_le
  simp only [saturatingAdd, maxWidth, maxHeight] at *
  omega

variable (s : Framebuffer) (color : Color)

/-- Filling a rectangle does nothing, or fills the part of it that is on the screen. -/
theorem drawRect_cases (x y width height : Nat) :
    ((width = 0 ∨ height = 0 ∨ x ≥ s.info.width ∨ y ≥ s.info.height) ∧
      s.drawRect x y width height color = s) ∨
    ((width ≠ 0 ∧ height ≠ 0 ∧ x < s.info.width ∧ y < s.info.height) ∧
      s.drawRect x y width height color =
        { s with
          back := forRange y (min (y + height) s.info.height - y)
            (fun py back => writeRow back (py * s.info.width + x)
              (min (x + width) s.info.width - x) fun _ => s.info.colorToU32 color) s.back
        }.markDirty x y (min (x + width) s.info.width - x)
          (min (y + height) s.info.height - y)) := by
  unfold drawRect
  simp only [(min_saturatingAdd s.info x width).1, (min_saturatingAdd s.info y height).2]
  by_cases hempty : width = 0 ∨ height = 0
  · rw [if_pos hempty]
    exact Or.inl ⟨by omega, rfl⟩
  by_cases hout : x ≥ s.info.width ∨ y ≥ s.info.height
  · rw [if_neg hempty, if_pos hout]
    exact Or.inl ⟨by omega, rfl⟩
  · rw [if_neg hempty, if_neg hout, if_neg (by omega)]
    exact Or.inr ⟨by omega, rfl⟩

/-- Copying does nothing, or copies the part that is on the screen at source and target. -/
theorem copyRect_cases (srcX srcY dstX dstY width height : Nat) :
    ((width = 0 ∨ height = 0 ∨ srcX ≥ s.info.width ∨ srcY ≥ s.info.height ∨
        dstX ≥ s.info.width ∨ dstY ≥ s.info.height) ∧
      s.copyRect srcX srcY dstX dstY width height = s) ∨
    (((width ≠ 0 ∧ height ≠ 0) ∧ (srcX < s.info.width ∧ srcY < s.info.height) ∧
        dstX < s.info.width ∧ dstY < s.info.height) ∧
      s.copyRect srcX srcY dstX dstY width height =
        { s with
          back := forRange 0 (min (min height (s.info.height - srcY)) (s.info.height - dstY))
            (fun row back => writeRow back ((dstY + row) * s.info.width + dstX)
              (min (min width (s.info.width - srcX)) (s.info.width - dstX))
              fun i => back ((srcY + row) * s.info.width + srcX + i)) s.back
        }.markDirty dstX dstY (min (min width (s.info.width - srcX)) (s.info.width - dstX))
          (min (min height (s.info.height - srcY)) (s.info.height - dstY))) := by
  unfold copyRect
  dsimp only
  by_cases hempty : width = 0 ∨ height = 0
  · rw [if_pos hempty]
    exact Or.inl ⟨by omega, rfl⟩
  by_cases hout : srcX ≥ s.info.width ∨ srcY ≥ s.info.height ∨ dstX ≥ s.info.width ∨
      dstY ≥ s.info.height
  · rw [if_neg hempty, if_pos hout]
    exact Or.inl ⟨by omega, rfl⟩
  · rw [if_neg hempty, if_neg hout, if_neg (by omega)]
    exact Or.inr ⟨by omega, rfl⟩

/-- No drawing changes the size of the screen or the mapped framebuffer. -/
@[simp] theorem putPixel_info (x y : Nat) : (s.putPixel x y color).info = s.info := by
  unfold putPixel
  split <;> simp

@[simp] theorem putPixel_front (x y : Nat) : (s.putPixel x y color).front = s.front := by
  unfold putPixel
  split <;> simp

@[simp] theorem clear_info : (s.clear color).info = s.info := by simp [clear]

@[simp] theorem clear_front : (s.clear color).front = s.front := by simp [clear]

@[simp] theorem drawRect_info (x y width height : Nat) :
    (s.drawRect x y width height color).info = s.info := by
  obtain ⟨-, h⟩ | ⟨-, h⟩ := s.drawRect_cases color x y width height <;> simp [h]

@[simp] theorem drawRect_front (x y width height : Nat) :
    (s.drawRect x y width height color).front = s.front := by
  obtain ⟨-, h⟩ | ⟨-, h⟩ := s.drawRect_cases color x y width height <;> simp [h]

@[simp] theorem copyRect_info (srcX srcY dstX dstY width height : Nat) :
    (s.copyRect srcX srcY dstX dstY width height).info = s.info := by
  obtain ⟨-, h⟩ | ⟨-, h⟩ := s.copyRect_cases srcX srcY dstX dstY width height <;> simp [h]

@[simp] theorem copyRect_front (srcX srcY dstX dstY width height : Nat) :
    (s.copyRect srcX srcY dstX dstY width height).front = s.front := by
  obtain ⟨-, h⟩ | ⟨-, h⟩ := s.copyRect_cases srcX srcY dstX dstY width height <;> simp [h]

@[simp] theorem scrollUp_info (pixels : Nat) : (s.scrollUp pixels color).info = s.info := by
  unfold scrollUp
  split_ifs <;> simp

@[simp] theorem scrollUp_front (pixels : Nat) : (s.scrollUp pixels color).front = s.front := by
  unfold scrollUp
  split_ifs <;> simp

variable {s color} {x y : Nat}

/-- A pixel changes its own place only. -/
theorem pixel_putPixel (h : s.info.OnScreen x y) (px py : Nat) :
    (s.putPixel px py color).pixel x y =
      if x = px ∧ y = py then s.info.colorToU32 color else s.pixel x y := by
  unfold putPixel
  split
  · rename_i hout
    have hno : ¬(x = px ∧ y = py) := by
      rintro ⟨rfl, rfl⟩
      obtain ⟨hx, hy⟩ := h
      omega
    rw [if_neg hno]
  · rename_i hin
    have hiff : y * s.info.width + x = py * s.info.width + px ↔ y = py ∧ x = px :=
      cell_inj h.1 (by omega)
    rw [markDirty_pixel]
    simp only [pixel, Function.update_apply, hiff, and_comm]

/-- Every pixel of a cleared screen has the color. -/
theorem pixel_clear (h : s.info.OnScreen x y) :
    (s.clear color).pixel x y = s.info.colorToU32 color := by
  have hlt := row_lt h.1 h.2
  rw [Nat.mul_comm s.info.height] at hlt
  rw [clear, markDirty_pixel]
  simp only [pixel, writeRow]
  rw [if_pos (by omega)]

/-- A rectangle has its color inside and changes nothing outside. -/
theorem pixel_drawRect (h : s.info.OnScreen x y) (px py width height : Nat) :
    (s.drawRect px py width height color).pixel x y =
      if (px ≤ x ∧ x < px + width) ∧ py ≤ y ∧ y < py + height then s.info.colorToU32 color
      else s.pixel x y := by
  obtain ⟨hx, hy⟩ := h
  obtain ⟨hnone, heq⟩ | ⟨hcorner, heq⟩ := s.drawRect_cases color px py width height
  · rw [heq, if_neg (by omega)]
  rw [heq, markDirty_pixel]
  simp only [pixel]
  rw [rows_fill _ hx (by omega)]
  have hclip : ((py ≤ y ∧ y < py + (min (py + height) s.info.height - py)) ∧
      px ≤ x ∧ x < px + (min (px + width) s.info.width - px)) ↔
        (px ≤ x ∧ x < px + width) ∧ py ≤ y ∧ y < py + height := by omega
  simp only [hclip]

/-- Copying changes only pixels of its target rectangle. -/
theorem pixel_copyRect_of_not_mem (h : s.info.OnScreen x y) {srcX srcY dstX dstY width height : Nat}
    (hout : ¬((dstX ≤ x ∧ x < dstX + width) ∧ (dstY ≤ y ∧ y < dstY + height) ∧
      s.info.OnScreen (srcX + (x - dstX)) (srcY + (y - dstY)))) :
    (s.copyRect srcX srcY dstX dstY width height).pixel x y = s.pixel x y := by
  obtain ⟨hx, hy⟩ := h
  obtain ⟨-, heq⟩ | ⟨hcorner, heq⟩ := s.copyRect_cases srcX srcY dstX dstY width height
  · rw [heq]
  · rw [heq, markDirty_pixel]
    simp only [pixel]
    refine rows_frame (f := fun row back i => back ((srcY + row) * s.info.width + srcX + i))
      s.back hx (by omega) fun hin => hout ?_
    simp only [Info.OnScreen]
    omega

/-- Copying upward moves the old contents. -/
theorem pixel_copyRect_of_le (h : s.info.OnScreen x y) {srcX srcY dstX dstY width height : Nat}
    (hle : dstY ≤ srcY) (hx : dstX ≤ x ∧ x < dstX + width) (hy : dstY ≤ y ∧ y < dstY + height)
    (hsrc : s.info.OnScreen (srcX + (x - dstX)) (srcY + (y - dstY))) :
    (s.copyRect srcX srcY dstX dstY width height).pixel x y =
      s.pixel (srcX + (x - dstX)) (srcY + (y - dstY)) := by
  obtain ⟨hxw, hyh⟩ := h
  obtain ⟨hsx, hsy⟩ := hsrc
  obtain ⟨hnone, -⟩ | ⟨hcorner, heq⟩ := s.copyRect_cases srcX srcY dstX dstY width height
  · omega
  rw [heq, markDirty_pixel]
  simp only [pixel]
  rw [rows_copy s.back hxw hle (by omega) (by omega), if_pos (by omega)]
  congr 3
  omega

/-- Scrolling moves rows up and fills the rest. -/
theorem pixel_scrollUp (h : s.info.OnScreen x y) {pixels : Nat} (hpixels : pixels ≠ 0) :
    (s.scrollUp pixels color).pixel x y =
      if y + pixels < s.info.height then s.pixel x (y + pixels) else s.info.colorToU32 color := by
  obtain ⟨hx, hy⟩ := h
  unfold scrollUp
  rw [if_neg hpixels]
  by_cases hall : pixels ≥ s.info.height
  · rw [if_pos hall, pixel_clear ⟨hx, hy⟩, if_neg (by omega)]
  rw [if_neg hall, pixel_drawRect (by rw [copyRect_info]; exact ⟨hx, hy⟩), copyRect_info]
  by_cases hmoved : y + pixels < s.info.height
  · rw [if_neg (by omega), if_pos hmoved, pixel_copyRect_of_le ⟨hx, hy⟩ (Nat.zero_le _)
      (by omega) (by omega) ⟨by omega, by omega⟩, Nat.zero_add, Nat.sub_zero, Nat.sub_zero,
      Nat.add_comm pixels]
  · rw [if_pos (by omega), if_neg hmoved]

end Drawing

/-! ## Presenting -/

/-- Presenting changes neither the size nor the backbuffer. -/
@[simp] theorem present_info (s : Framebuffer) : s.present.info = s.info := by
  unfold present
  dsimp only
  split_ifs <;> rfl

@[simp] theorem present_back (s : Framebuffer) : s.present.back = s.back := by
  unfold present
  dsimp only
  split_ifs <;> rfl

@[simp] theorem present_pixel (s : Framebuffer) (x y : Nat) :
    s.present.pixel x y = s.pixel x y := by
  simp only [pixel, present_info, present_back]

/-- It leaves nothing to be presented. -/
@[simp] theorem present_dirty (s : Framebuffer) : s.present.dirty = false := by
  unfold present
  dsimp only
  split_ifs with hclean
  · simpa using hclean
  · rfl
  · rfl

end Framebuffer

end SillOS.Fb

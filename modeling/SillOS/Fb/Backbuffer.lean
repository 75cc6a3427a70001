import SillOS.Fb.CopyRect

/-!
# The whole backbuffer after drawing

Reading every pixel back determines the backbuffer once it is known that nothing
past the last pixel is written. Filling a rectangle is drawing its points one by
one, in any order, and scrolling twice is scrolling once by the sum.
-/

namespace SillOS.Fb

open Raster

/-- The linear indices that filling a rectangle writes, row by row. -/
def Info.filledIndices (info : Info) (x y width height : Nat) : List Nat :=
  if width = 0 ∨ height = 0 then []
  else if x ≥ info.width ∨ y ≥ info.height then []
  else
    let endX := min (saturatingAdd x width) info.width
    let endY := min (saturatingAdd y height) info.height
    if endX ≤ x ∨ endY ≤ y then []
    else (List.range' y (endY - y)).flatMap fun py => List.range' (py * info.width + x) (endX - x)

namespace Framebuffer

/-! ## The frame of the screen -/

/-- A run inside a row of the screen ends before the last pixel. -/
private theorem run_le {w h r a n : Nat} (hr : r < h) (ha : a + n ≤ w) :
    r * w + a + n ≤ h * w := by
  have hrow : (r + 1) * w ≤ h * w := Nat.mul_le_mul_right w hr
  rw [Nat.add_mul, Nat.one_mul] at hrow
  omega

section Frame

variable (s : Framebuffer) (color : Color) {i : Nat}

private theorem clear_beyond (hi : s.info.height * s.info.width ≤ i) :
    (s.clear color).back i = s.back i := by
  rw [clear, markDirty_back]
  dsimp only
  rw [writeRow, if_neg (by rw [Nat.mul_comm s.info.width]; omega)]

private theorem copyRect_beyond (hi : s.info.height * s.info.width ≤ i)
    (srcX srcY dstX dstY width height : Nat) :
    (s.copyRect srcX srcY dstX dstY width height).back i = s.back i := by
  obtain ⟨-, heq⟩ | ⟨hcorner, heq⟩ := s.copyRect_cases srcX srcY dstX dstY width height
  · rw [heq]
  · rw [heq, markDirty_back]
    refine forRange_invariant (P := fun back : Nat → UInt32 => back i = s.back i)
      (fun r back _ hr hback => ?_) rfl
    have hrun := run_le (w := s.info.width) (h := s.info.height) (r := dstY + r) (a := dstX)
      (n := min (min width (s.info.width - srcX)) (s.info.width - dstX)) (by omega) (by omega)
    rw [writeRow, if_neg (by omega), hback]

/-- Every index that filling a rectangle writes is a pixel of the screen. -/
theorem filledIndices_lt (info : Info) {x y width height : Nat}
    (hi : i ∈ info.filledIndices x y width height) : i < info.width * info.height := by
  unfold Info.filledIndices at hi
  dsimp only at hi
  split_ifs at hi with h1 h2 h3
  · exact absurd hi List.not_mem_nil
  · exact absurd hi List.not_mem_nil
  · exact absurd hi List.not_mem_nil
  · obtain ⟨r, hr, hi⟩ := List.mem_flatMap.mp hi
    rw [List.mem_range'_1] at hr hi
    have hrun := run_le (w := info.width) (h := info.height) (r := r) (a := x)
      (n := min (saturatingAdd x width) info.width - x) (by omega) (by omega)
    rw [Nat.mul_comm info.width]
    omega

/-- Writing a run of one value is writing its cells one after the other. -/
private theorem writeRow_eq_foldl (back : Nat → UInt32) (start n : Nat) (v : UInt32) :
    writeRow back start n (fun _ => v) =
      (List.range' start n).foldl (fun back i => Function.update back i v) back := by
  induction n with
  | zero =>
    funext j
    rw [writeRow, if_neg (by omega)]
    rfl
  | succ n ih =>
    rw [List.range'_1_concat, List.foldl_append, ← ih]
    funext j
    simp only [List.foldl_cons, List.foldl_nil, Function.update_apply, writeRow]
    split_ifs <;> first | rfl | omega

/-- Filling a rectangle writes the color at its indices, one after the other. -/
theorem drawRect_back (x y width height : Nat) :
    (s.drawRect x y width height color).back =
      (s.info.filledIndices x y width height).foldl
        (fun back i => Function.update back i (s.info.colorToU32 color)) s.back := by
  unfold drawRect Info.filledIndices
  dsimp only
  split_ifs with h1 h2 h3
  · rfl
  · rfl
  · rfl
  · rw [markDirty_back, List.foldl_flatMap]
    simp only [forRange, writeRow_eq_foldl]

/-- Updates elsewhere keep a cell. -/
private theorem foldl_update_of_not_mem {l : List Nat} (back : Nat → UInt32) (v : UInt32)
    (hi : i ∉ l) : l.foldl (fun back i => Function.update back i v) back i = back i := by
  induction l generalizing back with
  | nil => rfl
  | cons j l ih =>
    rw [List.mem_cons, not_or] at hi
    rw [List.foldl_cons, ih _ hi.2, Function.update_of_ne hi.1]

private theorem drawRect_beyond (hi : s.info.height * s.info.width ≤ i) (x y width height : Nat) :
    (s.drawRect x y width height color).back i = s.back i := by
  rw [drawRect_back]
  refine foldl_update_of_not_mem _ _ fun hmem => ?_
  have hlt := filledIndices_lt s.info hmem
  rw [Nat.mul_comm] at hlt
  omega

private theorem scrollUp_beyond (hi : s.info.height * s.info.width ≤ i) (pixels : Nat) :
    (s.scrollUp pixels color).back i = s.back i := by
  unfold scrollUp
  split_ifs
  · rfl
  · exact clear_beyond s color hi
  · rw [drawRect_beyond _ _ (by rwa [copyRect_info]), copyRect_beyond _ hi]

private theorem putPixel_beyond (hi : s.info.height * s.info.width ≤ i) (x y : Nat) :
    (s.putPixel x y color).back i = s.back i := by
  unfold putPixel
  split
  · rfl
  · have hlt := row_lt (x := x) (w := s.info.width) (y := y) (r := s.info.height) (by omega)
      (by omega)
    rw [markDirty_back]
    exact Function.update_of_ne (by omega) _ _

end Frame

/-- Equal pixels and an equal rest make equal backbuffers. -/
theorem back_ext {s t : Framebuffer} (hinfo : s.info = t.info)
    (hpixel : ∀ x y, t.info.OnScreen x y → s.pixel x y = t.pixel x y)
    (hrest : ∀ i, t.info.height * t.info.width ≤ i → s.back i = t.back i) : s.back = t.back := by
  funext i
  rcases Nat.lt_or_ge i (t.info.height * t.info.width) with hi | hi
  · have hx := Nat.mod_lt i t.info.width_pos
    have hy : i / t.info.width < t.info.height := Nat.div_lt_of_lt_mul (by rwa [Nat.mul_comm])
    have hp := hpixel _ _ ⟨hx, hy⟩
    simp only [pixel, hinfo, Nat.div_add_mod'] at hp
    exact hp
  · exact hrest i hi

/-! ## Scrolling -/

variable (s : Framebuffer) (color : Color)

/-- Scrolling by nothing changes nothing. -/
@[simp] theorem scrollUp_zero : s.scrollUp 0 color = s := by rw [scrollUp, if_pos rfl]

/-- The picture after scrolling, for every amount. -/
theorem pixel_scrolled {x y : Nat} (h : s.info.OnScreen x y) (pixels : Nat) :
    (s.scrollUp pixels color).pixel x y =
      if y + pixels < s.info.height then s.pixel x (y + pixels) else s.info.colorToU32 color := by
  by_cases hzero : pixels = 0
  · rw [hzero, scrollUp_zero, Nat.add_zero, if_pos h.2]
  · exact pixel_scrollUp h hzero

/-- Scrolling twice is scrolling by the sum. -/
theorem scrollUp_add (p q : Nat) :
    ((s.scrollUp p color).scrollUp q color).back = (s.scrollUp (p + q) color).back := by
  refine back_ext (by simp) (fun x y h => ?_) fun i hi => ?_
  · rw [scrollUp_info] at h
    rw [pixel_scrolled _ _ (by rwa [scrollUp_info]), pixel_scrolled _ _ h, scrollUp_info,
      Nat.add_comm p q, ← Nat.add_assoc]
    by_cases hq : y + q < s.info.height
    · rw [if_pos hq, pixel_scrolled _ _ ⟨h.1, hq⟩]
    · rw [if_neg hq, if_neg (by omega)]
  · rw [scrollUp_info] at hi
    rw [scrollUp_beyond _ _ (by rwa [scrollUp_info]), scrollUp_beyond _ _ hi,
      scrollUp_beyond _ _ hi]

/-- Scrolling shifts the picture exactly: rows move up by the amount, the color fills
what is exposed, nothing moves for zero, everything is filled from the screen height
on, and two scrolls add up. -/
theorem scrollUp_shifts :
    (∀ pixels x y, s.info.OnScreen x y → (s.scrollUp pixels color).pixel x y =
      if y + pixels < s.info.height then s.pixel x (y + pixels) else s.info.colorToU32 color) ∧
    s.scrollUp 0 color = s ∧
    (∀ pixels, s.info.height ≤ pixels → ∀ x y, s.info.OnScreen x y →
      (s.scrollUp pixels color).pixel x y = s.info.colorToU32 color) ∧
    ∀ p q, ((s.scrollUp p color).scrollUp q color).back = (s.scrollUp (p + q) color).back := by
  refine ⟨fun pixels x y h => s.pixel_scrolled color h pixels, s.scrollUp_zero color,
    fun pixels hall x y h => ?_, s.scrollUp_add color⟩
  rw [pixel_scrolled _ _ h, if_neg (by omega)]

/-! ## Filling -/

/-- Draw points one after the other. -/
def putPixels (s : Framebuffer) (points : List (Nat × Nat)) (color : Color) : Framebuffer :=
  points.foldl (fun s p => s.putPixel p.1 p.2 color) s

section Points

variable (points : List (Nat × Nat))

private theorem putPixels_cons (p : Nat × Nat) :
    s.putPixels (p :: points) color = (s.putPixel p.1 p.2 color).putPixels points color := rfl

/-- Setting pixels keeps the size of the screen. -/
@[simp] theorem putPixels_info : (s.putPixels points color).info = s.info := by
  induction points generalizing s with
  | nil => rfl
  | cons p points ih => rw [putPixels_cons, ih, putPixel_info]

private theorem putPixels_beyond {i : Nat} (hi : s.info.height * s.info.width ≤ i) :
    (s.putPixels points color).back i = s.back i := by
  induction points generalizing s with
  | nil => rfl
  | cons p points ih => rw [putPixels_cons, ih _ (by rwa [putPixel_info]), putPixel_beyond _ _ hi]

/-- The drawn points show the color, whatever the order. -/
theorem pixel_putPixels {x y : Nat} (h : s.info.OnScreen x y) :
    (s.putPixels points color).pixel x y =
      if (x, y) ∈ points then s.info.colorToU32 color else s.pixel x y := by
  induction points generalizing s with
  | nil => rfl
  | cons p points ih =>
    rw [putPixels_cons, ih _ (by rwa [putPixel_info]), putPixel_info, pixel_putPixel h]
    by_cases hlater : (x, y) ∈ points
    · rw [if_pos hlater, if_pos (List.mem_cons_of_mem p hlater)]
    · rw [if_neg hlater]
      simp only [List.mem_cons, hlater, or_false, Prod.ext_iff]

end Points

/-- Filling paints exactly the rectangle, clipped to the screen: the picture, the
written indices, and the equivalence with drawing each point in any order. -/
theorem drawRect_paints (x y width height : Nat) :
    (∀ px py, s.info.OnScreen px py → (s.drawRect x y width height color).pixel px py =
      if InRect x y width height px py then s.info.colorToU32 color else s.pixel px py) ∧
    ((s.drawRect x y width height color).back =
      (s.info.filledIndices x y width height).foldl
        (fun back i => Function.update back i (s.info.colorToU32 color)) s.back ∧
      ∀ i ∈ s.info.filledIndices x y width height, i < s.info.width * s.info.height) ∧
    ∀ points : List (Nat × Nat),
      (∀ px py, (px, py) ∈ points ↔ s.info.OnScreen px py ∧ InRect x y width height px py) →
      (s.drawRect x y width height color).back = (s.putPixels points color).back := by
  refine ⟨fun px py h => pixel_drawRect h x y width height,
    ⟨s.drawRect_back color x y width height, fun i => filledIndices_lt s.info⟩,
    fun points hpoints => back_ext (by simp) (fun px py h => ?_) fun i hi => ?_⟩
  · rw [putPixels_info] at h
    rw [pixel_putPixels _ _ _ h, pixel_drawRect h]
    simp only [hpoints, h, true_and, InRect]
  · rw [putPixels_info] at hi
    rw [putPixels_beyond _ _ _ hi, drawRect_beyond _ _ hi]

/-- The points of an off-centre rectangle on a small screen, bottom row first. -/
theorem drawRect_paints_stripes :
    (stripes.drawRect 0 1 7 9 Color.WHITE).back =
      (stripes.putPixels [(0, 2), (0, 1)] Color.WHITE).back := by
  refine (stripes.drawRect_paints Color.WHITE 0 1 7 9).2.2 [(0, 2), (0, 1)] fun px py => ?_
  simp only [List.mem_cons, Prod.mk.injEq, List.not_mem_nil, or_false, Info.OnScreen, InRect,
    stripes]
  omega

end Framebuffer

end SillOS.Fb

import SillOS.Core.Box
import SillOS.Fb.Pixels

/-!
# The dirty rectangle

Every drawing operation has its target pixels: it changes no other pixel of the
backbuffer, and it extends the dirty rectangle by them. So the dirty rectangle is
the bounding box of all pixels targeted since it was last reset.
-/

namespace SillOS.Fb

open Raster

/-! ## Targets -/

/-- The operations of the framebuffer after `init`. -/
inductive Op where
  | putPixel (x y : Nat) (color : Color)
  | drawRect (x y width height : Nat) (color : Color)
  | copyRect (srcX srcY dstX dstY width height : Nat)
  | scrollUp (pixels : Nat) (color : Color)
  | clear (color : Color)
  | present
  | presentFull

/-- The effect of an operation. -/
def Framebuffer.apply (s : Framebuffer) : Op → Framebuffer
  | .putPixel x y color => s.putPixel x y color
  | .drawRect x y width height color => s.drawRect x y width height color
  | .copyRect srcX srcY dstX dstY width height => s.copyRect srcX srcY dstX dstY width height
  | .scrollUp pixels color => s.scrollUp pixels color
  | .clear color => s.clear color
  | .present => s.present
  | .presentFull => s.presentFull

/-- The pixels of the screen. -/
def Info.screen (info : Info) : Box := ⟨0, 0, info.width, info.height⟩

/-- The pixels of a rectangle that are on the screen. -/
def Info.clip (info : Info) (x y width height : Nat) : Set (Nat × Nat) :=
  (Box.mk x y (x + width) (y + height)).points ∩ info.screen.points

private theorem Info.mem_clip {info : Info} {x y width height : Nat} {p : Nat × Nat} :
    p ∈ info.clip x y width height ↔
      ((x ≤ p.1 ∧ p.1 < x + width) ∧ y ≤ p.2 ∧ p.2 < y + height) ∧ info.OnScreen p.1 p.2 := by
  simp only [Info.clip, Info.screen, Info.OnScreen, Set.mem_inter_iff, Box.mem_points]
  omega

/-- Nothing is left of an empty rectangle, or of one that starts outside the screen. -/
theorem Info.clip_eq_empty (info : Info) {x y width height : Nat}
    (h : width = 0 ∨ height = 0 ∨ x ≥ info.width ∨ y ≥ info.height) :
    info.clip x y width height = ∅ := by
  refine Set.eq_empty_of_forall_notMem fun p hp => ?_
  rw [mem_clip, OnScreen] at hp
  omega

/-- The target pixels of an operation, clipped to the screen; the pixels of a copy
also need their source on the screen. -/
def Op.target (info : Info) : Op → Set (Nat × Nat)
  | .putPixel x y _ => info.clip x y 1 1
  | .drawRect x y width height _ => info.clip x y width height
  | .copyRect srcX srcY dstX dstY width height =>
    {p ∈ info.clip dstX dstY width height |
      info.OnScreen (srcX + (p.1 - dstX)) (srcY + (p.2 - dstY))}
  | .scrollUp pixels _ => {_p ∈ info.screen.points | pixels ≠ 0}
  | .clear _ => info.screen.points
  | .present => ∅
  | .presentFull => ∅

private theorem Op.mem_target_copyRect {info : Info} {srcX srcY dstX dstY width height : Nat}
    {p : Nat × Nat} :
    p ∈ (Op.copyRect srcX srcY dstX dstY width height).target info ↔
      p ∈ info.clip dstX dstY width height ∧
        info.OnScreen (srcX + (p.1 - dstX)) (srcY + (p.2 - dstY)) := Iff.rfl

/-- The pixels targeted since the last presentation, after one more operation. -/
def Op.pending (info : Info) (T : Set (Nat × Nat)) : Op → Set (Nat × Nat)
  | .present => ∅
  | .presentFull => ∅
  | op => T ∪ op.target info

/-- The pixels targeted since the last presentation. -/
def pendingTargets (info : Info) (ops : List Op) : Set (Nat × Nat) :=
  ops.foldl (Op.pending info) ∅

namespace Framebuffer

/-! ## The dirty rectangle -/

/-- The dirty rectangle. -/
def dirtyBox (s : Framebuffer) : Box := ⟨s.dirtyMinX, s.dirtyMinY, s.dirtyMaxX, s.dirtyMaxY⟩

/-- The dirty rectangle is the bounding box of the pixels. -/
structure Tracks (s : Framebuffer) (T : Set (Nat × Nat)) : Prop where
  /-- Only pixels of the screen are targeted. -/
  onScreen : T ⊆ s.info.screen.points
  /-- Without a dirty rectangle there is no such pixel. -/
  clean : s.dirty = false → T = ∅
  /-- The dirty rectangle bounds the pixels. -/
  bounds : s.dirty = true → s.dirtyBox.Proper ∧ s.dirtyBox.Bounds T

variable {s t : Framebuffer} {T U : Set (Nat × Nat)}

/-- Pixels of drawing operations that leave the dirty rectangle alone do not matter. -/
theorem Tracks.of_eq (h : s.Tracks T) (hinfo : t.info = s.info) (hdirty : t.dirty = s.dirty)
    (hbox : t.dirtyBox = s.dirtyBox) : t.Tracks T where
  onScreen := hinfo ▸ h.onScreen
  clean := hdirty ▸ h.clean
  bounds := hdirty ▸ hbox ▸ h.bounds

/-- A rectangle without a pixel on the screen adds nothing. -/
private theorem Tracks.skip (h : s.Tracks T) {x y width height : Nat}
    (hempty : width = 0 ∨ height = 0 ∨ x ≥ s.info.width ∨ y ≥ s.info.height) :
    s.Tracks (T ∪ s.info.clip x y width height) := by
  rw [s.info.clip_eq_empty hempty, Set.union_empty]
  exact h

/-- Marking a box inside the screen. -/
private theorem Tracks.mark (h : s.Tracks T) {b : Box} (hb : b.Proper)
    (hscreen : b.points ⊆ s.info.screen.points) (hinfo : t.info = s.info)
    (hdirty : t.dirty = true)
    (hbox : t.dirtyBox = if s.dirty = true then s.dirtyBox.join b else b) :
    t.Tracks (T ∪ b.points) where
  onScreen := by
    rw [hinfo]
    exact Set.union_subset h.onScreen hscreen
  clean hclean := by simp [hdirty] at hclean
  bounds _ := by
    rw [hbox]
    cases hs : s.dirty with
    | false =>
      rw [if_neg (by decide), h.clean hs, Set.empty_union]
      exact ⟨hb, b.bounds_points⟩
    | true =>
      obtain ⟨hproper, hbounds⟩ := h.bounds hs
      rw [if_pos rfl]
      exact ⟨hproper.join, hbounds.union b.bounds_points hproper hb⟩

/-- `markDirty` adds the clipped rectangle to the tracked pixels. -/
theorem Tracks.markDirty (h : s.Tracks T) (x y width height : Nat) :
    (s.markDirty x y width height).Tracks (T ∪ s.info.clip x y width height) := by
  unfold Framebuffer.markDirty
  simp only [(min_saturatingAdd s.info x width).1, (min_saturatingAdd s.info y height).2]
  by_cases hempty : width = 0 ∨ height = 0
  · rw [if_pos hempty]
    exact h.skip (by omega)
  rw [if_neg hempty]
  by_cases hout : x ≥ s.info.width ∨ y ≥ s.info.height
  · rw [if_pos hout]
    exact h.skip (by omega)
  rw [if_neg hout, if_neg (by omega)]
  have hclip : s.info.clip x y width height =
      (Box.mk x y (min (x + width) s.info.width) (min (y + height) s.info.height)).points := by
    ext p
    simp only [Info.clip, Info.screen, Set.mem_inter_iff, Box.mem_points]
    omega
  have hproper : (Box.mk x y (min (x + width) s.info.width)
      (min (y + height) s.info.height)).Proper := by
    simp only [Box.Proper]
    omega
  rw [hclip]
  cases hs : s.dirty with
  | false =>
    exact h.mark hproper (hclip ▸ Set.inter_subset_right) rfl rfl (by rw [hs]; rfl)
  | true =>
    exact h.mark hproper (hclip ▸ Set.inter_subset_right) rfl rfl (by rw [hs]; rfl)

/-! ## Drawing operations -/

/-- A change of the backbuffer that is confined to the pixels and marks them. -/
structure Draws (s t : Framebuffer) (U : Set (Nat × Nat)) : Prop where
  /-- Same framebuffer. -/
  info_eq : t.info = s.info
  /-- Drawing is not visible. -/
  front_eq : t.front = s.front
  /-- Other pixels keep their value. -/
  frame : ∀ x y, s.info.OnScreen x y → (x, y) ∉ U → t.pixel x y = s.pixel x y
  /-- The pixels are marked as dirty. -/
  tracks : ∀ T, s.Tracks T → t.Tracks (T ∪ U)

/-- Drawing nothing. -/
theorem Draws.of_empty (s : Framebuffer) {U : Set (Nat × Nat)} (h : U = ∅) : s.Draws s U where
  info_eq := rfl
  front_eq := rfl
  frame _ _ _ _ := rfl
  tracks T hT := by
    rw [h, Set.union_empty]
    exact hT

/-- Two drawing steps in a row. -/
theorem Draws.trans {u : Framebuffer} {V : Set (Nat × Nat)} (h : s.Draws t U) (h' : t.Draws u V) :
    s.Draws u (U ∪ V) where
  info_eq := h'.info_eq.trans h.info_eq
  front_eq := h'.front_eq.trans h.front_eq
  frame x y hxy hout := by
    rw [Set.mem_union, not_or] at hout
    exact (h'.frame x y (h.info_eq ▸ hxy) hout.2).trans (h.frame x y hxy hout.1)
  tracks T hT := by
    rw [← Set.union_assoc]
    exact h'.tracks _ (h.tracks T hT)

/-- Marking the backbuffer after pixel writes. -/
private theorem tracks_marked (h : s.Tracks T) (back : Nat → UInt32) (x y width height : Nat) :
    ({ s with back := back }.markDirty x y width height).Tracks
      (T ∪ s.info.clip x y width height) :=
  (h.of_eq (t := { s with back := back }) rfl rfl rfl).markDirty x y width height

/-- A pixel draws in its own place. -/
theorem draws_putPixel (s : Framebuffer) (x y : Nat) (color : Color) :
    s.Draws (s.putPixel x y color) (s.info.clip x y 1 1) where
  info_eq := s.putPixel_info color x y
  front_eq := s.putPixel_front color x y
  frame px py hp hout := by
    rw [pixel_putPixel hp, if_neg]
    rw [Info.mem_clip] at hout
    rintro ⟨rfl, rfl⟩
    exact hout ⟨by dsimp only; omega, hp⟩
  tracks T hT := by
    unfold putPixel
    by_cases hoff : x ≥ s.info.width ∨ y ≥ s.info.height
    · rw [if_pos hoff]
      exact hT.skip (by omega)
    · rw [if_neg hoff]
      exact tracks_marked hT _ x y 1 1

/-- Clearing draws on the whole screen. -/
theorem draws_clear (s : Framebuffer) (color : Color) :
    s.Draws (s.clear color) s.info.screen.points where
  info_eq := s.clear_info color
  front_eq := s.clear_front color
  frame px py hp hout := by
    refine absurd ?_ hout
    obtain ⟨hx, hy⟩ := hp
    simp only [Info.screen, Box.mem_points]
    omega
  tracks T hT := by
    have hall : s.info.clip 0 0 s.info.width s.info.height = s.info.screen.points := by
      ext p
      rw [Info.mem_clip]
      simp only [Info.screen, Info.OnScreen, Box.mem_points]
      omega
    rw [← hall]
    exact tracks_marked hT _ 0 0 s.info.width s.info.height

/-- A rectangle draws in what the screen leaves of it. -/
theorem draws_drawRect (s : Framebuffer) (x y width height : Nat) (color : Color) :
    s.Draws (s.drawRect x y width height color) (s.info.clip x y width height) where
  info_eq := s.drawRect_info color x y width height
  front_eq := s.drawRect_front color x y width height
  frame px py hp hout := by
    rw [pixel_drawRect hp, if_neg]
    rw [Info.mem_clip] at hout
    exact fun hin => hout ⟨hin, hp⟩
  tracks T hT := by
    obtain ⟨hnone, heq⟩ | ⟨-, heq⟩ := s.drawRect_cases color x y width height
    · rw [heq]
      exact hT.skip (by omega)
    have hclip : s.info.clip x y width height = s.info.clip x y
        (min (x + width) s.info.width - x) (min (y + height) s.info.height - y) := by
      ext p
      rw [Info.mem_clip, Info.mem_clip, Info.OnScreen]
      omega
    rw [heq, hclip]
    exact tracks_marked hT _ x y _ _

/-- Along one axis, a clipped copy reaches what is on the screen at source and target. -/
private theorem copied_iff {x d s n m : Nat} :
    ((d ≤ x ∧ x < d + n) ∧ s + (x - d) < m) ∧ x < m ↔
      (d ≤ x ∧ x < d + min (min n (m - s)) (m - d)) ∧ x < m := by
  omega

/-- A copy draws in its target. -/
theorem draws_copyRect (s : Framebuffer) (srcX srcY dstX dstY width height : Nat) :
    s.Draws (s.copyRect srcX srcY dstX dstY width height)
      ((Op.copyRect srcX srcY dstX dstY width height).target s.info) where
  info_eq := s.copyRect_info srcX srcY dstX dstY width height
  front_eq := s.copyRect_front srcX srcY dstX dstY width height
  frame px py hp hout := by
    refine pixel_copyRect_of_not_mem hp fun hin => hout ?_
    exact ⟨Info.mem_clip.mpr ⟨⟨hin.1, hin.2.1⟩, hp⟩, hin.2.2⟩
  tracks T hT := by
    obtain ⟨hnone, heq⟩ | ⟨-, heq⟩ := s.copyRect_cases srcX srcY dstX dstY width height
    · have hempty : (Op.copyRect srcX srcY dstX dstY width height).target s.info = ∅ := by
        refine Set.eq_empty_of_forall_notMem fun p hp => ?_
        obtain ⟨hp, hsrc⟩ := hp
        simp only [Info.mem_clip, Info.OnScreen] at hp hsrc
        omega
      rw [heq, hempty, Set.union_empty]
      exact hT
    have hclip : (Op.copyRect srcX srcY dstX dstY width height).target s.info =
        s.info.clip dstX dstY (min (min width (s.info.width - srcX)) (s.info.width - dstX))
          (min (min height (s.info.height - srcY)) (s.info.height - dstY)) := by
      ext p
      have hcolumns := copied_iff (x := p.1) (d := dstX) (s := srcX) (n := width)
        (m := s.info.width)
      have hrows := copied_iff (x := p.2) (d := dstY) (s := srcY) (n := height)
        (m := s.info.height)
      simp only [Op.mem_target_copyRect, Info.mem_clip, Info.OnScreen]
      constructor
      · rintro ⟨⟨⟨hx, hy⟩, hpx, hpy⟩, hsx, hsy⟩
        obtain ⟨hx', -⟩ := hcolumns.mp ⟨⟨hx, hsx⟩, hpx⟩
        obtain ⟨hy', -⟩ := hrows.mp ⟨⟨hy, hsy⟩, hpy⟩
        exact ⟨⟨hx', hy'⟩, hpx, hpy⟩
      · rintro ⟨⟨hx, hy⟩, hpx, hpy⟩
        obtain ⟨⟨hx', hsx⟩, -⟩ := hcolumns.mpr ⟨hx, hpx⟩
        obtain ⟨⟨hy', hsy⟩, -⟩ := hrows.mpr ⟨hy, hpy⟩
        exact ⟨⟨⟨hx', hy'⟩, hpx, hpy⟩, hsx, hsy⟩
    rw [heq, hclip]
    exact tracks_marked hT _ dstX dstY _ _

/-- Scrolling draws in its target. -/
theorem draws_scrollUp (s : Framebuffer) (pixels : Nat) (color : Color) :
    s.Draws (s.scrollUp pixels color) ((Op.scrollUp pixels color).target s.info) := by
  unfold scrollUp
  by_cases hzero : pixels = 0
  · rw [if_pos hzero]
    exact Draws.of_empty s (Set.eq_empty_of_forall_notMem fun p hp => hp.2 hzero)
  have hall : (Op.scrollUp pixels color).target s.info = s.info.screen.points := by
    ext p
    exact and_iff_left hzero
  rw [if_neg hzero, hall]
  by_cases hbig : pixels ≥ s.info.height
  · rw [if_pos hbig]
    exact s.draws_clear color
  rw [if_neg hbig]
  have hdraw := (s.draws_copyRect 0 pixels 0 0 s.info.width (s.info.height - pixels)).trans
    (draws_drawRect _ 0 (s.info.height - pixels) s.info.width pixels color)
  -- The rows moved and the rows filled make up the screen.
  have hunion : (Op.copyRect 0 pixels 0 0 s.info.width (s.info.height - pixels)).target s.info ∪
      s.info.clip 0 (s.info.height - pixels) s.info.width pixels = s.info.screen.points := by
    ext p
    simp only [Set.mem_union, Op.mem_target_copyRect, Info.mem_clip, Info.screen, Info.OnScreen,
      Box.mem_points]
    omega
  rw [copyRect_info, hunion] at hdraw
  exact hdraw

end Framebuffer

end SillOS.Fb

import SillOS.Fb.Pixels

/-!
# Copying as a snapshot

A copy is a snapshot copy when every pixel of its clipped target rectangle shows
what its source pixel showed before the call. The rows are copied from the top,
each one safely against overlap within the row; a copy downward therefore reads
rows that it has already written when its rectangles share rows and columns.
-/

namespace SillOS.Fb

open Raster

namespace Info

/-- The columns of a copy, clipped at source and target. -/
def copyWidth (info : Info) (srcX dstX width : Nat) : Nat :=
  min (min width (info.width - srcX)) (info.width - dstX)

/-- The rows of a copy, clipped at source and target. -/
def copyHeight (info : Info) (srcY dstY height : Nat) : Nat :=
  min (min height (info.height - srcY)) (info.height - dstY)

end Info

/-- A point of the rectangle with the given corner and size. -/
def InRect (x y width height px py : Nat) : Prop :=
  (x ≤ px ∧ px < x + width) ∧ (y ≤ py ∧ py < y + height)

instance (x y width height px py : Nat) : Decidable (InRect x y width height px py) :=
  inferInstanceAs (Decidable (_ ∧ _))

namespace Framebuffer

/-- From `s` to `t` the clipped target rectangle has received what the clipped source
rectangle showed in `s`, and no other pixel has changed. -/
def SnapshotCopy (s t : Framebuffer) (srcX srcY dstX dstY width height : Nat) : Prop :=
  let w := s.info.copyWidth srcX dstX width
  let h := s.info.copyHeight srcY dstY height
  (∀ i < w, ∀ j < h, t.pixel (dstX + i) (dstY + j) = s.pixel (srcX + i) (srcY + j)) ∧
    ∀ x y, s.info.OnScreen x y → ¬InRect dstX dstY w h x y → t.pixel x y = s.pixel x y

variable (s : Framebuffer) (srcX srcY dstX dstY width height : Nat)

/-- The loop of a copy whose corners are on the screen; the other copies do nothing. -/
theorem copyRect_pixel (x y : Nat) :
    (s.copyRect srcX srcY dstX dstY width height).pixel x y =
      forRange 0 (s.info.copyHeight srcY dstY height)
        (fun row back => writeRow back ((dstY + row) * s.info.width + dstX)
          (s.info.copyWidth srcX dstX width)
          fun i => back ((srcY + row) * s.info.width + srcX + i)) s.back
        (y * s.info.width + x) := by
  -- An empty clipped rectangle writes nothing, whatever the loop would read.
  have hempty : ∀ w h, w = 0 ∨ h = 0 → forRange 0 h
      (fun row back => writeRow back ((dstY + row) * s.info.width + dstX) w
        fun i => back ((srcY + row) * s.info.width + srcX + i)) s.back = s.back := by
    rintro w h (rfl | rfl)
    · refine forRange_invariant (P := fun back => back = s.back) (fun r back _ _ hback => ?_) rfl
      funext i
      rw [writeRow, if_neg (by omega), hback]
    · rfl
  obtain ⟨hnone, heq⟩ | ⟨-, heq⟩ := s.copyRect_cases srcX srcY dstX dstY width height
  · have hzero : s.info.copyWidth srcX dstX width = 0 ∨ s.info.copyHeight srcY dstY height = 0 := by
      unfold Info.copyWidth Info.copyHeight
      omega
    rw [heq, hempty _ _ hzero, pixel]
  · rw [heq, markDirty_pixel, pixel]
    rfl

/-- Outside the clipped target rectangle nothing changes. -/
theorem copyRect_outside {x y : Nat} (h : s.info.OnScreen x y)
    (hout : ¬InRect dstX dstY (s.info.copyWidth srcX dstX width)
      (s.info.copyHeight srcY dstY height) x y) :
    (s.copyRect srcX srcY dstX dstY width height).pixel x y = s.pixel x y := by
  refine pixel_copyRect_of_not_mem h fun hin => hout ?_
  obtain ⟨hx, hy, hsx, hsy⟩ := hin
  obtain ⟨hxw, hyh⟩ := h
  unfold InRect Info.copyWidth Info.copyHeight
  omega

/-- A copy is a snapshot copy exactly if it does not go downward, or every pixel in
both of its clipped rectangles already shows what is copied onto it. -/
theorem copyRect_snapshot_iff :
    s.SnapshotCopy (s.copyRect srcX srcY dstX dstY width height) srcX srcY dstX dstY width height ↔
      dstY ≤ srcY ∨ ∀ x y,
        InRect srcX srcY (s.info.copyWidth srcX dstX width)
          (s.info.copyHeight srcY dstY height) x y →
        InRect dstX dstY (s.info.copyWidth srcX dstX width)
          (s.info.copyHeight srcY dstY height) x y →
        s.pixel x y = s.pixel (srcX + (x - dstX)) (srcY + (y - dstY)) := by
  have hout := fun x y => s.copyRect_outside srcX srcY dstX dstY width height (x := x) (y := y)
  have hfit : s.info.copyWidth srcX dstX width ≠ 0 →
      dstX + s.info.copyWidth srcX dstX width ≤ s.info.width ∧
        srcX + s.info.copyWidth srcX dstX width ≤ s.info.width := by
    unfold Info.copyWidth
    omega
  have hloop := s.copyRect_pixel srcX srcY dstX dstY width height
  unfold SnapshotCopy
  dsimp only
  rw [and_iff_left hout]
  generalize s.info.copyWidth srcX dstX width = w at *
  generalize s.info.copyHeight srcY dstY height = h at *
  by_cases hw : w = 0
  · subst hw
    refine iff_of_true (fun i hi => absurd hi (Nat.not_lt_zero i)) (Or.inr fun x y hx => ?_)
    exact absurd hx.1 (by omega)
  obtain ⟨hdst, hsrc⟩ := hfit hw
  simp only [hloop]
  have hrows := rows_copy_iff s.back (p := dstY) (q := srcY) (h := h) hdst hsrc
  constructor
  · intro hcopy
    refine (hrows.mp fun r hr c hc => hcopy c hc r hr).imp_right fun hsame x y hxs hxd => ?_
    obtain ⟨⟨hx1, hx2⟩, hy1, hy2⟩ := hxs
    obtain ⟨⟨hx3, hx4⟩, hy3, hy4⟩ := hxd
    have h := hsame (y - dstY) (by omega) (x - dstX) (by omega)
    rw [Nat.add_sub_cancel' hx3, Nat.add_sub_cancel' hy3] at h
    exact h hy1 hy2 hx1 hx2
  · intro hcond i hi j hj
    refine hrows.mpr (hcond.imp_right fun hsame r hr c hc hqr hrq hbc hcb => ?_) j hj i hi
    have h := hsame (dstX + c) (dstY + r) ⟨⟨hbc, hcb⟩, hqr, hrq⟩ ⟨by omega, by omega⟩
    rw [Nat.add_sub_cancel_left, Nat.add_sub_cancel_left] at h
    exact h

/-- One column of three different pixels. -/
def stripes : Framebuffer where
  info := {
    width := 1
    height := 3
    frontPitch := 4
    redShift := 16
    greenShift := 8
    blueShift := 0
    width_pos := by decide
    width_le := by decide
    height_pos := by decide
    height_le := by decide }
  back := fun i => UInt32.ofNat (i + 1)
  front := fun _ => 0
  dirty := false
  dirtyMinX := 0
  dirtyMinY := 0
  dirtyMaxX := 0
  dirtyMaxY := 0

/-- Copying the upper two pixels one row down shows the first of them twice. -/
theorem copyRect_smears : ¬stripes.SnapshotCopy (stripes.copyRect 0 0 0 1 1 2) 0 0 0 1 1 2 := by
  intro h
  exact absurd (h.1 0 (by decide) 1 (by decide)) (by decide)

end Framebuffer

end SillOS.Fb

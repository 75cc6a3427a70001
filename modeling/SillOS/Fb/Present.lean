import SillOS.Fb.Dirty

/-!
# Incremental presentation

The front buffer agrees with the backbuffer outside of the dirty rectangle after
any sequence of operations, so copying the dirty rectangle alone has the effect of
copying the whole screen. Bytes of the front buffer that belong to no visible pixel
are never written.
-/

namespace SillOS.Fb

open ByteMemory Raster

/-- The bytes of the front buffer that belong to a pixel of the screen. -/
def Info.visible (info : Info) : Set Nat :=
  {a | ∃ x y, info.OnScreen x y ∧
    y * info.frontPitch + x * bytesPerPixel ≤ a ∧
    a < y * info.frontPitch + x * bytesPerPixel + bytesPerPixel}

namespace Framebuffer

/-- The user sees the backbuffer's pixel. -/
def Agrees (s : Framebuffer) (x y : Nat) : Prop :=
  loadLE s.front (y * s.info.frontPitch + x * bytesPerPixel) bytesPerPixel = (s.pixel x y).toNat

/-- The front buffer is up to date outside of the dirty rectangle. -/
def Synced (s : Framebuffer) : Prop :=
  ∀ x y, s.info.OnScreen x y → (s.dirty = true → (x, y) ∉ s.dirtyBox.points) → s.Agrees x y

variable {s : Framebuffer} {T : Set (Nat × Nat)}

/-- The bytes of a backbuffer pixel are its little-endian digits. -/
theorem backBytes_pixel (s : Framebuffer) (x y i : Nat) (hi : i < bytesPerPixel) :
    s.backBytes (y * s.info.width * bytesPerPixel + x * bytesPerPixel + i) =
      UInt8.ofNat ((s.pixel x y).toNat / 256 ^ i) := by
  have hindex : y * s.info.width * bytesPerPixel + x * bytesPerPixel + i =
      i + bytesPerPixel * (y * s.info.width + x) := by ring
  have hdiv : (i + bytesPerPixel * (y * s.info.width + x)) / bytesPerPixel =
      y * s.info.width + x := by
    rw [Nat.add_mul_div_left _ _ (by decide), Nat.div_eq_of_lt hi, Nat.zero_add]
  have hmod : (i + bytesPerPixel * (y * s.info.width + x)) % bytesPerPixel = i := by
    rw [Nat.add_mul_mod_self_left, Nat.mod_eq_of_lt hi]
  rw [backBytes, hindex, hdiv, hmod, pixel]

/-- The byte of a visible pixel in the front buffer after presenting a dirty
rectangle inside the screen. -/
theorem present_front_pixel (hpitch : bytesPerPixel * s.info.width ≤ s.info.frontPitch)
    (hdirty : s.dirty = true) (hproper : s.dirtyBox.Proper)
    (hscreen : s.dirtyBox.points ⊆ s.info.screen.points) {x y i : Nat}
    (h : s.info.OnScreen x y) (hi : i < bytesPerPixel) :
    s.present.front (y * s.info.frontPitch + x * bytesPerPixel + i) =
      if (x, y) ∈ s.dirtyBox.points then UInt8.ofNat ((s.pixel x y).toNat / 256 ^ i)
      else s.front (y * s.info.frontPitch + x * bytesPerPixel + i) := by
  have hsides := hproper.subset_iff.mp hscreen
  have hbyte := backBytes_pixel s x y i hi
  obtain ⟨hminX, hminY⟩ := hproper
  obtain ⟨hx, hy⟩ := h
  simp only [dirtyBox, Info.screen] at hsides hminX hminY
  simp only [bytesPerPixel] at hpitch hi hbyte ⊢
  unfold present
  dsimp only [bytesPerPixel]
  rw [hdirty, Bool.not_true, if_neg Bool.false_ne_true, if_neg (by omega)]
  dsimp only
  rw [Nat.add_assoc (y * s.info.frontPitch),
    rows_fill (w := s.info.frontPitch) _ (by omega) (by omega)]
  have hmem : ((s.dirtyMinY ≤ y ∧ y < s.dirtyMinY + (s.dirtyMaxY - s.dirtyMinY)) ∧
      s.dirtyMinX * 4 ≤ x * 4 + i ∧
        x * 4 + i < s.dirtyMinX * 4 + (s.dirtyMaxX - s.dirtyMinX) * 4) ↔
      (x, y) ∈ s.dirtyBox.points := by
    simp only [dirtyBox, Box.mem_points]
    omega
  by_cases hin : (x, y) ∈ s.dirtyBox.points
  · rw [if_pos (hmem.mpr hin), if_pos hin, ← hbyte]
    simp only [dirtyBox, Box.mem_points] at hin
    have hoff : y * s.info.width * 4 + s.dirtyMinX * 4 + (x * 4 + i - s.dirtyMinX * 4) =
        y * s.info.width * 4 + x * 4 + i := by omega
    rw [hoff]
    rfl
  · rw [if_neg (hmem.not.mpr hin), if_neg hin]

/-- The part of the front buffer that belongs to no visible pixel is not written. -/
theorem present_front_padding (hproper : s.dirtyBox.Proper)
    (hscreen : s.dirtyBox.points ⊆ s.info.screen.points) {a : Nat} (ha : a ∉ s.info.visible) :
    s.present.front a = s.front a := by
  have hsides := hproper.subset_iff.mp hscreen
  simp only [dirtyBox, Info.screen] at hsides
  unfold present
  dsimp only
  split_ifs
  · rfl
  · rfl
  · refine forRange_invariant (P := fun front : ByteMemory => front a = s.front a) ?_ rfl
    intro y front hlo hhi hfront
    rw [writeRow, if_neg, hfront]
    rintro ⟨hstart, hend⟩
    -- The byte would belong to a pixel of the dirty rectangle.
    refine ha ⟨(a - y * s.info.frontPitch) / bytesPerPixel, y, ⟨?_, by omega⟩, ?_, ?_⟩
    · simp only [bytesPerPixel] at *
      omega
    · simp only [bytesPerPixel] at *
      omega
    · simp only [bytesPerPixel] at *
      omega

/-! ## Runs -/

/-- What holds between operations: `T` are the pixels targeted since the last
presentation and `front` is the front buffer's initial contents. -/
structure Pending (info : Info) (front : ByteMemory) (s : Framebuffer) (T : Set (Nat × Nat)) :
    Prop where
  info_eq : s.info = info
  tracks : s.Tracks T
  synced : s.Synced
  padding : ∀ a, a ∉ info.visible → s.front a = front a

/-- Drawing calls leave work for the next presentation. -/
theorem Draws.pending {info : Info} {front : ByteMemory} {t : Framebuffer} {U : Set (Nat × Nat)}
    (h : s.Draws t U) (hs : s.Pending info front T) : t.Pending info front (T ∪ U) where
  info_eq := h.info_eq.trans hs.info_eq
  tracks := h.tracks T hs.tracks
  padding a ha := by
    rw [h.front_eq]
    exact hs.padding a ha
  synced x y hxy hout := by
    have htracks := h.tracks T hs.tracks
    have hnot : (x, y) ∉ T ∪ U := by
      cases hdirty : t.dirty with
      | false => simp [htracks.clean hdirty]
      | true => exact fun hmem => hout hdirty ((htracks.bounds hdirty).2.subset hmem)
    rw [Set.mem_union, not_or] at hnot
    rw [h.info_eq] at hxy
    have hagrees : s.Agrees x y := by
      apply hs.synced x y hxy
      intro hdirty hmem
      -- The old dirty rectangle is part of the new one.
      obtain ⟨hproper, hbounds⟩ := hs.tracks.bounds hdirty
      cases hdirty' : t.dirty with
      | false =>
        obtain ⟨p, hp⟩ := hbounds.nonempty hproper
        have hno : p ∈ (∅ : Set (Nat × Nat)) := htracks.clean hdirty' ▸ Or.inl hp
        exact hno
      | true =>
        have hsub := hbounds.least _
          (Set.subset_union_left.trans (htracks.bounds hdirty').2.subset)
        exact hout hdirty' (hsub hmem)
    rw [Agrees, h.info_eq, h.front_eq, h.frame x y hxy hnot.2]
    exact hagrees

/-- Presenting brings every pixel of the screen up to date. -/
theorem Pending.present {info : Info} {front : ByteMemory} (hs : s.Pending info front T)
    (hpitch : bytesPerPixel * info.width ≤ info.frontPitch) : s.present.Pending info front ∅ := by
  obtain rfl := hs.info_eq
  cases hdirty : s.dirty with
  | false =>
    have hsame : s.present = s := by simp [Framebuffer.present, hdirty]
    have hempty := hs.tracks.clean hdirty
    subst hempty
    rw [hsame]
    exact hs
  | true =>
    obtain ⟨hproper, hbounds⟩ := hs.tracks.bounds hdirty
    have hscreen := hbounds.least _ hs.tracks.onScreen
    constructor
    · exact s.present_info
    · exact ⟨Set.empty_subset _, fun _ => rfl, fun h => by simp at h⟩
    · intro x y hxy _
      rw [present_info] at hxy
      rw [Agrees, present_pixel, present_info]
      by_cases hin : (x, y) ∈ s.dirtyBox.points
      · rw [loadLE_of_digits fun i hi => by
          rw [present_front_pixel hpitch hdirty hproper hscreen hxy hi, if_pos hin]]
        exact Nat.mod_eq_of_lt (s.pixel x y).toNat_lt
      · rw [← hs.synced x y hxy fun _ => hin]
        refine loadLE_congr fun a hlo hhi => ?_
        obtain ⟨i, rfl⟩ := Nat.exists_eq_add_of_le hlo
        rw [present_front_pixel hpitch hdirty hproper hscreen hxy (by omega), if_neg hin]
    · intro a ha
      rw [present_front_padding hproper hscreen ha]
      exact hs.padding a ha

/-- After `init` there is nothing to present. -/
theorem pending_init (info : Info) (hpitch : bytesPerPixel * info.width ≤ info.frontPitch)
    (back : Nat → UInt32) (front : ByteMemory) :
    (init info back front).Pending info front ∅ := by
  refine Pending.present (T := ∅ ∪ info.screen.points) ?_ hpitch
  have hdraw := draws_clear (Framebuffer.mk info back front false 0 0 0 0) Color.BLACK
  have htracks := hdraw.tracks ∅ ⟨Set.empty_subset _, fun _ => rfl, nofun⟩
  refine ⟨hdraw.info_eq, htracks, ?_, fun a _ => congrFun hdraw.front_eq a⟩
  -- The whole screen is dirty, so nothing has to agree yet.
  intro x y hxy hout
  have hmem : (x, y) ∈ ∅ ∪ info.screen.points := by
    rw [hdraw.info_eq] at hxy
    exact Or.inr ⟨⟨Nat.zero_le _, hxy.1⟩, Nat.zero_le _, hxy.2⟩
  cases hdirty : (clear (Framebuffer.mk info back front false 0 0 0 0) Color.BLACK).dirty with
  | false =>
    rw [htracks.clean hdirty] at hmem
    exact hmem.elim
  | true => exact absurd ((htracks.bounds hdirty).2.subset hmem) (hout hdirty)

/-- Marking draws nothing. -/
theorem draws_markDirty (s : Framebuffer) (x y width height : Nat) :
    s.Draws (s.markDirty x y width height) (s.info.clip x y width height) where
  info_eq := s.markDirty_info x y width height
  front_eq := s.markDirty_front x y width height
  frame px py _ _ := s.markDirty_pixel x y width height px py
  tracks _ hT := hT.markDirty x y width height

/-- One operation. -/
theorem Pending.apply {info : Info} {front : ByteMemory} (hs : s.Pending info front T)
    (hpitch : bytesPerPixel * info.width ≤ info.frontPitch) (op : Op) :
    (s.apply op).Pending info front (op.pending info T) := by
  obtain rfl := hs.info_eq
  cases op with
  | putPixel x y color => exact (s.draws_putPixel x y color).pending hs
  | drawRect x y width height color => exact (s.draws_drawRect x y width height color).pending hs
  | copyRect srcX srcY dstX dstY width height =>
    exact (s.draws_copyRect srcX srcY dstX dstY width height).pending hs
  | scrollUp pixels color => exact (s.draws_scrollUp pixels color).pending hs
  | clear color => exact (s.draws_clear color).pending hs
  | present => exact hs.present hpitch
  | presentFull =>
    exact ((s.draws_markDirty 0 0 s.info.width s.info.height).pending hs).present hpitch

/-- A run from `init`. -/
theorem pending_run (info : Info) (hpitch : bytesPerPixel * info.width ≤ info.frontPitch)
    (back : Nat → UInt32) (front : ByteMemory) (ops : List Op) :
    (ops.foldl apply (init info back front)).Pending info front (pendingTargets info ops) :=
  List.foldl_rel (r := fun (s : Framebuffer) T => s.Pending info front T)
    (pending_init info hpitch back front)
    fun op _ _ _ hs => hs.apply hpitch op

/-- After any operations, the buffers agree outside of the dirty rectangle, the dirty
rectangle is the smallest one around the pixels targeted since the last presentation,
and `present` brings the whole screen up to date without touching the padding. -/
theorem present_incremental (info : Info)
    (hpitch : bytesPerPixel * info.width ≤ info.frontPitch) (back : Nat → UInt32)
    (front : ByteMemory) (ops : List Op) :
    let s := ops.foldl apply (init info back front)
    let T := pendingTargets info ops
    (∀ x y, info.OnScreen x y → (s.dirty = true → (x, y) ∉ s.dirtyBox.points) → s.Agrees x y) ∧
      (s.dirty = true ↔ T.Nonempty) ∧
      (s.dirty = true → s.dirtyBox.Bounds T) ∧
      (∀ x y, info.OnScreen x y → s.present.Agrees x y ∧ s.present.pixel x y = s.pixel x y) ∧
      ∀ a, a ∉ info.visible → s.front a = front a ∧ s.present.front a = front a := by
  intro s T
  have hs : s.Pending info front T := pending_run info hpitch back front ops
  have hpresent := hs.present hpitch
  refine ⟨?_, ⟨?_, ?_⟩, ?_, ?_, ?_⟩
  · intro x y hxy
    exact hs.synced x y (hs.info_eq ▸ hxy)
  · intro hdirty
    obtain ⟨hproper, hbounds⟩ := hs.tracks.bounds hdirty
    exact hbounds.nonempty hproper
  · intro hne
    by_contra hdirty
    rw [hs.tracks.clean (by simpa using hdirty)] at hne
    exact Set.not_nonempty_empty hne
  · intro hdirty
    exact (hs.tracks.bounds hdirty).2
  · intro x y hxy
    refine ⟨hpresent.synced x y (hpresent.info_eq ▸ hxy) ?_, s.present_pixel x y⟩
    simp
  · intro a ha
    exact ⟨hs.padding a ha, hpresent.padding a ha⟩

/-- Two by two pixels, with four bytes of padding in each row of the front buffer. -/
def paddedInfo : Info where
  width := 2
  height := 2
  frontPitch := 12
  redShift := 16
  greenShift := 8
  blueShift := 0
  width_pos := by decide
  width_le := by decide
  height_pos := by decide
  height_le := by decide

/-- A clipped rectangle and a pixel, on a screen whose rows have bytes behind them. -/
theorem present_incremental_padded :
    let s := [Op.drawRect 1 0 (2 ^ 64 - 1) 1 Color.WHITE, Op.putPixel 0 1 Color.WHITE].foldl apply
      (init paddedInfo (fun _ => 0) fun _ => 7)
    bytesPerPixel * paddedInfo.width ≤ paddedInfo.frontPitch ∧
      s.dirtyBox.Bounds (pendingTargets paddedInfo
        [Op.drawRect 1 0 (2 ^ 64 - 1) 1 Color.WHITE, Op.putPixel 0 1 Color.WHITE]) ∧
      s.present.Agrees 1 0 ∧ s.present.front 8 = 7 := by
  have hpitch : bytesPerPixel * paddedInfo.width ≤ paddedInfo.frontPitch := by decide
  obtain ⟨-, hdirty, hbounds, hpresent, hpadding⟩ := present_incremental paddedInfo hpitch
    (fun _ => 0) (fun _ => 7)
    [Op.drawRect 1 0 (2 ^ 64 - 1) 1 Color.WHITE, Op.putPixel 0 1 Color.WHITE]
  refine ⟨hpitch, hbounds (hdirty.mpr ⟨(0, 1), ?_⟩), (hpresent 1 0 ⟨by decide, by decide⟩).1,
    (hpadding 8 ?_).2⟩
  · exact Or.inr ⟨by decide, by decide⟩
  · rintro ⟨x, y, ⟨hx, hy⟩, hlo, hhi⟩
    simp only [paddedInfo, bytesPerPixel] at hx hy hlo hhi
    omega

end Framebuffer

end SillOS.Fb

import SillOS.Fb.Pixels

/-!
# Overlays

A composite drawing routine lays a partial picture over the backbuffer. Overlays
compose, and a loop whose iterations paint disjoint pixels lays all their pictures
over the backbuffer at once.
-/

namespace SillOS.Fb

open Raster

/-- The drawing routine lays the picture over the backbuffer; `none` is transparent. -/
structure Overlays (info : Info) (f : Framebuffer → Framebuffer)
    (picture : Nat → Nat → Option UInt32) : Prop where
  info_eq : ∀ s, s.info = info → (f s).info = info
  pixel_eq : ∀ s, s.info = info → ∀ x y, info.OnScreen x y →
    (f s).pixel x y = (picture x y).getD (s.pixel x y)

namespace Overlays

variable {info : Info} {f g : Framebuffer → Framebuffer} {p q : Nat → Nat → Option UInt32}

/-- Only the picture on the screen matters. -/
theorem congr (h : Overlays info f p) (hpq : ∀ x y, info.OnScreen x y → p x y = q x y) :
    Overlays info f q where
  info_eq := h.info_eq
  pixel_eq s hs x y hxy := by
    rw [← hpq x y hxy]
    exact h.pixel_eq s hs x y hxy

/-- Drawing nothing. -/
theorem transparent (info : Info) : Overlays info (fun s => s) fun _ _ => none where
  info_eq _ hs := hs
  pixel_eq _ _ _ _ _ := rfl

/-- A pixel overlays its own place. -/
theorem putPixel (info : Info) (px py : Nat) (color : Color) :
    Overlays info (fun s => s.putPixel px py color)
      fun x y => if x = px ∧ y = py then some (info.colorToU32 color) else none where
  info_eq s hs := by simpa using hs
  pixel_eq s hs x y hxy := by
    subst hs
    rw [Framebuffer.pixel_putPixel hxy]
    split <;> rfl

/-- A rectangle overlays its area. -/
theorem drawRect (info : Info) (px py width height : Nat) (color : Color) :
    Overlays info (fun s => s.drawRect px py width height color)
      fun x y => if (px ≤ x ∧ x < px + width) ∧ py ≤ y ∧ y < py + height then
        some (info.colorToU32 color) else none where
  info_eq s hs := by simpa using hs
  pixel_eq s hs x y hxy := by
    subst hs
    rw [Framebuffer.pixel_drawRect hxy]
    split <;> rfl

/-- The later picture is on top. -/
theorem comp (hf : Overlays info f p) (hg : Overlays info g q) :
    Overlays info (fun s => g (f s)) fun x y => (q x y).or (p x y) where
  info_eq s hs := hg.info_eq _ (hf.info_eq s hs)
  pixel_eq s hs x y hxy := by
    rw [hg.pixel_eq _ (hf.info_eq s hs) x y hxy, hf.pixel_eq s hs x y hxy]
    cases q x y with
    | none => rfl
    | some _ => rfl

/-- A picture drawn under a condition. -/
theorem ite (b : Prop) [Decidable b] (hf : Overlays info f p) :
    Overlays info (fun s => if b then f s else s) fun x y => if b then p x y else none := by
  by_cases h : b
  · simpa only [if_pos h] using hf
  · simpa only [if_neg h] using transparent info

/-- A loop whose iterations each paint their own pixels: `index` tells which one
paints a pixel. -/
theorem loop {body : Nat → Framebuffer → Framebuffer} {p : Nat → Nat → Nat → Option UInt32}
    {n : Nat} (index : Nat → Nat → Nat) (hbody : ∀ r, r < n → Overlays info (body r) (p r))
    (hindex : ∀ r x y, p r x y ≠ none → index x y = r) :
    Overlays info (fun s => forRange 0 n body s) fun x y =>
      if index x y < n then p (index x y) x y else none := by
  induction n with
  | zero =>
    refine (transparent info).congr fun x y _ => ?_
    rw [if_neg (Nat.not_lt_zero _)]
  | succ n ih =>
    have hcomp := (ih fun r hr => hbody r (Nat.lt_succ_of_lt hr)).comp (hbody n n.lt_succ_self)
    simp only [forRange_succ, Nat.zero_add]
    refine hcomp.congr fun x y _ => ?_
    by_cases hr : index x y = n
    · rw [if_neg (by omega), if_pos (by omega), hr, Option.or_none]
    · have hnone : p n x y = none := by
        by_contra hsome
        exact hr (hindex _ x y hsome)
      rw [hnone, Option.none_or]
      exact if_congr (by omega) rfl rfl

end Overlays

end SillOS.Fb

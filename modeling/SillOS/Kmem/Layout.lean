import Mathlib.Algebra.Order.Ring.Nat

/-!
# Allocation layouts

The part of `core::alloc::Layout` that the heap allocators read. The fields carry
the two conditions `Layout::from_size_align` checks, so every value of the type
is a layout the kernel can pass to `alloc` or `dealloc`.
-/

namespace SillOS

/-- Size and alignment of an allocation. -/
structure Layout where
  /-- Requested size in bytes. -/
  size : Nat
  /-- Requested alignment in bytes. -/
  align : Nat
  /-- The alignment is a power of two. -/
  align_pow : ∃ e, align = 2 ^ e
  /-- The size, rounded up to the alignment, is at most `isize::MAX`. -/
  size_le : size + align ≤ 2 ^ 63
  deriving DecidableEq

instance Layout.decidableAlign (n : Nat) : Decidable (∃ e, n = 2 ^ e) :=
  inferInstanceAs (Decidable n.isPowerOfTwo)

/-- Build a layout from its parts, if they pass the two checks. -/
def Layout.fromSizeAlign (size align : Nat) : Option Layout :=
  if h : (∃ e, align = 2 ^ e) ∧ size + align ≤ 2 ^ 63 then some ⟨size, align, h.1, h.2⟩ else none

/-- The parts of a layout pass the checks. -/
theorem Layout.fromSizeAlign_self (layout : Layout) :
    fromSizeAlign layout.size layout.align = some layout :=
  dif_pos ⟨layout.align_pow, layout.size_le⟩

/-- A layout built from parts has these parts. -/
theorem Layout.fromSizeAlign_eq_some {size align : Nat} {layout : Layout} :
    fromSizeAlign size align = some layout ↔ layout.size = size ∧ layout.align = align := by
  constructor
  · intro h
    obtain ⟨_, heq⟩ := Option.dite_none_right_eq_some.mp h
    cases heq
    exact ⟨rfl, rfl⟩
  · rintro ⟨rfl, rfl⟩
    exact layout.fromSizeAlign_self

/-- An alignment divides every power of two that is at least as large. -/
theorem Layout.align_dvd (layout : Layout) {order : Nat} (h : layout.align ≤ 2 ^ order) :
    layout.align ∣ 2 ^ order := by
  obtain ⟨e, he⟩ := layout.align_pow
  rw [he] at h ⊢
  exact Nat.pow_dvd_pow 2 ((Nat.pow_le_pow_iff_right Nat.one_lt_two).mp h)

/-- The layout that asks for exactly `2 ^ e` bytes at any address. -/
def Layout.bytes (e : Nat) (he : e < 63 := by decide) : Layout where
  size := 2 ^ e
  align := 1
  align_pow := ⟨0, rfl⟩
  size_le := by
    have h : 2 ^ e < 2 ^ 63 := Nat.pow_lt_pow_right Nat.one_lt_two he
    omega

/-- The layout of 17 bytes at any address. -/
def Layout.odd : Layout where
  size := 17
  align := 1
  align_pow := ⟨0, rfl⟩
  size_le := by decide

/-- The layout of a block of `2 ^ e` bytes aligned to its size. -/
def Layout.block (e : Nat) (he : e < 62 := by decide) : Layout where
  size := 2 ^ e
  align := 2 ^ e
  align_pow := ⟨e, rfl⟩
  size_le := by
    have h : 2 ^ (e + 1) ≤ 2 ^ 63 := Nat.pow_le_pow_right Nat.two_pos (by omega)
    rw [pow_succ] at h
    omega

end SillOS

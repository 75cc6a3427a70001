import Mathlib.Algebra.Order.Ring.Nat
import Mathlib.Data.List.Basic

/-!
# The physical frame allocator

Frames are handed out sequentially from the usable entries of the bootloader's
memory map. Addresses are 64-bit words. A position is the index of an entry and
the next frame in it; `0` there means that the entry has not been started.
-/

namespace SillOS.Frame

/-- An entry of the memory map. -/
structure Entry where
  /-- Physical address of the first byte. -/
  base : UInt64
  /-- Number of bytes. -/
  length : UInt64
  /-- Kind of memory. -/
  type_ : UInt64
  deriving DecidableEq, Repr

/-- What the allocator uses of the bootloader protocol and of the paging library. -/
structure Platform where
  /-- The entry type of usable memory. -/
  memmapUsable : UInt64
  /-- `PhysAddr::new`, which panics on addresses that are not physical. -/
  physAddrNew : UInt64 → Option UInt64
  /-- `PhysFrame::containing_address`, as the first address of the frame. -/
  containingAddress : UInt64 → UInt64

/-- The documented behaviour of the paging library: addresses of up to 52 bits are
physical, and the frame containing an address is aligned and contains it. -/
structure Platform.Documented (P : Platform) : Prop where
  /-- `PhysAddr::new` accepts 52-bit addresses as they are. -/
  physAddrNew_eq : ∀ a : UInt64, a.toNat < 2 ^ 52 → P.physAddrNew a = some a
  /-- Frames are aligned. -/
  frame_dvd : ∀ a, 4096 ∣ (P.containingAddress a).toNat
  /-- The frame starts at or below the address. -/
  frame_le : ∀ a, (P.containingAddress a).toNat ≤ a.toNat
  /-- The frame ends above the address. -/
  lt_frame : ∀ a, a.toNat < (P.containingAddress a).toNat + 4096

/-- Size of a 4 KiB frame. -/
def frameSize : UInt64 := 4096

/-- Align an address upwards. -/
def alignUp (value alignment : UInt64) : UInt64 := (value + alignment - 1) &&& ~~~(alignment - 1)

/-- Align an address downwards. -/
def alignDown (value alignment : UInt64) : UInt64 := value &&& ~~~(alignment - 1)

/-- Addition that fails on overflow. -/
def checkedAdd (a b : UInt64) : Option UInt64 :=
  if a.toNat + b.toNat < 2 ^ 64 then some (a + b) else none

/-- Physical frame allocator backed by the memory map. -/
structure BootInfoFrameAllocator where
  /-- The memory map. -/
  memoryMap : List Entry
  /-- Index of the entry currently being allocated from. -/
  currentRegion : Nat
  /-- Address of the next frame in the current entry. -/
  nextFrame : UInt64

namespace BootInfoFrameAllocator

/-- Create a frame allocator from the memory map. -/
def new (memoryMap : List Entry) : BootInfoFrameAllocator := ⟨memoryMap, 0, 0⟩

/-- Move on to the next entry. -/
def nextRegion (s : BootInfoFrameAllocator) : BootInfoFrameAllocator :=
  { s with currentRegion := s.currentRegion + 1, nextFrame := 0 }

/-- Find the next usable memory region. -/
def nextUsableRegion (P : Platform) (s : BootInfoFrameAllocator) :
    Option Entry × BootInfoFrameAllocator :=
  match _h : s.memoryMap[s.currentRegion]? with
  | none => (none, s)
  | some region =>
    if region.type_ = P.memmapUsable then (some region, s) else nextUsableRegion P s.nextRegion
termination_by s.memoryMap.length - s.currentRegion
decreasing_by
  obtain ⟨hlt, _⟩ := List.getElem?_eq_some_iff.mp ‹_›
  simp only [nextRegion]
  omega

variable {P : Platform} {s t : BootInfoFrameAllocator} {region : Entry}

/-- Behind the last entry there is none. -/
theorem nextUsableRegion_of_none (h : s.memoryMap[s.currentRegion]? = none) :
    s.nextUsableRegion P = (none, s) := by
  rw [nextUsableRegion]
  split <;> simp_all

/-- A usable entry is found at once. -/
theorem nextUsableRegion_of_usable (h : s.memoryMap[s.currentRegion]? = some region)
    (husable : region.type_ = P.memmapUsable) : s.nextUsableRegion P = (some region, s) := by
  rw [nextUsableRegion]
  split <;> simp_all

/-- Any other is skipped. -/
theorem nextUsableRegion_of_unusable (h : s.memoryMap[s.currentRegion]? = some region)
    (husable : region.type_ ≠ P.memmapUsable) :
    s.nextUsableRegion P = s.nextRegion.nextUsableRegion P := by
  rw [nextUsableRegion]
  split <;> simp_all

/-- The region found is the current entry afterwards, and none before it is lost. -/
theorem nextUsableRegion_some (h : s.nextUsableRegion P = (some region, t)) :
    t.memoryMap = s.memoryMap ∧ s.currentRegion ≤ t.currentRegion ∧
      t.memoryMap[t.currentRegion]? = some region := by
  induction s using nextUsableRegion.induct P with
  | case1 s hnone =>
    rw [nextUsableRegion_of_none hnone] at h
    cases h
  | case2 s e he husable =>
    rw [nextUsableRegion_of_usable he husable] at h
    cases h
    exact ⟨rfl, Nat.le_refl _, he⟩
  | case3 s e he husable ih =>
    rw [nextUsableRegion_of_unusable he husable] at h
    obtain ⟨hmap, hle, hget⟩ := ih h
    exact ⟨hmap, Nat.le_of_succ_le hle, hget⟩

/-- Hand out the next frame. The outer option is `none` when `PhysAddr::new` panics. -/
def allocateFrame (P : Platform) (s : BootInfoFrameAllocator) :
    Option (Option UInt64 × BootInfoFrameAllocator) :=
  match _h : s.nextUsableRegion P with
  | (none, t) => some (none, t)
  | (some region, t) =>
    let regionStart := alignUp region.base frameSize
    match checkedAdd region.base region.length with
    | none => some (none, t)
    | some last =>
      let regionEnd := alignDown last frameSize
      -- Start at the beginning of this region.
      let nextFrame := if t.nextFrame = 0 then regionStart else t.nextFrame
      -- Check whether the region still has frames.
      if nextFrame < regionEnd then do
        let addr ← P.physAddrNew nextFrame
        return (some (P.containingAddress addr), { t with nextFrame := nextFrame + frameSize })
      else allocateFrame P t.nextRegion
termination_by s.memoryMap.length - s.currentRegion
decreasing_by
  obtain ⟨hmap, hle, hget⟩ := nextUsableRegion_some ‹_›
  obtain ⟨hlt, _⟩ := List.getElem?_eq_some_iff.mp hget
  rw [hmap] at hlt
  simp only [nextRegion, hmap]
  omega

end BootInfoFrameAllocator

end SillOS.Frame

import SillOS.Core.Tiling
import SillOS.Core.Transition
import SillOS.Kmem.Buddy.Allocator

/-!
# Runs of the buddy allocator

The allocator, the memory and the blocks currently owned by callers. A caller
may allocate any layout, free a block it owns with the layout of its allocation,
and write any byte inside a block it owns.
-/

namespace SillOS.Buddy

open ByteMemory IntrusiveList Tiling

/-- A heap range that passes the assertions of `init`, in the lower half of the
address space and away from null. -/
structure HeapRange where
  /-- First address. -/
  start : Nat
  /-- Size in bytes. -/
  size : Nat
  /-- The start is aligned to the minimum block size. -/
  aligned : start % 64 = 0
  /-- The range does not contain null. -/
  start_ne : start ≠ 0
  /-- At least one block fits. -/
  size_ge : 64 ≤ size
  /-- The range ends in the lower half. -/
  end_le : start + size ≤ 2 ^ 63

/-- The end of the last whole minimum block of the range. -/
def HeapRange.stop (R : HeapRange) : Nat := R.start + 64 * (R.size / 64)

/-- The order of the block that `alloc` hands out for a layout. -/
def blockOrder (layout : Layout) : Nat := (orderForSize (max layout.size layout.align)).getD 0

/-- The block of memory at an address of a given order. -/
def blockSpan (order addr : Nat) : Span := ⟨addr, 2 ^ order⟩

/-- The block owned by the caller of an allocation. -/
def liveSpan (b : Nat × Layout) : Span := blockSpan (blockOrder b.2) b.1

/-- The allocator together with the allocations that have not been freed. -/
structure Machine where
  /-- Allocator and memory. -/
  heap : BuddyState
  /-- Pointer and layout of every live allocation. -/
  live : List (Nat × Layout)

/-- What the callers of the allocator can do. -/
inductive Action where
  /-- Call `alloc`. -/
  | alloc (layout : Layout)
  /-- Call `dealloc` on a live pointer with its own layout. -/
  | dealloc (ptr : Nat) (layout : Layout)
  /-- Write one byte inside a live block. -/
  | write (addr : Nat) (byte : UInt8)

/-- The action touches only what its caller owns. -/
def permitted (live : List (Nat × Layout)) : Action → Prop
  | .alloc _ => True
  | .dealloc ptr layout => (ptr, layout) ∈ live
  | .write addr _ => ∃ b ∈ live, addr ∈ liveSpan b

instance (live : List (Nat × Layout)) : DecidablePred (permitted live)
  | .alloc _ => inferInstanceAs (Decidable True)
  | .dealloc ptr layout => inferInstanceAs (Decidable ((ptr, layout) ∈ live))
  | .write addr _ => inferInstanceAs (Decidable (∃ b ∈ live, addr ∈ liveSpan b))

/-- The allocations that are live after `alloc` has returned `ptr`. -/
def liveAfterAlloc (live : List (Nat × Layout)) (ptr : Nat) (layout : Layout) :
    List (Nat × Layout) := if ptr = 0 then live else (ptr, layout) :: live

/-- The effect of an action; a `dealloc` that does not return has no successor. -/
def Machine.act (m : Machine) : Action → Option Machine
  | .alloc layout =>
    let (ptr, heap) := m.heap.alloc layout
    some ⟨heap, liveAfterAlloc m.live ptr layout⟩
  | .dealloc ptr layout =>
    (m.heap.dealloc ptr layout).map fun heap => ⟨heap, m.live.erase (ptr, layout)⟩
  | .write addr byte =>
    some ⟨{ m.heap with mem := storeByte m.heap.mem addr byte }, m.live⟩

/-- One permitted action. -/
def Machine.step (m : Machine) (a : Action) : Option Machine :=
  if permitted m.live a then m.act a else none

/-- A step is a permitted action that returns. -/
theorem Machine.step_eq_some {m m' : Machine} {a : Action} :
    m.step a = some m' ↔ permitted m.live a ∧ m.act a = some m' :=
  Option.ite_none_right_eq_some

/-- Run a sequence of actions. -/
def Machine.run (m : Machine) (acts : List Action) : Option Machine :=
  Transition.run Machine.step m acts

/-- The machine right after `init`, over memory with arbitrary contents. -/
def HeapRange.boot (R : HeapRange) (mem : ByteMemory) : Option Machine :=
  ((BuddyState.new mem).init R.start R.size).map fun heap => ⟨heap, []⟩

/-- The states that some run from some initial memory leads to. -/
def HeapRange.Reachable (R : HeapRange) (m : Machine) : Prop :=
  ∃ mem m₀ acts, R.boot mem = some m₀ ∧ m₀.run acts = some m

/-- The free list of an order as found by walking it through memory; `none` if the
walk does not end. -/
def BuddyState.freeList (s : BuddyState) (order : Nat) : Option (List Nat) :=
  walk (load64 s.mem) (2 ^ 64) (s.freeLists (indexFor order))

/-- The orders that have a free list. -/
def orders : List Nat := List.range' minOrder orderCount

/-- The orders are those between the smallest and the largest. -/
theorem mem_orders {order : Nat} : order ∈ orders ↔ minOrder ≤ order ∧ order ≤ maxOrder := by
  simp only [orders, List.mem_range'_1, minOrder, orderCount, maxOrder]
  omega

private theorem orders_nodup : orders.Nodup := List.nodup_range'

/-- The free blocks of all free lists. -/
def freeSpans (lists : Nat → List Nat) : List Span :=
  orders.flatMap fun order => (lists order).map (blockSpan order)

/-- The free spans are the blocks on the lists. -/
theorem mem_freeSpans {lists : Nat → List Nat} {b : Span} :
    b ∈ freeSpans lists ↔
      ∃ order addr, minOrder ≤ order ∧ order ≤ maxOrder ∧ addr ∈ lists order ∧
        b = blockSpan order addr := by
  simp only [freeSpans, List.mem_flatMap, List.mem_map, mem_orders]
  constructor
  · rintro ⟨order, ⟨h1, h2⟩, addr, ha, rfl⟩
    exact ⟨order, addr, h1, h2, ha, rfl⟩
  · rintro ⟨order, addr, h1, h2, ha, rfl⟩
    exact ⟨order, ⟨h1, h2⟩, addr, ha, rfl⟩

/-- Exchanging one free list changes the covered addresses by just its blocks. -/
theorem cover_freeSpans_update (lists : Nat → List Nat) {order : Nat} (h : order ∈ orders)
    (as : List Nat) (x : Nat) :
    cover (freeSpans (Function.update lists order as)) x +
        cover ((lists order).map (blockSpan order)) x =
      cover (freeSpans lists) x + cover (as.map (blockSpan order)) x := by
  have hupdate : (fun k => (Function.update lists order as k).map (blockSpan k)) =
      Function.update (fun k => (lists k).map (blockSpan k)) order (as.map (blockSpan order)) := by
    funext k
    by_cases hk : k = order
    · subst k
      simp only [Function.update_self]
    · simp only [Function.update_of_ne hk]
  rw [freeSpans, hupdate]
  exact cover_flatMap_update _ orders_nodup h _ x

/-! ## The orders a layout can have -/

private theorem orderForSizeLoop_spec {size order k : Nat} (hle : order ≤ maxOrder)
    (h : orderForSizeLoop size order = some k) :
    order ≤ k ∧ k ≤ maxOrder ∧ size ≤ 2 ^ k ∧ ∀ j, order ≤ j → j < k → 2 ^ j < size := by
  induction order using orderForSizeLoop.induct size with
  | case1 hlt => simp [orderForSizeLoop, hlt] at h
  | case2 order hlt hne ih =>
    rw [orderForSizeLoop, if_pos hlt, if_neg hne] at h
    obtain ⟨h1, h2, h3, h4⟩ := ih (by omega) h
    refine ⟨by omega, h2, h3, fun j hj hjk => ?_⟩
    rcases Nat.eq_or_lt_of_le hj with rfl | hj
    · simpa only [blockSize_eq] using hlt
    · exact h4 j hj hjk
  | case3 order hge =>
    rw [orderForSizeLoop, if_neg hge] at h
    cases h
    refine ⟨Nat.le_refl _, hle, ?_, fun j h1 h2 => by omega⟩
    simpa only [blockSize_eq, Nat.not_lt] using hge

/-- The order found for a size is the least from the minimum order on whose block holds it. -/
theorem orderForSize_spec {size k : Nat} (h : orderForSize size = some k) :
    minOrder ≤ k ∧ k ≤ maxOrder ∧ size ≤ 2 ^ k ∧ ∀ j, minOrder ≤ j → j < k → 2 ^ j < size := by
  obtain ⟨h1, h2, h3, h4⟩ := orderForSizeLoop_spec (by decide) h
  refine ⟨h1, h2, by omega, fun j hj hjk => ?_⟩
  have hnode : nodeSize ≤ 2 ^ j := Nat.le_trans (by decide) (Nat.pow_le_pow_right Nat.two_pos hj)
  have := h4 j hj hjk
  omega

private theorem orderForSizeLoop_isSome {size order k : Nat} (hle : order ≤ k) (hk : k ≤ maxOrder)
    (h : size ≤ 2 ^ k) : (orderForSizeLoop size order).isSome := by
  induction order using orderForSizeLoop.induct size with
  | case1 hlt =>
    have hpow : 2 ^ k ≤ 2 ^ maxOrder := Nat.pow_le_pow_right Nat.two_pos hk
    rw [blockSize_eq] at hlt
    omega
  | case2 order hlt hne ih =>
    have hne' : order ≠ k := by
      rintro rfl
      rw [blockSize_eq] at hlt
      omega
    rw [orderForSizeLoop, if_pos hlt, if_neg hne]
    exact ih (by omega)
  | case3 order hge =>
    rw [orderForSizeLoop, if_neg hge]
    rfl

/-- A size is rejected only if no supported block holds it. -/
theorem orderForSize_isSome {size k : Nat} (hmin : minOrder ≤ k) (hk : k ≤ maxOrder)
    (h : size ≤ 2 ^ k) : (orderForSize size).isSome := by
  have hnode : nodeSize ≤ 2 ^ k := Nat.le_trans (by decide) (Nat.pow_le_pow_right Nat.two_pos hmin)
  exact orderForSizeLoop_isSome hmin hk (by omega)

/-- The order of an exact power of two. -/
theorem orderForSize_two_pow {k size : Nat} (hmin : minOrder ≤ k) (hk : k ≤ maxOrder)
    (hlo : ∀ j, j < k → 2 ^ j < size) (hhi : size ≤ 2 ^ k) : orderForSize size = some k := by
  obtain ⟨i, hi⟩ := Option.isSome_iff_exists.mp (orderForSize_isSome hmin hk hhi)
  obtain ⟨h1, _, h3, h4⟩ := orderForSize_spec hi
  rcases Nat.lt_trichotomy i k with hlt | rfl | hgt
  · have := hlo i hlt
    omega
  · exact hi
  · have := h4 k hmin hgt
    omega

/-- The order of a layout whose size is a power of two. -/
theorem order_of_size {layout : Layout} {k : Nat} (hmin : minOrder ≤ k) (hk : k ≤ maxOrder)
    (hsize : layout.size = 2 ^ k) (halign : layout.align ≤ 2 ^ k) :
    orderForSize (max layout.size layout.align) = some k := by
  rw [hsize, Nat.max_eq_left halign]
  exact orderForSize_two_pow hmin hk
    (fun j hj => Nat.pow_lt_pow_right Nat.one_lt_two hj) (Nat.le_refl _)

end SillOS.Buddy

import SillOS.Core.ByteMemory
import SillOS.Core.IntrusiveList
import SillOS.Kmem.Layout

/-!
# The binary buddy allocator

Free memory is tracked as power-of-two sized blocks. Each order has its own
intrusive free list: the link to the next free block is the first word of a free
block, in the same memory that is handed out. The state of the model is
therefore the allocator together with that memory.

Addresses and sizes are natural numbers. A null pointer is `0`.
-/

namespace SillOS.Buddy

open ByteMemory

/-- Smallest block order the allocator will hand out. -/
def minOrder : Nat := 6

/-- Largest block order the allocator supports. -/
def maxOrder : Nat := 30

/-- Number of distinct block sizes tracked by the allocator. -/
def orderCount : Nat := maxOrder - minOrder + 1

/-- The allocator's own fields; `freeLists` holds the head pointer of each list. -/
structure BuddyAllocator where
  /-- First address of the managed range. -/
  heapStart : Nat
  /-- Size of the managed range in bytes. -/
  heapSize : Nat
  /-- Largest order of this heap. -/
  maxOrder : Nat
  /-- Head pointers, read at the indices below `orderCount`. -/
  freeLists : Nat → Nat
  /-- Set at the end of `init`. -/
  initialized : Bool

/-- The allocator and the memory its free lists live in. -/
structure BuddyState extends BuddyAllocator where
  /-- Memory, shared with the owners of allocated blocks. -/
  mem : ByteMemory

/-- Block size in bytes for a given order. -/
def blockSize (order : Nat) : Nat := 1 <<< order

/-- Index into `freeLists` for a given order. -/
def indexFor (order : Nat) : Nat := order - minOrder

/-- The loop of `largestOrderFor`. -/
def largestOrderLoop (size order : Nat) : Nat :=
  if order < maxOrder ∧ blockSize (order + 1) ≤ size then largestOrderLoop size (order + 1)
  else order
termination_by maxOrder - order

/-- Largest order whose block size is at most `size`. -/
def largestOrderFor (size : Nat) : Nat := largestOrderLoop size minOrder

/-- A block has the size of its order. -/
theorem blockSize_eq (order : Nat) : blockSize order = 2 ^ order := Nat.one_shiftLeft order

private theorem blockSize_pos (order : Nat) : 0 < blockSize order := by
  rw [blockSize_eq]
  exact Nat.two_pow_pos order

/-- The loop of `orderForSize`. -/
def orderForSizeLoop (size order : Nat) : Option Nat :=
  if blockSize order < size then
    if order = maxOrder then none else orderForSizeLoop size (order + 1)
  else some order
termination_by size - blockSize order
decreasing_by
  have hpos : 0 < 2 ^ order := Nat.two_pow_pos order
  simp only [blockSize_eq, pow_succ] at *
  omega

/-- `size_of::<FreeListNode>()`: a node is one pointer. -/
def nodeSize : Nat := 8

/-- Smallest order able to satisfy an allocation of `size` bytes. -/
def orderForSize (size : Nat) : Option Nat := orderForSizeLoop (max size nodeSize) minOrder

namespace BuddyState

/-- Push a free block of the given order onto its free list. -/
def pushFreeBlock (s : BuddyState) (addr order : Nat) : BuddyState :=
  { s with
    mem := store64 s.mem addr (s.freeLists (indexFor order))
    freeLists := Function.update s.freeLists (indexFor order) addr }

/-- Pop a free block of the given order from its free list, if any. -/
def popFreeBlock (s : BuddyState) (order : Nat) : Option Nat × BuddyState :=
  let node := s.freeLists (indexFor order)
  if node = 0 then (none, s)
  else
    (some node,
      { s with freeLists := Function.update s.freeLists (indexFor order) (load64 s.mem node) })

/-- The loop of `removeFreeBlock`, with the two pointers it carries. The fuel
bounds the number of nodes visited; `none` means that it did not suffice. -/
def removeLoop (s : BuddyState) (index target : Nat) :
    (fuel prev current : Nat) → Option (Bool × BuddyState)
  | 0, _, _ => none
  | fuel + 1, prev, current =>
    if current = 0 then some (false, s)
    else if current = target then
      let next := load64 s.mem current
      if prev = 0 then
        some (true, { s with freeLists := Function.update s.freeLists index next })
      else some (true, { s with mem := store64 s.mem prev next })
    else s.removeLoop index target fuel current (load64 s.mem current)

/-- Remove a specific block from its free list, returning whether it was found.
A list with more nodes than there are addresses is cyclic, and its walk never
ends: only then is the result `none`. -/
def removeFreeBlock (s : BuddyState) (addr order : Nat) : Option (Bool × BuddyState) :=
  s.removeLoop (indexFor order) addr (2 ^ 64) 0 (s.freeLists (indexFor order))

/-- Popping changes no field but the list heads. -/
theorem popFreeBlock_maxOrder {s t : BuddyState} {order : Nat} {r : Option Nat}
    (h : s.popFreeBlock order = (r, t)) : t.maxOrder = s.maxOrder := by
  unfold popFreeBlock at h
  dsimp only at h
  split at h <;> (cases h; rfl)

/-- Unlinking changes no field but one link. -/
theorem removeLoop_fields {s t : BuddyState} {index target fuel prev current : Nat} {found : Bool}
    (h : s.removeLoop index target fuel prev current = some (found, t)) :
    t.heapStart = s.heapStart ∧ t.heapSize = s.heapSize ∧ t.maxOrder = s.maxOrder ∧
      t.initialized = s.initialized := by
  induction fuel generalizing prev current with
  | zero => simp [removeLoop] at h
  | succ fuel ih =>
    unfold removeLoop at h
    dsimp only at h
    split at h
    · obtain rfl : s = t := by simp_all
      exact ⟨rfl, rfl, rfl, rfl⟩
    split at h
    · split at h <;> (cases h; exact ⟨rfl, rfl, rfl, rfl⟩)
    · exact ih h

private theorem removeFreeBlock_maxOrder {s t : BuddyState} {addr order : Nat} {found : Bool}
    (h : s.removeFreeBlock addr order = some (found, t)) : t.maxOrder = s.maxOrder :=
  (removeLoop_fields h).2.2.1

/-- Allocate a block of the given order, splitting a larger free block if none of
the exact size is available. -/
def allocateOrder (s : BuddyState) (order : Nat) : Option Nat × BuddyState :=
  if order > s.maxOrder then (none, s)
  else
    match _h : s.popFreeBlock order with
    | (some addr, t) => (some addr, t)
    | (none, t) =>
      match t.allocateOrder (order + 1) with
      | (none, u) => (none, u)
      | (some addr, u) => (some addr, u.pushFreeBlock (addr + blockSize order) order)
termination_by s.maxOrder + 1 - order
decreasing_by
  have hmax := popFreeBlock_maxOrder ‹_›
  omega

/-- Compute the address of a block's buddy at the given order. -/
def buddyOf (s : BuddyState) (addr order : Nat) : Nat :=
  let offset := addr - s.heapStart
  s.heapStart + (offset ^^^ blockSize order)

/-- Allocate memory satisfying `layout`, or return a null pointer on failure. -/
def alloc (s : BuddyState) (layout : Layout) : Nat × BuddyState :=
  if !s.initialized then (0, s)
  else
    let size := max layout.size layout.align
    match orderForSize size with
    | none => (0, s)
    | some order =>
      match s.allocateOrder order with
      | (some addr, t) => (addr, t)
      | (none, t) => (0, t)

/-- The loop of `dealloc`: merge with the buddy block until the buddy is not free
or the largest tracked order is reached. -/
def mergeLoop (s : BuddyState) (addr order : Nat) : Option (Nat × Nat × BuddyState) :=
  if order < s.maxOrder then
    let buddy := s.buddyOf addr order
    match _h : s.removeFreeBlock buddy order with
    | none => none
    | some (true, t) => t.mergeLoop (min addr buddy) (order + 1)
    | some (false, t) => some (addr, order, t)
  else some (addr, order, s)
termination_by s.maxOrder - order
decreasing_by
  have hmax := removeFreeBlock_maxOrder ‹_›
  omega

/-- Deallocate a block previously returned by `alloc` with the same `layout`.
The result is `none` only if a free list it walks is cyclic. -/
def dealloc (s : BuddyState) (ptr : Nat) (layout : Layout) : Option BuddyState :=
  if ptr = 0 ∨ !s.initialized then some s
  else
    let size := max layout.size layout.align
    match orderForSize size with
    | none => some s
    | some order => do
      let (addr, order, t) ← s.mergeLoop ptr order
      return t.pushFreeBlock addr order

/-- Allocation from a nonempty list. -/
theorem allocateOrder_of_pop {s t : BuddyState} {order addr : Nat} (hle : order ≤ s.maxOrder)
    (h : s.popFreeBlock order = (some addr, t)) : s.allocateOrder order = (some addr, t) := by
  rw [allocateOrder, if_neg (Nat.not_lt.mpr hle)]
  split <;> simp_all

/-- Allocation from an empty list when no larger block is free. -/
theorem allocateOrder_of_none {s t u : BuddyState} {order : Nat} (hle : order ≤ s.maxOrder)
    (h : s.popFreeBlock order = (none, t)) (hnext : t.allocateOrder (order + 1) = (none, u)) :
    s.allocateOrder order = (none, u) := by
  rw [allocateOrder, if_neg (Nat.not_lt.mpr hle)]
  split <;> simp_all

/-- Allocation from an empty list by splitting a larger block. -/
theorem allocateOrder_of_split {s t u : BuddyState} {order addr : Nat} (hle : order ≤ s.maxOrder)
    (h : s.popFreeBlock order = (none, t)) (hnext : t.allocateOrder (order + 1) = (some addr, u)) :
    s.allocateOrder order = (some addr, u.pushFreeBlock (addr + blockSize order) order) := by
  rw [allocateOrder, if_neg (Nat.not_lt.mpr hle)]
  split <;> simp_all

/-- Merging with a free buddy. -/
theorem mergeLoop_of_found {s t : BuddyState} {addr order : Nat} (hlt : order < s.maxOrder)
    (h : s.removeFreeBlock (s.buddyOf addr order) order = some (true, t)) :
    s.mergeLoop addr order = t.mergeLoop (min addr (s.buddyOf addr order)) (order + 1) := by
  rw [mergeLoop, if_pos hlt]
  dsimp only
  split <;> simp_all

/-- The end of merging at a buddy that is not free. -/
theorem mergeLoop_of_not_found {s t : BuddyState} {addr order : Nat} (hlt : order < s.maxOrder)
    (h : s.removeFreeBlock (s.buddyOf addr order) order = some (false, t)) :
    s.mergeLoop addr order = some (addr, order, t) := by
  rw [mergeLoop, if_pos hlt]
  dsimp only
  split <;> simp_all

end BuddyState

/-- The inner loop of `init`: the largest order, from `order` down, whose block
fits the remaining size and the alignment of `addr`. -/
def seedOrder (addr remaining : Nat) : Nat → Nat
  | 0 => 0
  | order + 1 =>
    if order + 1 > minOrder then
      let size := blockSize (order + 1)
      if size ≤ remaining ∧ addr % size = 0 then order + 1 else seedOrder addr remaining order
    else order + 1

/-- The outer loop of `init`: decompose the rest of the heap into the largest
aligned power-of-two blocks that fit, and seed each onto its free list. -/
def BuddyState.seedLoop (s : BuddyState) (addr remaining : Nat) : BuddyState :=
  if remaining ≥ blockSize minOrder then
    let order := seedOrder addr remaining s.maxOrder
    let size := blockSize order
    if size > remaining ∨ addr % size ≠ 0 then s
    else (s.pushFreeBlock addr order).seedLoop (addr + size) (remaining - size)
  else s
termination_by remaining
decreasing_by
  have hpos := blockSize_pos (seedOrder addr remaining s.maxOrder)
  have hmin := blockSize_pos minOrder
  omega

/-- An uninitialized buddy allocator over a memory. -/
def BuddyState.new (mem : ByteMemory) : BuddyState where
  heapStart := 0
  heapSize := 0
  maxOrder := minOrder
  freeLists := fun _ => 0
  initialized := false
  mem := mem

/-- Initialize the allocator over a contiguous memory range; `none` is a failed
assertion. -/
def BuddyState.init (s : BuddyState) (heapStart heapSize : Nat) : Option BuddyState :=
  if heapStart % blockSize minOrder ≠ 0 then none
  else if ¬heapSize ≥ blockSize minOrder then none
  else
    let s : BuddyState := { s with
      heapStart := heapStart
      heapSize := heapSize
      maxOrder := min (largestOrderFor heapSize) maxOrder
      freeLists := fun _ => 0 }
    let s := s.seedLoop heapStart heapSize
    some { s with initialized := true }

end SillOS.Buddy

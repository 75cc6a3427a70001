import SillOS.Core.ByteMemory
import SillOS.Core.IntrusiveList
import SillOS.Core.Tiling
import SillOS.Kmem.Layout

/-!
# The linked-list allocator

A first-fit allocator with one intrusive list of free regions. A node holds the
size of its region and the link to the next node, and lives at the start of the
region. The state of the model is the allocator together with that memory.

Addresses and sizes are natural numbers, a null pointer is `0`, and `none` is a
panic or a walk along the list that never ends. The model is that of the release
build: `alloc` can write a node to a misaligned address and goes on, where the
dev build's check of pointers aborts right after the write.
-/

namespace SillOS.Linked

open ByteMemory IntrusiveList Tiling

/-- A node describing a free memory region. -/
structure ListNode where
  /-- Size of the region in bytes. -/
  size : Nat
  /-- Address of the next node, null at the end of the list. -/
  next : Nat

/-- `size_of::<ListNode>()`: two words. -/
def nodeSize : Nat := 16

/-- `align_of::<ListNode>()`. -/
def nodeAlign : Nat := 8

/-- The allocator's own fields. -/
structure ListAllocator where
  /-- The node in front of the list. -/
  head : ListNode
  /-- Set by `init`. -/
  initialized : Bool

/-- The allocator and the memory its free list lives in. -/
structure ListState extends ListAllocator where
  /-- Memory, shared with the owners of allocated blocks. -/
  mem : ByteMemory

/-- The node stored at an address: its size, then its link. -/
def readNode (mem : ByteMemory) (addr : Nat) : ListNode where
  size := load64 mem addr
  next := load64 mem (addr + 8)

/-- Store a node at an address. -/
def writeNode (mem : ByteMemory) (addr : Nat) (node : ListNode) : ByteMemory :=
  store64 (store64 mem addr node.size) (addr + 8) node.next

/-- Addition of two `usize` values, `none` on overflow. -/
def checkedAdd (a b : Nat) : Option Nat := if a + b < 2 ^ 64 then some (a + b) else none

/-- Align an address upwards; `none` is an overflow. -/
def alignUp (addr align : Nat) : Option Nat :=
  (checkedAdd addr align).map fun sum => (sum - 1) &&& (2 ^ 64 - 1 - (align - 1))

/-- Adjust an allocation layout so that it can safely be represented by the linked-list
allocator. -/
def adjustLayout (layout : Layout) : Option Layout :=
  let size := max layout.size nodeSize
  let align := max layout.align nodeAlign
  Layout.fromSizeAlign size align

/-- Attempt to allocate a block from the free region whose node is at `start`. -/
def allocFromRegion (start : Nat) (region : ListNode) (layout : Layout) :
    Option (Except Unit Nat) :=
  (alignUp start layout.align).map fun allocStart =>
    match checkedAdd allocStart layout.size with
    | none => .error ()
    | some allocEnd =>
      match checkedAdd start region.size with
      | none => .error ()
      | some regionEnd =>
        if allocEnd > regionEnd then .error ()
        else
          let excessSize := regionEnd - allocEnd
          if excessSize > 0 ∧ excessSize < nodeSize then .error () else .ok allocStart

namespace ListState

/-- The link of the node at an address; `0` stands for the node in front of the list. -/
def nextOf (s : ListState) (current : Nat) : Nat :=
  if current = 0 then s.head.next else (readNode s.mem current).next

/-- Redirect the link of a node. -/
def setNext (s : ListState) (current next : Nat) : ListState :=
  if current = 0 then { s with head := { s.head with next := next } }
  else { s with mem := store64 s.mem (current + 8) next }

/-- Add a region to the free list; `none` is a failed assertion. -/
def addFreeRegion (s : ListState) (addr size : Nat) : Option ListState :=
  if addr % nodeAlign ≠ 0 then none
  else if ¬size ≥ nodeSize then none
  else
    -- `head.next.take()` is read before the node is written.
    let next := s.head.next
    some { s with mem := writeNode s.mem addr ⟨size, next⟩, head := { s.head with next := addr } }

/-- The loop of `alloc`. The fuel bounds the number of nodes visited. -/
def allocLoop (s : ListState) (layout : Layout) : (fuel current : Nat) → Option (Nat × ListState)
  | 0, _ => none
  | fuel + 1, current =>
    let region := s.nextOf current
    if region = 0 then some (0, s)
    else
      match allocFromRegion region (readNode s.mem region) layout with
      | none => none
      | some (.error _) => s.allocLoop layout fuel region
      | some (.ok allocStart) =>
        match checkedAdd allocStart layout.size with
        | none => some (0, s)
        | some allocEnd =>
          match checkedAdd region (readNode s.mem region).size with
          | none => none
          | some regionEnd =>
            let excessSize := regionEnd - allocEnd
            let next := s.nextOf region
            let s := s.setNext region 0
            if excessSize ≥ nodeSize then
              let s := { s with mem := writeNode s.mem allocEnd ⟨excessSize, next⟩ }
              some (allocStart, s.setNext current allocEnd)
            else
              -- The remaining bytes are too small to represent a free-list node.
              some (allocStart, s.setNext current next)

/-- Allocate a block from the heap, or return a null pointer on failure. -/
def alloc (s : ListState) (layout : Layout) : Option (Nat × ListState) :=
  if !s.initialized then some (0, s)
  else
    match adjustLayout layout with
    | none => some (0, s)
    | some layout => s.allocLoop layout (2 ^ 64) 0

/-- Deallocate a previously allocated block. -/
def dealloc (s : ListState) (ptr : Nat) (layout : Layout) : Option ListState :=
  if ptr = 0 then some s
  else
    match adjustLayout layout with
    | none => some s
    | some layout => s.addFreeRegion ptr layout.size

/-- An uninitialized allocator over a memory. -/
def new (mem : ByteMemory) : ListState where
  head := ⟨0, 0⟩
  initialized := false
  mem := mem

/-- Initialize the allocator over a contiguous memory range; `none` is a failed assertion. -/
def init (s : ListState) (heapStart heapSize : Nat) : Option ListState :=
  if heapStart % nodeAlign ≠ 0 then none
  else if ¬heapSize ≥ nodeSize then none
  else { s with initialized := true }.addFreeRegion heapStart heapSize

/-- The free regions as found by walking the list through memory; `none` if the walk does not
end. -/
def freeRegions (s : ListState) : Option (List Span) :=
  (walk s.nextOf (2 ^ 64) (s.nextOf 0)).map fun starts =>
    starts.map fun addr => ⟨addr, (readNode s.mem addr).size⟩

end ListState

end SillOS.Linked

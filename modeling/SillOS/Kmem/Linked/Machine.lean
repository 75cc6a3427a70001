import SillOS.Core.Transition
import SillOS.Kmem.Buddy.Machine
import SillOS.Kmem.Linked.Allocator

/-!
# Runs of the linked-list allocator

The linked-list allocator under the same actions as the buddy allocator: a caller
may allocate any layout, free a block it owns with the layout of its allocation,
and write any byte inside a block it owns.
-/

namespace SillOS.Linked

open ByteMemory Tiling
open Buddy (Action liveAfterAlloc)

/-- A heap range that passes the assertions of `init`, in the lower half of the
address space and away from null. -/
structure HeapRange where
  /-- First address. -/
  start : Nat
  /-- Size in bytes. -/
  size : Nat
  /-- The start is aligned to a node. -/
  aligned : start % 8 = 0
  /-- The range does not contain null. -/
  start_ne : start ≠ 0
  /-- At least one node fits. -/
  size_ge : 16 ≤ size
  /-- The range ends in the lower half. -/
  end_le : start + size ≤ 2 ^ 63

/-- The first address behind the range. -/
def HeapRange.stop (R : HeapRange) : Nat := R.start + R.size

/-- The size that `alloc` takes for a layout. -/
def blockSize (layout : Layout) : Nat := max layout.size nodeSize

/-- The alignment that `alloc` takes for a layout. -/
def blockAlign (layout : Layout) : Nat := max layout.align nodeAlign

/-- The block owned by the caller of an allocation. -/
def liveSpan (b : Nat × Layout) : Span := ⟨b.1, blockSize b.2⟩

/-- The allocator together with the allocations that have not been freed. -/
structure Machine where
  /-- Allocator and memory. -/
  heap : ListState
  /-- Pointer and layout of every live allocation. -/
  live : List (Nat × Layout)

/-- The action touches only what its caller owns. -/
def permitted (live : List (Nat × Layout)) : Action → Prop
  | .alloc _ => True
  | .dealloc ptr layout => (ptr, layout) ∈ live
  | .write addr _ => ∃ b ∈ live, addr ∈ liveSpan b

instance (live : List (Nat × Layout)) : DecidablePred (permitted live)
  | .alloc _ => inferInstanceAs (Decidable True)
  | .dealloc ptr layout => inferInstanceAs (Decidable ((ptr, layout) ∈ live))
  | .write addr _ => inferInstanceAs (Decidable (∃ b ∈ live, addr ∈ liveSpan b))

namespace Machine

/-- The effect of an action; a call that panics or does not return has no successor. -/
def act (m : Machine) : Action → Option Machine
  | .alloc layout =>
    (m.heap.alloc layout).map fun (ptr, heap) => ⟨heap, liveAfterAlloc m.live ptr layout⟩
  | .dealloc ptr layout =>
    (m.heap.dealloc ptr layout).map fun heap => ⟨heap, m.live.erase (ptr, layout)⟩
  | .write addr byte =>
    some ⟨{ m.heap with mem := storeByte m.heap.mem addr byte }, m.live⟩

/-- One permitted action. -/
def step (m : Machine) (a : Action) : Option Machine :=
  if permitted m.live a then m.act a else none

/-- A step is a permitted action that returns. -/
theorem step_eq_some {m m' : Machine} {a : Action} :
    m.step a = some m' ↔ permitted m.live a ∧ m.act a = some m' :=
  Option.ite_none_right_eq_some

/-- Run a sequence of actions. -/
def run (m : Machine) (acts : List Action) : Option Machine := Transition.run step m acts

end Machine

namespace HeapRange

variable (R : HeapRange)

/-- A heap does not start at null. -/
theorem start_pos : 0 < R.start := Nat.pos_of_ne_zero R.start_ne

/-- It ends below half of the address space. -/
theorem stop_le : R.stop ≤ 2 ^ 63 := R.end_le

/-- The machine right after `init`, over memory with arbitrary contents. -/
def boot (mem : ByteMemory) : Option Machine :=
  ((ListState.new mem).init R.start R.size).map fun heap => ⟨heap, []⟩

/-- The states that some run from some initial memory leads to. -/
def Reachable (m : Machine) : Prop :=
  ∃ mem m₀ acts, R.boot mem = some m₀ ∧ m₀.run acts = some m

/-- The state after a run from zeroed memory. -/
def after (acts : List Action) : Option Machine := (R.boot fun _ => 0).bind fun m => m.run acts

variable {R}

/-- A run from cleared memory starts with a fresh heap. -/
theorem after_eq_some {acts : List Action} {m : Machine} :
    R.after acts = some m ↔ ∃ m₀, R.boot (fun _ => 0) = some m₀ ∧ m₀.run acts = some m :=
  Option.bind_eq_some_iff

/-- So its states are reachable. -/
theorem reachable_after {acts : List Action} {m : Machine} (h : R.after acts = some m) :
    R.Reachable m := by
  obtain ⟨m₀, hboot, hrun⟩ := after_eq_some.mp h
  exact ⟨_, m₀, acts, hboot, hrun⟩

end HeapRange

end SillOS.Linked

import SillOS.Kmem.Buddy.Machine

/-!
# The kernel heap

The heap range that the kernel gives to its allocator, and runs from it.
-/

namespace SillOS

open Buddy ByteMemory

/-- Start address of the kernel heap. -/
def heapStart : Nat := 0x444444440000

/-- Initial kernel heap size: 100 MiB. -/
def heapSize : Nat := 1024 * 1024 * 100

/-- The range of the kernel heap. -/
def kernelHeap : HeapRange where
  start := heapStart
  size := heapSize
  aligned := by decide
  start_ne := by decide
  size_ge := by decide
  end_le := by decide

/-- A heap range of one MiB whose start is a multiple of its size. -/
def lowHeap : HeapRange where
  start := 1024 * 1024
  size := 1024 * 1024
  aligned := by decide
  start_ne := by decide
  size_ge := by decide
  end_le := by decide

/-- The layout of one machine word. -/
def Layout.word : Layout where
  size := 8
  align := 8
  align_pow := ⟨3, rfl⟩
  size_le := by decide

/-- The state after a run from zeroed memory. -/
def Buddy.HeapRange.after (R : HeapRange) (acts : List Action) : Option Machine :=
  (R.boot fun _ => 0).bind fun m => m.run acts

/-- A run from cleared memory starts with a fresh heap. -/
theorem Buddy.HeapRange.after_eq_some {R : HeapRange} {acts : List Action} {m : Machine} :
    R.after acts = some m ↔ ∃ m₀, R.boot (fun _ => 0) = some m₀ ∧ m₀.run acts = some m :=
  Option.bind_eq_some_iff

/-- So its states are reachable. -/
theorem Buddy.HeapRange.reachable_after {R : HeapRange} {acts : List Action} {m : Machine}
    (h : R.after acts = some m) : R.Reachable m := by
  obtain ⟨m₀, hboot, hrun⟩ := after_eq_some.mp h
  exact ⟨_, m₀, acts, hboot, hrun⟩

end SillOS

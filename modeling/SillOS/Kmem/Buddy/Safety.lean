import SillOS.Kmem.Buddy.Refinement
import SillOS.Kmem.Heap

/-!
# The heap stays partitioned

What the refinement says about the allocator itself: free and live blocks tile
the heap in every reachable state, every call returns, the free lists in memory
are the abstract ones, and no call writes to a block that stays live.
-/

namespace SillOS.Buddy

open ByteMemory Tiling

namespace Refines

variable {R : HeapRange} {c : Machine} {m : ListedMachine}

/-- Free and live blocks in this state partition the heap. -/
theorem partition (h : Refines R c m) :
    (freeSpans m.heap.lists ++ c.live.map liveSpan).Pairwise Span.Disjoint ∧
      ∀ x, (∃ b ∈ freeSpans m.heap.lists ++ c.live.map liveSpan, x ∈ b) ↔
        R.start ≤ x ∧ x < R.stop := by
  rw [h.live_eq]
  exact tiles_iff.mp h.inv.parts.tiles

/-- Every live block has the order found for its layout. -/
theorem live_order (h : Refines R c m) {b : Nat × Layout} (hb : b ∈ c.live) :
    orderForSize (max b.2.size b.2.align) = some (blockOrder b.2) := by
  obtain ⟨k, hk, _⟩ := h.inv.live_order b (h.live_eq ▸ hb)
  rw [blockOrder_eq hk, hk]

/-- A permitted action returns. -/
theorem step_isSome (h : Refines R c m) {a : Action} (hok : permitted c.live a) :
    (c.step a).isSome := by
  obtain ⟨c', hc', _⟩ := h.act hok
  exact Option.isSome_iff_exists.mpr ⟨c', Machine.step_eq_some.mpr ⟨hok, hc'⟩⟩

end Refines

/-- `init` returns on every heap range, and in every reachable state every permitted
call returns and the blocks on all free lists together with the live blocks are
pairwise disjoint and cover exactly the whole minimum blocks of the range. -/
theorem heap_partition (R : HeapRange) :
    (∀ mem, (R.boot mem).isSome) ∧
    ∀ c, R.Reachable c →
      (∀ a, permitted c.live a → (c.step a).isSome) ∧
      (∀ b ∈ c.live, orderForSize (max b.2.size b.2.align) = some (blockOrder b.2)) ∧
      ∃ free : Nat → List Nat, (∀ k ∈ orders, c.heap.freeList k = some (free k)) ∧
        (freeSpans free ++ c.live.map liveSpan).Pairwise Span.Disjoint ∧
        ∀ x, (∃ b ∈ freeSpans free ++ c.live.map liveSpan, x ∈ b) ↔
          R.start ≤ x ∧ x < R.start + 64 * (R.size / 64) := by
  constructor
  · intro mem
    obtain ⟨c, hc, _⟩ := Refines.boot R mem
    rw [hc]
    rfl
  · intro c hreach
    obtain ⟨acts, m, _, href⟩ := hreach.refines
    refine ⟨fun a hok => href.step_isSome hok, fun b hb => href.live_order hb,
      m.heap.lists, fun k hk => href.freeList hk, ?_⟩
    exact href.partition

/-- A live and a free block of the kernel heap, side by side. -/
theorem heap_partition_kernelHeap :
    ∃ c, kernelHeap.after [.alloc .word] = some c ∧
      ∃ free : Nat → List Nat, (∀ k ∈ orders, c.heap.freeList k = some (free k)) ∧
        (freeSpans free ++ c.live.map liveSpan).Pairwise Span.Disjoint ∧
        ∀ x, (∃ b ∈ freeSpans free ++ c.live.map liveSpan, x ∈ b) ↔
          kernelHeap.start ≤ x ∧ x < kernelHeap.start + 64 * (kernelHeap.size / 64) := by
  have hrun : (kernelHeap.after [.alloc .word]).isSome := by decide +kernel
  obtain ⟨c, hc⟩ := Option.isSome_iff_exists.mp hrun
  exact ⟨c, hc, ((heap_partition kernelHeap).2 c (HeapRange.reachable_after hc)).2.2⟩

/-- Every run from any initial memory goes along with the run of the list-based
allocator. After it every free list is a null-terminated chain without duplicates
holding the abstract list in order, the next `alloc` returns the same pointer, and
a call changes no byte of a block that is live before and after. -/
theorem heap_refines_lists (R : HeapRange) (mem : ByteMemory) :
    ∃ c₀, R.boot mem = some c₀ ∧ ∀ acts c, c₀.run acts = some c →
      ∃ m, R.bootListed.run acts = some m ∧ c.live = m.live ∧
        (∀ k ∈ orders, c.heap.freeList k = some (m.heap.lists k) ∧ (m.heap.lists k).Nodup) ∧
        (∀ layout, (c.heap.alloc layout).1 = (m.heap.alloc layout).1) ∧
        ∀ a, permitted c.live a → ∃ c', c.step a = some c' ∧
          (a.IsCall → ∀ b ∈ c.live, b ∈ c'.live → ∀ x, x ∈ liveSpan b →
            c'.heap.mem x = c.heap.mem x) := by
  obtain ⟨c₀, hboot, href₀⟩ := Refines.boot R mem
  refine ⟨c₀, hboot, fun acts c hrun => ?_⟩
  obtain ⟨m, hm, href⟩ := href₀.run hrun
  refine ⟨m, hm, href.live_eq, fun k hk => ⟨href.freeList hk, href.inv.parts.nodup k⟩, ?_, ?_⟩
  · intro layout
    obtain ⟨t, ht, _⟩ :=
      href.represents.alloc href.inv.parts R.start_pos R.stop_le href.initialized layout
    rw [ht]
  · intro a hok
    obtain ⟨c', hc', _, hframe⟩ := href.act hok
    exact ⟨c', Machine.step_eq_some.mpr ⟨hok, hc'⟩, hframe⟩

/-- A run of the kernel heap that writes to a live block, followed by another `alloc`. -/
theorem heap_refines_lists_kernelHeap :
    ∃ c₀ c m c', kernelHeap.boot (fun _ => 0) = some c₀ ∧
      c₀.run [.alloc .word, .write 0x44444a800003 7] = some c ∧
      kernelHeap.bootListed.run [.alloc .word, .write 0x44444a800003 7] = some m ∧
      c.step (.alloc .word) = some c' ∧
      (∀ k ∈ orders, c.heap.freeList k = some (m.heap.lists k) ∧ (m.heap.lists k).Nodup) ∧
      ∀ b ∈ c.live, b ∈ c'.live → ∀ x, x ∈ liveSpan b → c'.heap.mem x = c.heap.mem x := by
  have hafter : (kernelHeap.after [.alloc .word, .write 0x44444a800003 7]).isSome := by
    decide +kernel
  obtain ⟨c, hc⟩ := Option.isSome_iff_exists.mp hafter
  obtain ⟨c₁, hboot₁, hrun⟩ := HeapRange.after_eq_some.mp hc
  obtain ⟨c₀, hboot, hall⟩ := heap_refines_lists kernelHeap fun _ => 0
  obtain rfl : c₀ = c₁ := Option.some.inj (hboot.symm.trans hboot₁)
  obtain ⟨m, hm, _, hlists, _, hstep⟩ := hall _ c hrun
  obtain ⟨c', hc', hframe⟩ := hstep (.alloc .word) trivial
  exact ⟨c₀, c, m, c', hboot, hrun, hm, hc', hlists, hframe trivial⟩

end SillOS.Buddy

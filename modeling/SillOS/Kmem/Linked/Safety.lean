import SillOS.Kmem.Linked.Refinement

/-!
# The linked-list heap is safe

What the refinement says about the allocator itself: every call returns, free
regions and live blocks are disjoint and inside the heap, pointers meet their
alignment, and no request fails while a region fits it.
-/

namespace SillOS.Linked

open ByteMemory Tiling
open Buddy (Action)

/-- A heap range of sixteen nodes. -/
def nodesHeap : HeapRange where
  start := 4096
  size := 256
  aligned := by decide
  start_ne := by decide
  size_ge := by decide
  end_le := by decide

namespace Refines

variable {R : HeapRange} {c : Machine} {m : RegionMachine}

/-- Every live block ends in the lower half, so its layout can be adjusted again. -/
theorem live_size (h : Refines R c m) {b : Nat × Layout} (hb : b ∈ c.live) :
    (adjustLayout b.2).map Layout.size = some (liveSpan b).size := by
  have hnode : 16 ≤ blockSize b.2 := blockSize_ge b.2
  have hmem : b ∈ m.live := h.live_eq ▸ hb
  have hbounds := h.inv.parts.packs.bounds
    (List.mem_append_right m.free (List.mem_map_of_mem hmem)) (Nat.lt_of_lt_of_le (by decide) hnode)
  have hstop := R.stop_le
  have hstart := R.start_pos
  simp only [liveSpan] at hbounds
  obtain ⟨adjusted, hadjust⟩ :=
    adjustLayout_isSome (by omega) (h.inv.live_aligned b hmem) (by omega)
  rw [hadjust, Option.map_some, (adjustLayout_eq_some.mp hadjust).1, liveSpan]

/-- A returned pointer is aligned, and null only if no region fits. -/
theorem alloc_result (h : Refines R c m) (layout : Layout) :
    ∃ ptr heap, c.heap.alloc layout = some (ptr, heap) ∧ layout.align ∣ ptr ∧
      (ptr = 0 → ∀ r ∈ m.free, ¬Fits layout r) := by
  rcases h.alloc_cases layout with ⟨hnone, -, halloc⟩ |
    ⟨pre, r, post, t, -, -, -, -, halloc, hne, -⟩
  · exact ⟨0, c.heap, halloc, Nat.dvd_zero _, fun _ => hnone⟩
  · refine ⟨startIn layout r, t, halloc, ?_, fun h0 => absurd h0 hne⟩
    exact Nat.dvd_trans (align_dvd_blockAlign layout) (blockAlign_dvd_startIn layout r)

end Refines

/-- `init` returns on every heap range. In every reachable state every permitted call returns;
the free regions and the live blocks, each of its adjusted size, are pairwise disjoint and inside
the heap; every free region holds a node; a pointer returned by `alloc` is a multiple of the
alignment, and null only if no free region fits. -/
theorem heap_safety (R : HeapRange) :
    (∀ mem, (R.boot mem).isSome) ∧
    ∀ c, R.Reachable c →
      (∀ a, permitted c.live a → (c.step a).isSome) ∧
      (∀ b ∈ c.live, (adjustLayout b.2).map Layout.size = some (liveSpan b).size) ∧
      ∃ free, c.heap.freeRegions = some free ∧
        (free ++ c.live.map liveSpan).Pairwise Span.Disjoint ∧
        (∀ b ∈ free ++ c.live.map liveSpan,
          R.start ≤ b.start ∧ b.start + b.size ≤ R.start + R.size) ∧
        (∀ r ∈ free, 16 ≤ r.size) ∧
        ∀ layout, ∃ ptr heap, c.heap.alloc layout = some (ptr, heap) ∧ layout.align ∣ ptr ∧
          (ptr = 0 → ∀ r ∈ free, ¬Fits layout r) := by
  constructor
  · intro mem
    obtain ⟨c, hc, -⟩ := Refines.boot R mem
    rw [hc]
    rfl
  · rintro c ⟨mem, c₀, acts, hboot, hrun⟩
    obtain ⟨m, href⟩ := HeapRange.refines_run hboot hrun
    have hparts := href.inv.parts
    refine ⟨fun a hok => ?_, fun b hb => href.live_size hb, m.free, href.freeRegions, ?_, ?_,
      hparts.node_le, href.alloc_result⟩
    · obtain ⟨c', hc', -⟩ := href.act hok
      exact Option.isSome_iff_exists.mpr ⟨c', Machine.step_eq_some.mpr ⟨hok, hc'⟩⟩
    · rw [href.live_eq]
      exact (packs_iff.mp hparts.packs).1
    · intro b hb
      rw [href.live_eq] at hb
      refine hparts.packs.bounds hb ?_
      rcases List.mem_append.mp hb with hb | hb
      · exact Nat.lt_of_lt_of_le (by decide) (hparts.node_le b hb)
      · obtain ⟨l, -, rfl⟩ := List.mem_map.mp hb
        exact Nat.lt_of_lt_of_le (by decide) (blockSize_ge l.2)

/-- Two live blocks, one of them aligned beyond its start, and a free region behind them. -/
theorem heap_safety_nodesHeap :
    ∃ c, nodesHeap.after [.alloc (.bytes 4), .alloc (.block 5)] = some c ∧
      ∃ free, c.heap.freeRegions = some free ∧
        (free ++ c.live.map liveSpan).Pairwise Span.Disjoint ∧
        ∀ r ∈ free, 16 ≤ r.size := by
  have hrun : (nodesHeap.after [.alloc (.bytes 4), .alloc (.block 5)]).isSome := by
    decide +kernel
  obtain ⟨c, hc⟩ := Option.isSome_iff_exists.mp hrun
  obtain ⟨-, -, free, hfree, hdisjoint, -, hnode, -⟩ :=
    (heap_safety nodesHeap).2 c (HeapRange.reachable_after hc)
  exact ⟨c, hc, free, hfree, hdisjoint, hnode⟩

/-- A call changes no byte of a block that is live before and after it. -/
theorem heap_bytes_kept {R : HeapRange} {c c' : Machine} {a : Action} (hreach : R.Reachable c)
    (hstep : c.step a = some c') (hcall : ∀ addr byte, a ≠ .write addr byte) {b : Nat × Layout}
    (hb : b ∈ c.live) (hb' : b ∈ c'.live) {x : Nat} (hx : x ∈ liveSpan b) :
    c'.heap.mem x = c.heap.mem x := by
  obtain ⟨mem, c₀, acts, hboot, hrun⟩ := hreach
  obtain ⟨m, href⟩ := HeapRange.refines_run hboot hrun
  obtain ⟨hok, hact⟩ := Machine.step_eq_some.mp hstep
  obtain ⟨d, hd, -, hframe⟩ := href.act hok
  obtain rfl := Option.some_inj.mp (hd.symm.trans hact)
  exact hframe hcall b hb hb' x hx

end SillOS.Linked

import SillOS.Kmem.Buddy.Partition

/-!
# Runs of the list-based allocator

The abstract allocator under the same actions as the real one. Its invariant is
the partition of the heap into free and live blocks; what a step can do is said
once, and the invariant is derived from that.
-/

namespace SillOS.Buddy

open Tiling

/-- The list-based allocator with the allocations that have not been freed. -/
structure ListedMachine where
  /-- The free lists. -/
  heap : ListedBuddy
  /-- Pointer and layout of every live allocation. -/
  live : List (Nat × Layout)

namespace ListedMachine

/-- The effect of an action. Writes inside live blocks are invisible here. -/
def act (m : ListedMachine) : Action → ListedMachine
  | .alloc layout =>
    let (ptr, heap) := m.heap.alloc layout
    ⟨heap, liveAfterAlloc m.live ptr layout⟩
  | .dealloc ptr layout => ⟨m.heap.dealloc ptr layout, m.live.erase (ptr, layout)⟩
  | .write _ _ => m

/-- One permitted action. -/
def step (m : ListedMachine) (a : Action) : Option ListedMachine :=
  if permitted m.live a then some (m.act a) else none

/-- Run a sequence of actions. -/
def run (m : ListedMachine) (acts : List Action) : Option ListedMachine :=
  Transition.run step m acts

end ListedMachine

/-- The list-based machine right after `init`. -/
def HeapRange.bootListed (R : HeapRange) : ListedMachine := ⟨R.seeded, []⟩

/-- Free and live blocks partition the heap range. -/
structure ListedMachine.Inv (R : HeapRange) (m : ListedMachine) : Prop where
  /-- The largest order is the one computed from the heap size. -/
  maxOrder_eq : m.heap.maxOrder = R.maxOrder
  /-- Free and live blocks tile the range. -/
  parts : Parts m.heap (m.live.map liveSpan) R.start R.stop
  /-- Every live block has an order of this heap. -/
  live_order : ∀ b ∈ m.live, ∃ k, orderForSize (max b.2.size b.2.align) = some k ∧ k ≤ R.maxOrder

/-- A heap does not start at null. -/
theorem HeapRange.start_pos (R : HeapRange) : 0 < R.start := Nat.pos_of_ne_zero R.start_ne

/-- It ends below half of the address space. -/
theorem HeapRange.stop_le (R : HeapRange) : R.stop ≤ 2 ^ 63 := by
  have h := R.end_le
  have hdiv := Nat.div_mul_le_self R.size 64
  unfold HeapRange.stop
  omega

/-- The order of a block is that of its layout. -/
theorem blockOrder_eq {layout : Layout} {k : Nat}
    (h : orderForSize (max layout.size layout.align) = some k) : blockOrder layout = k := by
  rw [blockOrder, h]
  rfl

/-- A live block spans a block of its order. -/
theorem liveSpan_eq {ptr k : Nat} {layout : Layout}
    (h : orderForSize (max layout.size layout.align) = some k) :
    liveSpan (ptr, layout) = blockSpan k ptr := by rw [liveSpan, blockOrder_eq h]

namespace ListedMachine

variable {R : HeapRange} {m m' : ListedMachine}

/-- A step is a permitted action. -/
theorem step_eq_some {a : Action} : m.step a = some m' ↔ permitted m.live a ∧ m.act a = m' := by
  rw [step, Option.ite_none_right_eq_some, Option.some_inj]

/-- A fresh heap meets the invariant. -/
theorem inv_boot (R : HeapRange) : R.bootListed.Inv R where
  maxOrder_eq := R.seeded_parts.2
  parts := R.seeded_parts.1
  live_order b hb := by simp [HeapRange.bootListed] at hb

/-- Taking a live block out of the live blocks. -/
theorem Inv.live_parts (h : m.Inv R) {ptr k : Nat} {layout : Layout}
    (hmem : (ptr, layout) ∈ m.live)
    (horder : orderForSize (max layout.size layout.align) = some k) :
    Parts m.heap (blockSpan k ptr :: (m.live.erase (ptr, layout)).map liveSpan) R.start R.stop := by
  refine h.parts.perm ?_
  have hp := (List.perm_cons_erase hmem).map liveSpan
  rw [List.map_cons, liveSpan_eq horder] at hp
  exact hp.symm

/-- What one step can do: fail to allocate, hand out a block, free a block, or
write into a live block. -/
theorem step_cases (h : m.Inv R) {a : Action} (hstep : m.step a = some m') :
    (∃ layout, a = .alloc layout ∧ m.heap.alloc layout = (0, m.heap) ∧ m' = m) ∨
    (∃ layout k addr B, a = .alloc layout ∧
      orderForSize (max layout.size layout.align) = some k ∧
      m.heap.allocateOrder k = (some addr, B) ∧ m.heap.alloc layout = (addr, B) ∧ addr ≠ 0 ∧
      m' = ⟨B, (addr, layout) :: m.live⟩) ∨
    (∃ ptr layout k addr order B, a = .dealloc ptr layout ∧ (ptr, layout) ∈ m.live ∧
      orderForSize (max layout.size layout.align) = some k ∧ k ≤ R.maxOrder ∧
      m.heap.merge ptr k = (addr, order, B) ∧
      m' = ⟨B.push addr order, m.live.erase (ptr, layout)⟩) ∨
    (∃ addr byte, a = .write addr byte ∧ (∃ b ∈ m.live, addr ∈ liveSpan b) ∧ m' = m) := by
  obtain ⟨hpermitted, hstep⟩ := step_eq_some.mp hstep
  cases a with
  | alloc layout =>
    rcases m.heap.alloc_cases layout with ⟨ha, _⟩ | ⟨k, addr, B, horder, hA, ha⟩
    · simp only [act, ha, liveAfterAlloc, if_true] at hstep
      exact Or.inl ⟨layout, rfl, ha, hstep.symm⟩
    · obtain ⟨hparts, _, _⟩ := h.parts.allocateOrder (orderForSize_spec horder).1 hA
      have hne : addr ≠ 0 := by
        have hlo := (hparts.tiles.bounds (List.mem_append_right _ List.mem_cons_self)
          (Parts.start_mem k addr)).1
        have := R.start_pos
        omega
      simp only [act, ha, liveAfterAlloc, if_neg hne] at hstep
      exact Or.inr (Or.inl ⟨layout, k, addr, B, rfl, horder, hA, ha, hne, hstep.symm⟩)
  | dealloc ptr layout =>
    obtain ⟨k, horder, hk⟩ := h.live_order _ hpermitted
    dsimp only at horder
    rcases hm : m.heap.merge ptr k with ⟨addr, order, B⟩
    simp only [act, ListedBuddy.dealloc, horder, hm] at hstep
    exact Or.inr (Or.inr (Or.inl
      ⟨ptr, layout, k, addr, order, B, rfl, hpermitted, horder, hk, hm, hstep.symm⟩))
  | write addr byte =>
    exact Or.inr (Or.inr (Or.inr ⟨addr, byte, rfl, hpermitted, hstep.symm⟩))

/-- Every step keeps free and live blocks a partition. -/
theorem Inv.step (h : m.Inv R) {a : Action} (hstep : m.step a = some m') : m'.Inv R := by
  rcases step_cases h hstep with ⟨layout, rfl, _, rfl⟩ |
    ⟨layout, k, addr, B, rfl, horder, hA, _, _, rfl⟩ |
    ⟨ptr, layout, k, addr, order, B, rfl, hmem, horder, hk, hm, rfl⟩ | ⟨_, _, rfl, _, rfl⟩
  · exact h
  · obtain ⟨hparts, hmax, hle⟩ := h.parts.allocateOrder (orderForSize_spec horder).1 hA
    refine ⟨hmax.trans h.maxOrder_eq, ?_, fun b hb => ?_⟩
    · rw [List.map_cons, liveSpan_eq horder]
      exact hparts
    · rcases List.mem_cons.mp hb with rfl | hb
      · exact ⟨k, horder, h.maxOrder_eq ▸ hle⟩
      · exact h.live_order b hb
  · have hmin := (orderForSize_spec horder).1
    obtain ⟨hparts, hmax, ⟨hlo, hhi⟩, _⟩ :=
      (h.live_parts hmem horder).merge ⟨hmin, h.maxOrder_eq ▸ hk⟩ hm
    exact ⟨hmax.trans h.maxOrder_eq, hparts.push ⟨hlo, hmax ▸ hhi⟩,
      fun b hb => h.live_order b (List.mem_of_mem_erase hb)⟩
  · exact h

/-- Every run keeps the invariant. -/
theorem Inv.run (h : m.Inv R) {acts : List Action} (hrun : m.run acts = some m') : m'.Inv R :=
  Transition.run_invariant (fun _ _ _ hs hstep => Inv.step hs hstep) h hrun

end ListedMachine

end SillOS.Buddy

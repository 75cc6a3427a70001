import SillOS.Kmem.Buddy.Confluence

/-!
# Moving and zeroing blocks

The heap gives the language `alloc` and `dealloc`. The language builds two more
calls from them: one that moves a block to another size and one that hands out
zeroed memory. Both are runs of permitted actions, so they keep the heap intact,
and a block that is moved keeps its bytes.
-/

namespace SillOS.Buddy

open ByteMemory Tiling

/-- `ptr::copy_nonoverlapping`. -/
def copyNonoverlapping (mem : ByteMemory) (src dst count : Nat) : ByteMemory :=
  storeBytes mem dst (loadBytes mem src count)

/-- `GlobalAlloc::realloc`; `none` is a size that breaks its contract, or a `dealloc` that
does not return. -/
def BuddyState.realloc (s : BuddyState) (ptr : Nat) (layout : Layout) (newSize : Nat) :
    Option (Nat × BuddyState) :=
  (Layout.fromSizeAlign newSize layout.align).bind fun newLayout =>
    let (newPtr, s) := s.alloc newLayout
    if newPtr = 0 then some (newPtr, s)
    else
      let s := { s with mem := copyNonoverlapping s.mem ptr newPtr (min layout.size newSize) }
      (s.dealloc ptr layout).map fun s => (newPtr, s)

/-- `GlobalAlloc::alloc_zeroed`. -/
def BuddyState.allocZeroed (s : BuddyState) (layout : Layout) : Nat × BuddyState :=
  let (ptr, s) := s.alloc layout
  if ptr = 0 then (ptr, s)
  else (ptr, { s with mem := storeBytes s.mem ptr (List.replicate layout.size 0) })

section Writes

/-- The writes of some bytes. -/
def writes (addr : Nat) : List UInt8 → List Action
  | [] => []
  | byte :: bytes => .write addr byte :: writes (addr + 1) bytes

/-- Writing bytes into a live block is a run. -/
theorem run_writes {c : Machine} {b : Nat × Layout} (hb : b ∈ c.live) (addr : Nat)
    (bytes : List UInt8) (hin : ∀ i, i < bytes.length → addr + i ∈ liveSpan b) :
    c.run (writes addr bytes) =
      some ⟨{ c.heap with mem := storeBytes c.heap.mem addr bytes }, c.live⟩ := by
  induction bytes generalizing c addr with
  | nil => rfl
  | cons byte bytes ih =>
    have hstep : c.step (.write addr byte) =
        some ⟨{ c.heap with mem := storeByte c.heap.mem addr byte }, c.live⟩ :=
      if_pos ⟨b, hb, hin 0 (Nat.succ_pos _)⟩
    refine Transition.run_cons_eq_some.mpr ⟨_, hstep, ?_⟩
    refine ih (c := ⟨{ c.heap with mem := storeByte c.heap.mem addr byte }, c.live⟩) hb (addr + 1)
      fun i hi => ?_
    have hmem := hin (i + 1) (Nat.succ_lt_succ hi)
    rwa [show addr + 1 + i = addr + (i + 1) by omega]

end Writes

section Moving

variable {R : HeapRange} {c c' : Machine}

/-- A run goes on from a reachable state. -/
theorem HeapRange.Reachable.run (h : R.Reachable c) {acts : List Action}
    (hrun : c.run acts = some c') : R.Reachable c' := by
  obtain ⟨mem, m₀, before, hboot, hbefore⟩ := h
  refine ⟨mem, m₀, before ++ acts, hboot, ?_⟩
  rw [Machine.run, Transition.run_append]
  exact Option.bind_eq_some_iff.mpr ⟨c, hbefore, hrun⟩

/-- A step leads to a reachable state. -/
theorem HeapRange.Reachable.step (h : R.Reachable c) {a : Action} (hstep : c.step a = some c') :
    R.Reachable c' :=
  have hrun : c.run [a] = some c' := Transition.run_cons_eq_some.mpr ⟨c', hstep, rfl⟩
  h.run hrun

/-- A permitted call returns and leaves the bytes of blocks alone that stay live. -/
theorem HeapRange.Reachable.call (h : R.Reachable c) {a : Action} (hok : permitted c.live a)
    (hcall : a.IsCall) : ∃ c', c.act a = some c' ∧ R.Reachable c' ∧
      ∀ b ∈ c.live, b ∈ c'.live → ∀ x, x ∈ liveSpan b → c'.heap.mem x = c.heap.mem x := by
  obtain ⟨acts, m, _, href⟩ := h.refines
  obtain ⟨c', hact, _, hframe⟩ := href.act hok
  exact ⟨c', hact, h.step (Machine.step_eq_some.mpr ⟨hok, hact⟩), hframe hcall⟩

/-- The bytes that were asked for are in the block. -/
theorem HeapRange.Reachable.mem_liveSpan (h : R.Reachable c) {ptr : Nat} {layout : Layout}
    (hlive : (ptr, layout) ∈ c.live) {i : Nat} (hi : i < layout.size) :
    ptr + i ∈ liveSpan (ptr, layout) := by
  obtain ⟨acts, m, _, href⟩ := h.refines
  obtain ⟨k, horder, -⟩ := href.inv.live_order _ (href.live_eq ▸ hlive)
  have hsize : max layout.size layout.align ≤ 2 ^ k := (orderForSize_spec horder).2.2.1
  rw [liveSpan_eq horder]
  refine ⟨Nat.le_add_right _ _, ?_⟩
  dsimp only [blockSpan]
  omega

/-- Distinct live blocks share no byte, and a block is live once. -/
theorem HeapRange.Reachable.pairwise (h : R.Reachable c) :
    c.live.Pairwise fun b b' => (liveSpan b).Disjoint (liveSpan b') := by
  obtain ⟨acts, m, _, href⟩ := h.refines
  exact List.pairwise_map.mp (List.pairwise_append.mp href.partition.1).2.1

/-- `alloc` in a reachable state: null, or the pointer of a block that no live block meets. -/
theorem HeapRange.Reachable.alloc (h : R.Reachable c) (layout : Layout) :
    R.Reachable ⟨(c.heap.alloc layout).2, liveAfterAlloc c.live (c.heap.alloc layout).1 layout⟩ ∧
      ∀ b ∈ c.live, ∀ x, x ∈ liveSpan b → (c.heap.alloc layout).2.mem x = c.heap.mem x := by
  obtain ⟨c', hact, hreach, hframe⟩ := h.call (a := .alloc layout) trivial trivial
  obtain rfl : ⟨(c.heap.alloc layout).2, liveAfterAlloc c.live (c.heap.alloc layout).1 layout⟩ =
    c' := Option.some.inj hact
  refine ⟨hreach, fun b hb => hframe b hb ?_⟩
  dsimp only [liveAfterAlloc]
  split_ifs
  · exact hb
  · exact List.mem_cons_of_mem _ hb

/-- The owner of the youngest block fills it, which leaves all others alone. -/
theorem HeapRange.Reachable.fill {heap : BuddyState} {live : List (Nat × Layout)} {ptr : Nat}
    {layout : Layout} (h : R.Reachable ⟨heap, (ptr, layout) :: live⟩) {bytes : List UInt8}
    (hlen : bytes.length ≤ layout.size) :
    R.Reachable ⟨{ heap with mem := storeBytes heap.mem ptr bytes }, (ptr, layout) :: live⟩ ∧
      ∀ b ∈ live, ∀ x, x ∈ liveSpan b → storeBytes heap.mem ptr bytes x = heap.mem x := by
  have hnew : (ptr, layout) ∈ (ptr, layout) :: live := List.mem_cons_self
  have hin : ∀ i, i < layout.size → ptr + i ∈ liveSpan (ptr, layout) := fun i hi =>
    h.mem_liveSpan hnew hi
  refine ⟨h.run (run_writes hnew ptr bytes fun i hi => hin i (by omega)), fun b hb x hx => ?_⟩
  refine storeBytes_of_not_mem fun hfilled => ?_
  have hx' := hin (x - ptr) (by omega)
  rw [Nat.add_sub_cancel' hfilled.1] at hx'
  exact (List.pairwise_cons.mp h.pairwise).1 b hb x hx' hx

/-- Moving a live block to another size returns. The result is reached by calls and
writes that the block's owner may make: the old block stays live if there is no memory;
otherwise it is freed, and the new one, which no live block meets, has its bytes as far as
both sizes go. The bytes of all other live blocks stay. -/
theorem realloc_keeps_bytes (R : HeapRange) (hreach : R.Reachable c) {ptr newSize : Nat}
    {layout newLayout : Layout} (hlive : (ptr, layout) ∈ c.live)
    (hnew : Layout.fromSizeAlign newSize layout.align = some newLayout) :
    ∃ newPtr heap, c.heap.realloc ptr layout newSize = some (newPtr, heap) ∧
      (newPtr = 0 → R.Reachable ⟨heap, c.live⟩ ∧
        ∀ b ∈ c.live, ∀ x, x ∈ liveSpan b → heap.mem x = c.heap.mem x) ∧
      (newPtr ≠ 0 →
        R.Reachable ⟨heap, ((newPtr, newLayout) :: c.live).erase (ptr, layout)⟩ ∧
        (∀ b ∈ c.live, (liveSpan (newPtr, newLayout)).Disjoint (liveSpan b)) ∧
        (∀ i, i < min layout.size newSize → heap.mem (newPtr + i) = c.heap.mem (ptr + i)) ∧
        ∀ b ∈ c.live.erase (ptr, layout), ∀ x, x ∈ liveSpan b →
          heap.mem x = c.heap.mem x) := by
  obtain ⟨hsize, -⟩ := Layout.fromSizeAlign_eq_some.mp hnew
  obtain ⟨halloc, hkeep⟩ := hreach.alloc newLayout
  rw [BuddyState.realloc, hnew, Option.bind_some]
  generalize c.heap.alloc newLayout = result at halloc hkeep ⊢
  obtain ⟨newPtr, t⟩ := result
  dsimp only at halloc hkeep ⊢
  by_cases hnull : newPtr = 0
  · rw [liveAfterAlloc, if_pos hnull] at halloc
    exact ⟨newPtr, t, if_pos hnull, fun _ => ⟨halloc, hkeep⟩, fun hne => absurd hnull hne⟩
  · rw [liveAfterAlloc, if_neg hnull] at halloc
    have hapart := (List.pairwise_cons.mp halloc.pairwise).1
    have hnewlive : (newPtr, newLayout) ∈ (newPtr, newLayout) :: c.live := List.mem_cons_self
    have hne : (newPtr, newLayout) ≠ (ptr, layout) := by
      intro heq
      have hmem := Parts.start_mem (blockOrder newLayout) newPtr
      exact hapart _ hlive newPtr hmem (heq ▸ hmem)
    have hlen : (loadBytes t.mem ptr (min layout.size newSize)).length ≤ newLayout.size := by
      rw [loadBytes, List.length_map, List.length_range]
      omega
    -- The copy fills the front of the new block.
    obtain ⟨hcopy, hcopied⟩ := halloc.fill hlen
    obtain ⟨d, hact, hdone, hframe⟩ :=
      hcopy.call (a := .dealloc ptr layout) (List.mem_cons_of_mem _ hlive) trivial
    obtain ⟨heap, hdealloc, rfl⟩ := Option.map_eq_some_iff.mp hact
    dsimp only at hdealloc hdone hframe
    refine ⟨newPtr, heap, ?_, fun h0 => absurd h0 hnull, fun _ => ⟨hdone, hapart, ?_, ?_⟩⟩
    · rw [if_neg hnull, copyNonoverlapping, hdealloc]
      rfl
    · intro i hi
      have hin := halloc.mem_liveSpan hnewlive (show i < newLayout.size by omega)
      have hold := hreach.mem_liveSpan hlive (show i < layout.size by omega)
      rw [hframe _ hnewlive ((List.mem_erase_of_ne hne).mpr hnewlive) _ hin,
        storeBytes_loadBytes hi, hkeep _ hlive _ hold]
    · intro b hb x hx
      have hbl : b ∈ c.live := List.mem_of_mem_erase hb
      have hbe : b ∈ ((newPtr, newLayout) :: c.live).erase (ptr, layout) := by
        rw [List.erase_cons_tail (by simpa using hne)]
        exact List.mem_cons_of_mem _ hb
      rw [hframe b (List.mem_cons_of_mem _ hbl) hbe x hx, hcopied b hbl x hx, hkeep b hbl x hx]

/-- Zeroed memory is a fresh block of zeros, and the other live blocks keep their bytes. -/
theorem allocZeroed_zeroes (hreach : R.Reachable c) (layout : Layout) :
    let ptr := (c.heap.allocZeroed layout).1
    let heap := (c.heap.allocZeroed layout).2
    R.Reachable ⟨heap, liveAfterAlloc c.live ptr layout⟩ ∧
      (ptr ≠ 0 → ∀ i, i < layout.size → heap.mem (ptr + i) = 0) ∧
      ∀ b ∈ c.live, ∀ x, x ∈ liveSpan b → heap.mem x = c.heap.mem x := by
  obtain ⟨halloc, hkeep⟩ := hreach.alloc layout
  rw [BuddyState.allocZeroed]
  generalize c.heap.alloc layout = result at halloc hkeep ⊢
  obtain ⟨ptr, t⟩ := result
  dsimp only at halloc hkeep ⊢
  by_cases hnull : ptr = 0
  · rw [if_pos hnull]
    exact ⟨halloc, fun hne => absurd hnull hne, hkeep⟩
  · rw [if_neg hnull]
    rw [liveAfterAlloc, if_neg hnull] at halloc ⊢
    obtain ⟨hzero, hzeroed⟩ := halloc.fill (Nat.le_of_eq (List.length_replicate (a := 0)))
    refine ⟨hzero, fun _ i hi => ?_, fun b hb x hx => ?_⟩
    · dsimp only
      rw [storeBytes_apply, if_pos (Nat.le_add_right _ _), Nat.add_sub_cancel_left,
        List.getElem?_replicate, if_pos hi]
      rfl
    · exact (hzeroed b hb x hx).trans (hkeep b hb x hx)

end Moving

/-- A word of the kernel heap that is moved to a hundred bytes. -/
theorem realloc_keeps_bytes_kernelHeap :
    ∃ c heap, kernelHeap.after [.alloc .word, .write 0x44444a800003 7] = some c ∧
      c.heap.realloc 0x44444a800000 .word 100 = some (0x44444a800080, heap) ∧
      heap.mem 0x44444a800083 = 7 := by
  have hafter : ((kernelHeap.after [.alloc .word, .write 0x44444a800003 7]).bind fun c =>
      (c.heap.realloc 0x44444a800000 .word 100).map fun r =>
        (c.live, c.heap.mem 0x44444a800003, r.1)) =
      some ([(0x44444a800000, .word)], 7, 0x44444a800080) := by decide +kernel
  obtain ⟨c, hc, hrest⟩ := Option.bind_eq_some_iff.mp hafter
  obtain ⟨⟨newPtr, heap⟩, hrealloc, heq⟩ := Option.map_eq_some_iff.mp hrest
  simp only [Prod.mk.injEq] at heq
  obtain ⟨hlive, hbyte, rfl⟩ := heq
  obtain ⟨newLayout, hnew⟩ : ∃ l, Layout.fromSizeAlign 100 Layout.word.align = some l :=
    ⟨_, dif_pos ⟨Layout.word.align_pow, by decide⟩⟩
  obtain ⟨p, t, hrealloc', -, hmoved⟩ := realloc_keeps_bytes kernelHeap
    (HeapRange.reachable_after hc) (by rw [hlive]; exact List.mem_cons_self) hnew
  obtain ⟨rfl, rfl⟩ := Prod.mk.inj (Option.some.inj (hrealloc.symm.trans hrealloc'))
  refine ⟨c, heap, hc, hrealloc, ?_⟩
  rw [← hbyte]
  exact (hmoved (by decide)).2.2.1 3 (by decide)

end SillOS.Buddy

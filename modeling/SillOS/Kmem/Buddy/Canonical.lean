import SillOS.Core.Dyadic
import SillOS.Kmem.Buddy.Alignment

/-!
# What the free lists hold, read off the live blocks

The free blocks of a reachable heap are a coalesced family of aligned ranges up
to the alignment of the heap start. The free lists of these orders are therefore
a function of the live blocks: neither the contents of memory nor the calls that
led to the state leave a trace in them.
-/

namespace SillOS.Buddy

open Tiling TwoPow

/-- The block lies in the seeded memory and meets no live block. -/
def HeapRange.BlockFree (R : HeapRange) (live : List (Nat × Layout)) (k a : Nat) : Prop :=
  R.start ≤ a ∧ a + 2 ^ k ≤ R.stop ∧ ∀ b ∈ live, (blockSpan k a).Disjoint (liveSpan b)

/-- An aligned free block that is on its own: the other half of its pair is in use,
in part or as a whole, or outside the seeded memory. -/
structure HeapRange.Lone (R : HeapRange) (live : List (Nat × Layout)) (k a : Nat) : Prop where
  /-- The block is aligned to its size. -/
  dvd : 2 ^ k ∣ a
  /-- The block is free. -/
  free : R.BlockFree live k a
  /-- Its other half is not, unless there is no larger order. -/
  other : k < R.maxOrder → ¬R.BlockFree live k (a ^^^ 2 ^ k)

namespace ListedMachine

variable {R : HeapRange} {m : ListedMachine} {d : Nat}

/-- The free blocks of a tidy heap are a coalesced family. -/
theorem Tidy.family (h : m.Tidy R d) :
    Coalesced (fun k a => a ∈ m.heap.lists k) d R.maxOrder where
  order_le ha := h.inv.maxOrder_eq ▸ (h.inv.parts.order_bounds ha).2
  dvd ha := h.aligned.free _ _ ha
  unique hb hc hbx hxb hcx hxc := h.inv.parts.block_unique hb hc ⟨hbx, hxb⟩ ⟨hcx, hxc⟩
  single ha hd hlt := h.coalesced _ hd (h.inv.maxOrder_eq ▸ hlt) _ ha

/-- The free lists cover what lies in the heap and in no live block. -/
theorem Inv.covered_iff (h : m.Inv R) {k a : Nat} :
    Covered (fun k a => a ∈ m.heap.lists k) k a ↔ R.BlockFree m.live k a := by
  have hpos : 0 < 2 ^ k := Nat.two_pow_pos k
  constructor
  · intro hcover
    have hbounds : ∀ x, a ≤ x → x < a + 2 ^ k → R.start ≤ x ∧ x < R.stop := by
      intro x hlo hhi
      obtain ⟨j, b, hb, hbx, hxb⟩ := hcover x hlo hhi
      have := h.parts.block_bounds hb
      omega
    have hfirst := hbounds a (Nat.le_refl a) (by omega)
    have hlast := hbounds (a + 2 ^ k - 1) (by omega) (by omega)
    refine ⟨hfirst.1, by omega, fun b hb x hx hxb => ?_⟩
    obtain ⟨j, c, hc, hcx, hxc⟩ := hcover x hx.1 hx.2
    exact h.parts.disjoint_rest hc (List.mem_map_of_mem hb) ⟨hcx, hxc⟩ hxb
  · rintro ⟨hlo, hhi, hfree⟩ x hax hxa
    obtain ⟨c, hc, hxc⟩ := h.parts.tiles.exists_mem (Nat.le_trans hlo hax) (by omega)
    rcases List.mem_append.mp hc with hc | hc
    · obtain ⟨j, b, _, _, hb, rfl⟩ := mem_freeSpans.mp hc
      exact ⟨j, b, hb, hxc⟩
    · obtain ⟨b, hb, rfl⟩ := List.mem_map.mp hc
      exact absurd hxc (hfree b hb x ⟨hax, hxa⟩)

/-- Up to the alignment of the heap, a free list holds the lone blocks. -/
theorem Tidy.mem_lists_iff (h : m.Tidy R d) {k a : Nat} (hk : k ≤ R.maxOrder)
    (hd : min (k + 1) R.maxOrder ≤ d) : a ∈ m.heap.lists k ↔ R.Lone m.live k a := by
  rw [h.family.mem_iff hk hd, h.inv.covered_iff, h.inv.covered_iff]
  exact ⟨fun ⟨h1, h2, h3⟩ => ⟨h1, h2, h3⟩, fun ⟨h1, h2, h3⟩ => ⟨h1, h2, h3⟩⟩

end ListedMachine

/-- The free list of an order to whose double the heap start is aligned holds the
lone blocks of that order, each of them once. -/
theorem HeapRange.Reachable.freeList_lone {R : HeapRange} {c : Machine} (h : R.Reachable c)
    {k : Nat} (hmin : minOrder ≤ k) (hmax : k ≤ R.maxOrder)
    (hdvd : 2 ^ min (k + 1) R.maxOrder ∣ R.start) :
    ∃ l, c.heap.freeList k = some l ∧ l.Nodup ∧ ∀ a, a ∈ l ↔ R.Lone c.live k a := by
  obtain ⟨acts, m, hrun, href⟩ := h.refines
  have hk : k ∈ orders := mem_orders.mpr ⟨hmin, Nat.le_trans hmax R.maxOrder_bounds.2⟩
  have htidy : m.Tidy R (min (k + 1) R.maxOrder) :=
    (ListedMachine.tidy_boot R _).run hdvd hrun
  refine ⟨m.heap.lists k, href.freeList hk, href.inv.parts.nodup k, fun a => ?_⟩
  rw [href.live_eq]
  exact htidy.mem_lists_iff hmax (Nat.le_refl _)

/-- Whether a block is lone depends on what is live, not on the order of the list. -/
theorem HeapRange.lone_congr {R : HeapRange} {live live' : List (Nat × Layout)}
    (h : live.Perm live') {k a : Nat} : R.Lone live k a ↔ R.Lone live' k a := by
  have hfree : ∀ a, R.BlockFree live k a ↔ R.BlockFree live' k a := by
    intro a
    simp only [HeapRange.BlockFree, h.mem_iff]
  constructor
  · rintro ⟨hdvd, ha, hother⟩
    exact ⟨hdvd, (hfree a).mp ha, fun hlt => mt (hfree _).mpr (hother hlt)⟩
  · rintro ⟨hdvd, ha, hother⟩
    exact ⟨hdvd, (hfree a).mpr ha, fun hlt => mt (hfree _).mp (hother hlt)⟩

/-- After any run, the free list of an order to whose double the heap start is
aligned holds exactly the aligned free blocks of that size whose other half is not
free as a whole, each of them once; at the largest order, where a block has no other
half, it holds every aligned free block. So every state with the same live blocks has the
same blocks on that list, whatever memory held at the start and whichever calls were
made. -/
theorem free_list_of_live (R : HeapRange) {c : Machine} (hreach : R.Reachable c) {k : Nat}
    (hmin : minOrder ≤ k) (hmax : k ≤ R.maxOrder) (hdvd : 2 ^ min (k + 1) R.maxOrder ∣ R.start) :
    ∃ l, c.heap.freeList k = some l ∧ l.Nodup ∧ (∀ a, a ∈ l ↔ R.Lone c.live k a) ∧
      ∀ c', R.Reachable c' → c'.live.Perm c.live →
        ∃ l', c'.heap.freeList k = some l' ∧ l'.Perm l := by
  obtain ⟨l, hl, hnodup, hmem⟩ := hreach.freeList_lone hmin hmax hdvd
  refine ⟨l, hl, hnodup, hmem, fun c' hreach' hlive => ?_⟩
  obtain ⟨l', hl', hnodup', hmem'⟩ := hreach'.freeList_lone hmin hmax hdvd
  refine ⟨l', hl', (List.perm_ext_iff_of_nodup hnodup' hnodup).mpr fun a => ?_⟩
  rw [hmem, hmem', HeapRange.lone_congr hlive]

/-- Freeing a word of the kernel heap leaves the pages that were free at the start. -/
theorem free_list_of_live_kernelHeap :
    ∃ c₀ c l l', kernelHeap.after [] = some c₀ ∧
      kernelHeap.after [.alloc .word, .dealloc 0x44444a800000 .word] = some c ∧
      c₀.heap.freeList 12 = some l ∧ (∀ a, a ∈ l ↔ kernelHeap.Lone [] 12 a) ∧
      c.heap.freeList 12 = some l' ∧ l'.Perm l := by
  have hstart : (kernelHeap.after []).map Machine.live = some [] := by decide +kernel
  have hrun : (kernelHeap.after [.alloc .word, .dealloc 0x44444a800000 .word]).map
      Machine.live = some [] := by decide +kernel
  obtain ⟨c₀, hc₀, hlive₀⟩ := Option.map_eq_some_iff.mp hstart
  obtain ⟨c, hc, hlive⟩ := Option.map_eq_some_iff.mp hrun
  obtain ⟨l, hl, _, hmem, hsame⟩ := free_list_of_live kernelHeap (HeapRange.reachable_after hc₀)
    (k := 12) (by decide) (by decide +kernel) (by decide +kernel)
  obtain ⟨l', hl', hperm⟩ := hsame c (HeapRange.reachable_after hc) (by rw [hlive, hlive₀])
  rw [hlive₀] at hmem
  exact ⟨c₀, c, l, l', hc₀, hc, hl, hmem, hl', hperm⟩

end SillOS.Buddy

import Mathlib.Data.List.Pairwise
import SillOS.Core.MergeSystem
import SillOS.Kmem.Buddy.Safety

/-!
# The order of frees does not matter

The free blocks of a heap, seen as a set of orders and addresses, form a merge
system whose mates are the buddies; `dealloc` is its `free`. That is so for every
heap start, since pairing by offset from the start is symmetric and joins
adjacent blocks whether or not they are aligned.
-/

namespace SillOS.Buddy

open Tiling

/-- The block paired with a block, given as order and address. -/
def mateOf (start maxOrder : Nat) (b : Nat × Nat) : Option (Nat × Nat) :=
  if b.1 < maxOrder ∧ start ≤ b.2 then some (b.1, start + ((b.2 - start) ^^^ 2 ^ b.1)) else none

/-- Mates have one order, pair up symmetrically and are adjacent. -/
private theorem mateOf_spec {start maxOrder : Nat} {b c : Nat × Nat}
    (h : mateOf start maxOrder b = some c) :
    b.1 < maxOrder ∧ c.1 = b.1 ∧ c.2 = start + ((b.2 - start) ^^^ 2 ^ b.1) ∧
      b.2 = start + ((c.2 - start) ^^^ 2 ^ c.1) ∧
      (c.2 = b.2 + 2 ^ b.1 ∨ 2 ^ b.1 ≤ b.2 ∧ c.2 = b.2 - 2 ^ b.1) := by
  unfold mateOf at h
  split at h
  · rename_i hb
    cases h
    refine ⟨hb.1, rfl, rfl, ?_, ?_⟩
    · dsimp only
      rw [Nat.add_sub_cancel_left, Nat.xor_xor_cancel_right]
      omega
    · dsimp only
      rcases TwoPow.xor_cases (b.2 - start) b.1 with ⟨_, he⟩ | ⟨_, hle, he⟩
      · exact Or.inl (by omega)
      · exact Or.inr (by omega)
  · cases h

/-- The block that two mates form. -/
def joinOf (start : Nat) (b : Nat × Nat) : Nat × Nat :=
  (b.1 + 1, min b.2 (start + ((b.2 - start) ^^^ 2 ^ b.1)))

private theorem mateOf_symm {start maxOrder : Nat} {b c : Nat × Nat}
    (h : mateOf start maxOrder b = some c) : mateOf start maxOrder c = some b := by
  obtain ⟨hlt, horder, haddr, hback, _⟩ := mateOf_spec h
  have hc : c.1 < maxOrder ∧ start ≤ c.2 := by omega
  rw [mateOf, if_pos hc, ← hback, horder]

private theorem joinOf_eq {start maxOrder : Nat} {b c : Nat × Nat}
    (h : mateOf start maxOrder b = some c) : joinOf start b = joinOf start c := by
  obtain ⟨_, horder, haddr, hback, _⟩ := mateOf_spec h
  rw [joinOf, joinOf, ← haddr, ← hback, horder, Nat.min_comm]

private theorem foot_joinOf {start maxOrder : Nat} {b c : Nat × Nat}
    (h : mateOf start maxOrder b = some c) :
    {x | x ∈ blockSpan (joinOf start b).1 (joinOf start b).2} =
      {x | x ∈ blockSpan b.1 b.2} ∪ {x | x ∈ blockSpan c.1 c.2} := by
  obtain ⟨_, horder, haddr, _, hadjacent⟩ := mateOf_spec h
  ext x
  simp only [joinOf, ← haddr, Set.mem_union, Set.mem_ofPred_eq, blockSpan, Span.mem_iff, horder,
    pow_succ]
  omega

private theorem rank_joinOf {start maxOrder : Nat} {b c : Nat × Nat}
    (h : mateOf start maxOrder b = some c) : maxOrder - (joinOf start b).1 < maxOrder - b.1 := by
  have hlt := (mateOf_spec h).1
  rw [joinOf]
  omega

private theorem foot_nonempty (b : Nat × Nat) : {x | x ∈ blockSpan b.1 b.2}.Nonempty :=
  ⟨b.2, Parts.start_mem b.1 b.2⟩

/-- Buddies as a merge system. -/
def buddySystem (start maxOrder : Nat) : MergeSystem (Nat × Nat) Nat where
  mate := mateOf start maxOrder
  join := joinOf start
  foot b := {x | x ∈ blockSpan b.1 b.2}
  rank b := maxOrder - b.1
  mate_symm := mateOf_symm
  join_eq := joinOf_eq
  foot_join := foot_joinOf
  foot_nonempty := foot_nonempty
  rank_join := rank_joinOf

/-- The free blocks as a set of orders and addresses. -/
def ListedBuddy.freeBlocks (A : ListedBuddy) : Set (Nat × Nat) := {b | b.2 ∈ A.lists b.1}

namespace ListedBuddy

variable {A : ListedBuddy}

private theorem freeBlocks_push (A : ListedBuddy) (a k : Nat) :
    (A.push a k).freeBlocks = insert (k, a) A.freeBlocks := by
  ext ⟨j, b⟩
  simp only [freeBlocks, push, Set.mem_ofPred_eq, Set.mem_insert_iff, Prod.mk.injEq]
  by_cases hjk : j = k
  · subst j
    simp
  · simp [withList_lists_of_ne _ hjk, hjk]

private theorem freeBlocks_remove {k : Nat} (h : (A.lists k).Nodup) (a : Nat) :
    (A.remove a k).freeBlocks = A.freeBlocks \ {(k, a)} := by
  ext ⟨j, b⟩
  simp only [freeBlocks, remove, Set.mem_ofPred_eq, Set.mem_sdiff, Set.mem_singleton_iff,
    Prod.mk.injEq]
  by_cases hjk : j = k
  · subst j
    simp [h.mem_erase_iff, and_comm]
  · simp [withList_lists_of_ne _ hjk, hjk]

end ListedBuddy

namespace Parts

variable {A : ListedBuddy} {rest : List Span} {lo hi : Nat}

/-- Merging a block and pushing the result frees it in the merge system. -/
theorem freeBlocks_merge {B : ListedBuddy} {k a k' a' : Nat}
    (h : Parts A (blockSpan k a :: rest) lo hi) (hk : minOrder ≤ k)
    (hm : A.merge a k = (a', k', B)) :
    (B.push a' k').freeBlocks = (buddySystem lo A.maxOrder).free A.freeBlocks (k, a) := by
  have hlo : ∀ {A : ListedBuddy} {k a : Nat}, Parts A (blockSpan k a :: rest) lo hi → lo ≤ a :=
    fun h => (h.tiles.bounds (List.mem_append_right _ List.mem_cons_self) (start_mem _ _)).1
  induction A, a, k using ListedBuddy.merge.induct with
  | case1 A a k hlt hmem ih =>
    rw [ListedBuddy.merge_of_mem hlt hmem] at hm
    have hmate : (buddySystem lo A.maxOrder).mate (k, a) = some (k, A.buddyOf a k) := by
      rw [ListedBuddy.buddyOf, h.start_eq]
      exact if_pos ⟨hlt, hlo h⟩
    have hjoin : (buddySystem lo A.maxOrder).join (k, a) = (k + 1, min a (A.buddyOf a k)) := by
      rw [ListedBuddy.buddyOf, h.start_eq]
      rfl
    rw [MergeSystem.free_of_mem _ hmate hmem, hjoin, ← ListedBuddy.freeBlocks_remove (h.nodup k)]
    exact ih (h.remove_buddy hmem) (by omega) hm
  | case2 A a k hlt hmem =>
    rw [ListedBuddy.merge_of_not_mem fun _ => hmem] at hm
    have hmate : (buddySystem lo A.maxOrder).mate (k, a) = some (k, A.buddyOf a k) := by
      rw [ListedBuddy.buddyOf, h.start_eq]
      exact if_pos ⟨hlt, hlo h⟩
    cases hm
    rw [ListedBuddy.freeBlocks_push, MergeSystem.free_of_not_mem]
    intro c hc
    obtain rfl := Option.some.inj (hmate.symm.trans hc)
    exact hmem
  | case3 A a k hge =>
    rw [ListedBuddy.merge_of_not_mem fun hlt => absurd hlt hge] at hm
    cases hm
    rw [ListedBuddy.freeBlocks_push, MergeSystem.free_of_not_mem]
    intro c hc
    exact absurd (mateOf_spec hc).1 hge

end Parts

namespace ListedMachine

variable {R : HeapRange} {m : ListedMachine}

/-- The merge system of a heap range. -/
abbrev system (R : HeapRange) : MergeSystem (Nat × Nat) Nat := buddySystem R.start R.maxOrder

/-- The block of a live allocation, as order and address. -/
def liveBlock (b : Nat × Layout) : Nat × Nat := (blockOrder b.2, b.1)

/-- The action that frees an allocation. -/
def freeing (b : Nat × Layout) : Action := .dealloc b.1 b.2

/-- Freeing a live allocation takes the step of the merge system. -/
theorem Inv.freeing (h : m.Inv R) {b : Nat × Layout} (hb : b ∈ m.live) :
    ∃ m', m.step (freeing b) = some m' ∧ m'.Inv R ∧ m'.live = m.live.erase b ∧
      m'.heap.freeBlocks = (system R).free m.heap.freeBlocks (liveBlock b) := by
  have hstep : m.step (ListedMachine.freeing b) = some (m.act (ListedMachine.freeing b)) :=
    if_pos hb
  obtain ⟨k, horder, hk⟩ := h.live_order b hb
  refine ⟨_, hstep, h.step hstep, rfl, ?_⟩
  have hparts := h.live_parts hb horder
  rcases hm : m.heap.merge b.1 k with ⟨a', k', B⟩
  have hfree := hparts.freeBlocks_merge (orderForSize_spec horder).1 hm
  rw [h.maxOrder_eq] at hfree
  rw [liveBlock, blockOrder_eq horder, ← hfree]
  simp only [act, ListedMachine.freeing, ListedBuddy.dealloc, horder, hm]

/-- Freeing several live allocations, one after the other. -/
theorem Inv.run_freeing (h : m.Inv R) {bs : List (Nat × Layout)} (hnodup : bs.Nodup)
    (hlive : ∀ b ∈ bs, b ∈ m.live) :
    ∃ m', m.run (bs.map ListedMachine.freeing) = some m' ∧ m'.Inv R ∧
      m'.heap.freeBlocks = (bs.map liveBlock).foldl (system R).free m.heap.freeBlocks := by
  induction bs generalizing m with
  | nil => exact ⟨m, rfl, h, rfl⟩
  | cons b bs ih =>
    obtain ⟨hb, hnodup'⟩ := List.nodup_cons.mp hnodup
    obtain ⟨m₁, hstep, hinv, hlive₁, hfree⟩ := h.freeing (hlive b List.mem_cons_self)
    have hrest : ∀ c ∈ bs, c ∈ m₁.live := by
      intro c hc
      have hcb : c ≠ b := ne_of_mem_of_not_mem hc hb
      rw [hlive₁]
      exact (List.mem_erase_of_ne hcb).mpr (hlive c (List.mem_cons_of_mem _ hc))
    obtain ⟨m', hrun, hinv', hfree'⟩ := ih hinv hnodup' hrest
    refine ⟨m', Transition.run_cons_eq_some.mpr ⟨m₁, hstep, hrun⟩, hinv', ?_⟩
    rw [hfree', hfree]
    rfl

/-- Free blocks are disjoint. -/
theorem Inv.separated (h : m.Inv R) : (system R).Separated m.heap.freeBlocks := by
  rintro ⟨j, a⟩ ha ⟨k, b⟩ hb hne
  refine Set.disjoint_left.mpr fun x hxa hxb => hne ?_
  obtain ⟨rfl, rfl⟩ := h.parts.block_unique ha hb hxa hxb
  rfl

/-- Live blocks are disjoint from free ones. -/
theorem Inv.fresh (h : m.Inv R) {b : Nat × Layout} (hb : b ∈ m.live) :
    (system R).Fresh m.heap.freeBlocks (liveBlock b) := by
  rintro ⟨k, a⟩ ha
  refine Set.disjoint_left.mpr fun x hxb hxa => ?_
  exact h.parts.disjoint_rest ha (List.mem_map_of_mem hb) hxa hxb

/-- Two live blocks are disjoint. -/
theorem Inv.live_disjoint (h : m.Inv R) {b c : Nat × Layout} (hb : b ∈ m.live) (hc : c ∈ m.live)
    (hne : b ≠ c) : (liveSpan b).Disjoint (liveSpan c) := by
  have hpair := (List.pairwise_append.mp h.parts.tiles.disjoint).2.1
  have : Std.Symm fun b c => (liveSpan b).Disjoint (liveSpan c) := ⟨fun _ _ hd => hd.symm⟩
  exact (List.pairwise_map.mp hpair).forall hb hc hne

end ListedMachine

open ListedMachine in
/-- Freeing distinct live allocations in two orders leaves every free list with the
same blocks. -/
theorem free_order_irrelevant (R : HeapRange) {c : Machine} (hreach : R.Reachable c)
    {bs cs : List (Nat × Layout)} (hnodup : bs.Nodup) (hlive : ∀ b ∈ bs, b ∈ c.live)
    (hperm : bs.Perm cs) :
    ∃ d e, c.run (bs.map fun b => .dealloc b.1 b.2) = some d ∧
      c.run (cs.map fun b => .dealloc b.1 b.2) = some e ∧
      ∀ k ∈ orders, ∃ l l', d.heap.freeList k = some l ∧ e.heap.freeList k = some l' ∧
        l.Nodup ∧ l.Perm l' := by
  obtain ⟨acts, m, _, href⟩ := hreach.refines
  have hmlive : ∀ b ∈ bs, b ∈ m.live := fun b hb => href.live_eq ▸ hlive b hb
  obtain ⟨m₁, hrun₁, hinv₁, hfree₁⟩ := href.inv.run_freeing hnodup hmlive
  obtain ⟨m₂, hrun₂, hinv₂, hfree₂⟩ := href.inv.run_freeing (hperm.nodup_iff.mp hnodup)
    fun b hb => hmlive b (hperm.mem_iff.mpr hb)
  obtain ⟨d, hd, hrefd⟩ := href.run_back hrun₁
  obtain ⟨e, he, hrefe⟩ := href.run_back hrun₂
  refine ⟨d, e, hd, he, fun k hk => ?_⟩
  have hsame : m₁.heap.freeBlocks = m₂.heap.freeBlocks := by
    rw [hfree₁, hfree₂]
    refine MergeSystem.foldl_free_perm (hperm.map _) href.inv.separated ?_ ?_
    · intro b hb
      obtain ⟨b', hb', rfl⟩ := List.mem_map.mp hb
      exact href.inv.fresh (hmlive b' hb')
    · rw [List.pairwise_map]
      refine hnodup.imp_of_mem fun {b c} hb hc hne => ?_
      exact Set.disjoint_left.mpr (href.inv.live_disjoint (hmlive b hb) (hmlive c hc) hne)
  have hnodup₁ := hinv₁.parts.nodup k
  refine ⟨_, _, hrefd.freeList hk, hrefe.freeList hk, hnodup₁, ?_⟩
  refine (List.perm_ext_iff_of_nodup hnodup₁ (hinv₂.parts.nodup k)).mpr fun a => ?_
  exact Set.ext_iff.mp hsame (k, a)

/-- Freeing two buddies of the kernel heap in either order. -/
theorem free_order_irrelevant_kernelHeap :
    ∃ c d e, kernelHeap.after [.alloc .word, .alloc .word] = some c ∧
      c.run [.dealloc 0x44444a800000 .word, .dealloc 0x44444a800040 .word] = some d ∧
      c.run [.dealloc 0x44444a800040 .word, .dealloc 0x44444a800000 .word] = some e ∧
      ∀ k ∈ orders, ∃ l l', d.heap.freeList k = some l ∧ e.heap.freeList k = some l' ∧
        l.Nodup ∧ l.Perm l' := by
  have hafter : (kernelHeap.after [.alloc .word, .alloc .word]).map Machine.live =
      some [(0x44444a800040, .word), (0x44444a800000, .word)] := by decide +kernel
  obtain ⟨c, hc, hlive⟩ := Option.map_eq_some_iff.mp hafter
  obtain ⟨d, e, hd, he, hlists⟩ := free_order_irrelevant kernelHeap (HeapRange.reachable_after hc)
    (by decide) (by simp [hlive])
    (List.Perm.swap (0x44444a800040, .word) (0x44444a800000, .word) [])
  exact ⟨c, d, e, hc, hd, he, hlists⟩

end SillOS.Buddy

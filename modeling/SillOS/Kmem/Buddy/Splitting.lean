import SillOS.Kmem.Buddy.Represents

/-!
# What one allocation does to the free lists

From any free lists of disjoint blocks, reachable or not, `alloc` takes the head of
the first nonempty list that is large enough and leaves one block in each list that it
has climbed over. If all of these lists are empty, nothing changes at all.
-/

namespace SillOS.Buddy

open ByteMemory IntrusiveList Tiling

/-- The least order whose block holds `n` bytes. -/
def IsOrder (n k : Nat) : Prop :=
  (minOrder ≤ k ∧ k ≤ maxOrder) ∧ n ≤ 2 ^ k ∧ ∀ i, minOrder ≤ i → n ≤ 2 ^ i → k ≤ i

private theorem orderForSize_eq_some {n k : Nat} : orderForSize n = some k ↔ IsOrder n k := by
  constructor
  · intro h
    obtain ⟨hmin, hmax, hsize, hleast⟩ := orderForSize_spec h
    refine ⟨⟨hmin, hmax⟩, hsize, fun i hi hn => ?_⟩
    by_contra hlt
    exact absurd (hleast i hi (Nat.lt_of_not_le hlt)) (Nat.not_lt.mpr hn)
  · rintro ⟨⟨hmin, hmax⟩, hsize, hleast⟩
    obtain ⟨i, hi⟩ := Option.isSome_iff_exists.mp (orderForSize_isSome hmin hmax hsize)
    obtain ⟨hmin', -, hsize', hleast'⟩ := orderForSize_spec hi
    have hle := hleast i hmin' hsize'
    obtain rfl | hlt := Nat.eq_or_lt_of_le hle
    · exact hi
    · exact absurd (hleast' k hmin hlt) (Nat.not_lt.mpr hsize)

/-- An initialized allocator whose free lists, walked through memory, hold these disjoint
blocks. Its largest order has a free list. -/
structure BuddyState.Holds (s : BuddyState) (lists : Nat → List Nat) : Prop where
  initialized : s.initialized = true
  maxOrder_le : s.maxOrder ≤ maxOrder
  freeList : ∀ k ∈ orders, s.freeList k = some (lists k)
  disjoint : (freeSpans lists).Pairwise Span.Disjoint

/-- The lists after a block `a` of order `j` has been split down to order `k`. -/
def splitLists (lists : Nat → List Nat) (a : Nat) (rest : List Nat) (k j i : Nat) : List Nat :=
  if i = j then rest else if k ≤ i ∧ i < j then [a + 2 ^ i] else lists i

/-! ## Blocks -/

private theorem mem_freeSpans_of_mem {lists : Nat → List Nat} {k a : Nat} (hk : k ∈ orders)
    (ha : a ∈ lists k) : blockSpan k a ∈ freeSpans lists :=
  mem_freeSpans.mpr ⟨k, a, (mem_orders.mp hk).1, (mem_orders.mp hk).2, ha, rfl⟩

namespace BuddyState

variable {s : BuddyState} {lists : Nat → List Nat} {j k a : Nat} {rest : List Nat}

/-- Each list is a chain in memory. -/
theorem Holds.chain (h : s.Holds lists) (hk : k ∈ orders) :
    Chain (load64 s.mem) (s.freeLists (indexFor k)) (lists k) :=
  (chain_of_walk (h.freeList k hk)).1

/-- The nodes of two different free blocks are apart. -/
theorem Holds.apart (h : s.Holds lists) {i b : Nat} (hj : j ∈ orders) (ha : a ∈ lists j)
    (hi : i ∈ orders) (hb : b ∈ lists i) (hne : i ≠ j ∨ b ≠ a) {x : Nat}
    (hx : x ∈ blockSpan j a) : x ∉ blockSpan i b := by
  have hspans : blockSpan j a ≠ blockSpan i b := by
    intro heq
    simp only [blockSpan, Span.mk.injEq] at heq
    have horder := Nat.pow_right_injective (Nat.le_refl 2) heq.2
    omega
  exact disjoint_of_mem h.disjoint (mem_freeSpans_of_mem hj ha) (mem_freeSpans_of_mem hi hb) hspans
    x hx

/-- After a split down to an order above `k`, the lower half that is still in hand shares no
node with a free block. -/
theorem Holds.not_mem_split (h : s.Holds lists) (hj : j ∈ orders) (hlist : lists j = a :: rest)
    {i b x : Nat} (hi : i ∈ orders) (hb : b ∈ splitLists lists a rest (k + 1) j i)
    (hx : a ≤ x ∧ x < a + 2 ^ (k + 1)) (hkj : k < j) : ¬(b ≤ x ∧ x < b + 8) := by
  have hmem : a ∈ lists j := hlist ▸ List.mem_cons_self
  have hle : 2 ^ (k + 1) ≤ 2 ^ j := Nat.pow_le_pow_right Nat.two_pos hkj
  have hinside : x ∈ blockSpan j a := ⟨hx.1, Nat.lt_of_lt_of_le hx.2 (Nat.add_le_add_left hle a)⟩
  have hapart : ∀ {i b}, i ∈ orders → b ∈ lists i → i ≠ j ∨ b ≠ a → ¬(b ≤ x ∧ x < b + 8) :=
    fun hi hb hne hword =>
      h.apart hj hmem hi hb hne hinside (word_mem (mem_orders.mp hi).1 hword)
  unfold splitLists at hb
  split_ifs at hb with hij hbelow
  · subst hij
    have hnodup := (h.chain hi).nodup
    rw [hlist, List.nodup_cons] at hnodup
    refine hapart hi (hlist ▸ List.mem_cons_of_mem a hb) (Or.inr ?_)
    rintro rfl
    exact hnodup.1 hb
  · obtain rfl := List.mem_singleton.mp hb
    have hhalf : 2 ^ (k + 1) ≤ 2 ^ i := Nat.pow_le_pow_right Nat.two_pos hbelow.1
    omega
  · exact hapart hi hb (Or.inl hij)

private theorem splitLists_succ (lists : Nat → List Nat) (a : Nat) (rest : List Nat) {i : Nat}
    (h : i ≠ k) : splitLists lists a rest k j i = splitLists lists a rest (k + 1) j i := by
  have hiff : k ≤ i ∧ i < j ↔ k + 1 ≤ i ∧ i < j := by omega
  simp only [splitLists, hiff]

/-! ## Splitting -/

/-- Leaving the upper half behind on an empty list. -/
private theorem Holds.chains_push {u : BuddyState} (h : s.Holds lists) (hk : minOrder ≤ k)
    (hkj : k < j) (hj : j ∈ orders) (hlist : lists j = a :: rest) (hempty : lists k = [])
    (hchains : ∀ i ∈ orders, Chain (load64 u.mem) (u.freeLists (indexFor i))
      (splitLists lists a rest (k + 1) j i)) {i : Nat} (hi : i ∈ orders) :
    Chain (load64 (u.pushFreeBlock (a + blockSize k) k).mem)
      ((u.pushFreeBlock (a + blockSize k) k).freeLists (indexFor i))
      (splitLists lists a rest k j i) := by
  have hkmem : k ∈ orders := mem_orders.mpr ⟨hk, by have := mem_orders.mp hj; omega⟩
  have hpos : 0 < 2 ^ k := Nat.two_pow_pos k
  have hnode : 2 ^ minOrder ≤ 2 ^ k := Nat.pow_le_pow_right Nat.two_pos hk
  simp only [minOrder] at hnode
  have hhead : u.freeLists (indexFor k) = 0 := by
    have hchain := hchains k hkmem
    rwa [splitLists, if_neg (Nat.ne_of_lt hkj), if_neg (by omega), hempty, chain_nil] at hchain
  rw [pushFreeBlock, blockSize_eq, hhead]
  dsimp only
  by_cases hik : i = k
  · subst hik
    rw [splitLists, if_neg (Nat.ne_of_lt hkj), if_pos ⟨Nat.le_refl i, hkj⟩, Function.update_self]
    exact ⟨rfl, by omega, load64_store64 (by decide)⟩
  · rw [Function.update_of_ne (indexFor_ne hi hkmem hik), splitLists_succ _ _ _ hik]
    refine (hchains i hi).congr fun b hb => load64_store64_of_disjoint ?_
    refine words_apart fun x hword => h.not_mem_split hj hlist hi hb ⟨by omega, ?_⟩ hkj
    rw [pow_succ]
    omega

/-- The half that is left behind lies in the block that is split. -/
private theorem pushFreeBlock_mem {u : BuddyState} (hk : minOrder ≤ k) (hkj : k < j) {x : Nat}
    (hx : x ∉ blockSpan j a) : (u.pushFreeBlock (a + blockSize k) k).mem x = u.mem x := by
  have hsplit : 2 ^ (k + 1) ≤ 2 ^ j := Nat.pow_le_pow_right Nat.two_pos hkj
  have hnode : 2 ^ minOrder ≤ 2 ^ k := Nat.pow_le_pow_right Nat.two_pos hk
  rw [pow_succ] at hsplit
  simp only [minOrder] at hnode
  rw [pushFreeBlock, blockSize_eq]
  refine store64_of_not_mem fun hword => hx ?_
  simp only [blockSpan, Span.mem_iff]
  omega

/-- The climb to the first nonempty list, and the halves that it leaves behind. -/
theorem Holds.allocateOrder_eq (h : s.Holds lists) (hk : minOrder ≤ k) (hkj : k ≤ j)
    (hj : j ≤ s.maxOrder) (hempty : ∀ i, k ≤ i → i < j → lists i = [])
    (hlist : lists j = a :: rest) :
    ∃ t, s.allocateOrder k = (some a, t) ∧
      (∀ i ∈ orders, Chain (load64 t.mem) (t.freeLists (indexFor i))
        (splitLists lists a rest k j i)) ∧
      { t with freeLists := s.freeLists, mem := s.mem } = s ∧
      ∀ x, x ∉ blockSpan j a → t.mem x = s.mem x := by
  have hmax := h.maxOrder_le
  have hjmem : j ∈ orders := mem_orders.mpr ⟨Nat.le_trans hk hkj, Nat.le_trans hj hmax⟩
  obtain ⟨d, rfl⟩ := Nat.exists_eq_add_of_le hkj
  induction d generalizing k with
  | zero =>
    have hchain := h.chain hjmem
    rw [Nat.add_zero] at *
    rw [hlist, chain_cons] at hchain
    obtain ⟨hhead, hne, htail⟩ := hchain
    have hpop : s.popFreeBlock k = (some a, { s with
        freeLists := Function.update s.freeLists (indexFor k) (load64 s.mem a) }) := by
      simp only [popFreeBlock, hhead, if_neg hne]
    refine ⟨_, allocateOrder_of_pop hj hpop, fun i hi => ?_, rfl, fun x _ => rfl⟩
    by_cases hik : i = k
    · subst hik
      rw [splitLists, if_pos rfl]
      simpa only [Function.update_self] using htail
    · rw [splitLists, if_neg hik, if_neg (by omega)]
      simpa only [Function.update_of_ne (indexFor_ne hi hjmem hik)] using h.chain hi
  | succ d ih =>
    have hkmem : k ∈ orders := mem_orders.mpr ⟨hk, by omega⟩
    have hnil : lists k = [] := hempty k (Nat.le_refl k) (by omega)
    rw [show k + (d + 1) = k + 1 + d by omega] at *
    obtain ⟨u, hu, hchains, hfields, hframe⟩ := ih (by omega) (by omega) hj
      (fun i hi => hempty i (by omega)) hlist hjmem
    have hpop : s.popFreeBlock k = (none, s) := by
      have hchain := h.chain hkmem
      rw [hnil, chain_nil] at hchain
      simp only [popFreeBlock, hchain, if_true]
    have hlt : k < k + 1 + d := by omega
    refine ⟨_, allocateOrder_of_split (by omega) hpop hu,
      fun i hi => h.chains_push hk hlt hjmem hlist hnil hchains hi, hfields, fun x hx => ?_⟩
    rw [pushFreeBlock_mem hk hlt hx, hframe x hx]

/-- Climbing over empty lists only. -/
theorem Holds.allocateOrder_eq_none (h : s.Holds lists) (hk : minOrder ≤ k)
    (hempty : ∀ i, k ≤ i → i ≤ s.maxOrder → lists i = []) :
    s.allocateOrder k = (none, s) := by
  have hmax := h.maxOrder_le
  induction hd : s.maxOrder + 1 - k generalizing k with
  | zero => rw [allocateOrder, if_pos (by omega)]
  | succ d ih =>
    have hchain := h.chain (k := k) (mem_orders.mpr ⟨hk, by omega⟩)
    rw [hempty k (Nat.le_refl k) (by omega), chain_nil] at hchain
    have hpop : s.popFreeBlock k = (none, s) := by
      simp only [popFreeBlock, hchain, if_true]
    exact allocateOrder_of_none (by omega) hpop
      (ih (by omega) (fun i hi => hempty i (by omega)) (by omega))

/-- The first nonempty list among the orders of a layout. -/
private theorem exists_first {k m : Nat} (h : ¬∀ i, k ≤ i → i ≤ m → lists i = []) :
    ∃ j a rest, k ≤ j ∧ j ≤ m ∧ (∀ i, k ≤ i → i < j → lists i = []) ∧ lists j = a :: rest := by
  have hex : ∃ j, (k ≤ j ∧ j ≤ m) ∧ lists j ≠ [] := by
    by_contra hno
    refine h fun i hi him => ?_
    by_contra hne
    exact hno ⟨i, ⟨hi, him⟩, hne⟩
  classical
  obtain ⟨⟨hle, hjm⟩, hne⟩ := Nat.find_spec hex
  obtain ⟨a, rest, hlist⟩ := List.exists_cons_of_ne_nil hne
  refine ⟨Nat.find hex, a, rest, hle, hjm, fun i hi hij => ?_, hlist⟩
  by_contra hne'
  exact Nat.find_min hex hij ⟨⟨hi, by omega⟩, hne'⟩

/-- A failed allocation. -/
theorem Holds.alloc_eq_zero (h : s.Holds lists) {layout : Layout}
    (hno : (¬∃ k, IsOrder (max layout.size layout.align) k) ∨
      ∃ k, IsOrder (max layout.size layout.align) k ∧
        (k > s.maxOrder ∨ ∀ i, k ≤ i → i ≤ s.maxOrder → lists i = [])) :
    s.alloc layout = (0, s) := by
  simp only [alloc, h.initialized, Bool.not_true, Bool.false_eq_true, if_false]
  cases horder : orderForSize (max layout.size layout.align) with
  | none => rfl
  | some k =>
    have hk := orderForSize_eq_some.mp horder
    have hfail : s.allocateOrder k = (none, s) := by
      refine h.allocateOrder_eq_none hk.1.1 ?_
      obtain hnone | ⟨k', hk', hreason⟩ := hno
      · exact absurd ⟨k, hk⟩ hnone
      · obtain rfl : k = k' := by
          have hle := hk.2.2 k' hk'.1.1 hk'.2.1
          have hge := hk'.2.2 k hk.1.1 hk.2.1
          omega
        obtain hlarge | hempty := hreason
        · exact fun i hi him => by omega
        · exact hempty
    simp only [hfail]

/-- A successful allocation. -/
theorem Holds.alloc_eq (h : s.Holds lists) {layout : Layout}
    (hk : IsOrder (max layout.size layout.align) k) (hkj : k ≤ j) (hj : j ≤ s.maxOrder)
    (hempty : ∀ i, k ≤ i → i < j → lists i = []) (hlist : lists j = a :: rest) :
    a ≠ 0 ∧ ∃ t, s.alloc layout = (a, t) ∧
      (∀ i ∈ orders, t.freeList i = some (splitLists lists a rest k j i)) ∧
      { t with freeLists := s.freeLists, mem := s.mem } = s ∧
      ∀ x, x ∉ blockSpan j a → t.mem x = s.mem x := by
  obtain ⟨t, ht, hchains, hfields, hframe⟩ := h.allocateOrder_eq hk.1.1 hkj hj hempty hlist
  have hjmem : j ∈ orders :=
    mem_orders.mpr ⟨Nat.le_trans hk.1.1 hkj, Nat.le_trans hj h.maxOrder_le⟩
  have hne : a ≠ 0 := by
    have hchain := h.chain hjmem
    rw [hlist, chain_cons] at hchain
    exact hchain.2.1
  refine ⟨hne, t, ?_, fun i hi => (hchains i hi).walk_eq ?_, hfields, hframe⟩
  · simp only [alloc, h.initialized, Bool.not_true, Bool.false_eq_true, if_false,
      orderForSize_eq_some.mpr hk, ht]
  · have hlength := fun i hi => (chain_of_walk (h.freeList i hi)).2
    unfold splitLists
    split_ifs with hij
    · have hlist' := hlength j hjmem
      rw [hlist, List.length_cons] at hlist'
      exact Nat.le_of_succ_le hlist'
    · exact Nat.one_le_two_pow
    · exact hlength i hi

/-- Only these reasons let an allocation fail. -/
theorem Holds.reason_of_eq_zero (h : s.Holds lists) {layout : Layout}
    (hzero : (s.alloc layout).1 = 0) :
    (¬∃ k, IsOrder (max layout.size layout.align) k) ∨
      ∃ k, IsOrder (max layout.size layout.align) k ∧
        (k > s.maxOrder ∨ ∀ i, k ≤ i → i ≤ s.maxOrder → lists i = []) := by
  by_cases horder : ∃ k, IsOrder (max layout.size layout.align) k
  · obtain ⟨k, hk⟩ := horder
    refine Or.inr ⟨k, hk, Or.inr ?_⟩
    by_contra hsome
    obtain ⟨j, a, rest, hkj, hj, hempty, hlist⟩ := exists_first hsome
    obtain ⟨hne, t, ht, -⟩ := h.alloc_eq hk hkj hj hempty hlist
    rw [ht] at hzero
    exact hne hzero
  · exact Or.inl horder

/-- `alloc` fails exactly if no order fits the layout, the order is too large for the heap, or
all lists from it on are empty, and then nothing changes. Otherwise it takes the head of
the first nonempty list, leaves in each list below it the one block that was split off,
and changes nothing else. -/
theorem alloc_splits (s : BuddyState) (lists : Nat → List Nat) (h : s.Holds lists)
    (layout : Layout) :
    ((s.alloc layout).1 = 0 ↔
      (¬∃ k, IsOrder (max layout.size layout.align) k) ∨
      ∃ k, IsOrder (max layout.size layout.align) k ∧
        (k > s.maxOrder ∨ ∀ i, k ≤ i → i ≤ s.maxOrder → lists i = [])) ∧
    ((s.alloc layout).1 = 0 → (s.alloc layout).2 = s) ∧
    ∀ k j a rest, IsOrder (max layout.size layout.align) k → k ≤ j → j ≤ s.maxOrder →
      (∀ i, k ≤ i → i < j → lists i = []) → lists j = a :: rest →
      ∃ t, s.alloc layout = (a, t) ∧ t.freeList j = some rest ∧
        (∀ i, k ≤ i → i < j → t.freeList i = some [a + 2 ^ i]) ∧
        (∀ i ∈ orders, i < k ∨ j < i → t.freeList i = some (lists i)) ∧
        { t with freeLists := s.freeLists, mem := s.mem } = s ∧
        ∀ x, x ∉ blockSpan j a → t.mem x = s.mem x := by
  refine ⟨⟨fun hzero => ?_, fun hno => congrArg Prod.fst (h.alloc_eq_zero hno)⟩,
    fun hzero => ?_, fun k j a rest hk hkj hj hempty hlist => ?_⟩
  · exact h.reason_of_eq_zero hzero
  · rw [h.alloc_eq_zero (h.reason_of_eq_zero hzero)]
  · obtain ⟨-, t, ht, hlists, hfields, hframe⟩ := h.alloc_eq hk hkj hj hempty hlist
    have hmem : ∀ i, k ≤ i → i ≤ j → i ∈ orders := fun i hi hij =>
      mem_orders.mpr ⟨Nat.le_trans hk.1.1 hi, Nat.le_trans (Nat.le_trans hij hj) h.maxOrder_le⟩
    refine ⟨t, ht, ?_, fun i hi hij => ?_, fun i hi hout => ?_, hfields, hframe⟩
    · rw [hlists j (hmem j hkj (Nat.le_refl j)), splitLists, if_pos rfl]
    · rw [hlists i (hmem i hi (Nat.le_of_lt hij)), splitLists, if_neg (Nat.ne_of_lt hij),
        if_pos ⟨hi, hij⟩]
    · rw [hlists i hi, splitLists, if_neg (by omega), if_neg (by omega)]

/-- A heap of one free block of order 7. -/
def oneBlock : BuddyState where
  heapStart := 128
  heapSize := 128
  maxOrder := 7
  freeLists := fun index => if index = 1 then 128 else 0
  initialized := true
  mem := fun _ => 0

private theorem oneBlock_holds : oneBlock.Holds fun k => if k = 7 then [128] else [] where
  initialized := rfl
  maxOrder_le := by decide
  freeList k hk := by
    have hmin := (mem_orders.mp hk).1
    simp only [minOrder] at hmin
    by_cases hk7 : k = 7
    · subst hk7
      have hchain : Chain (load64 oneBlock.mem) 128 [128] := ⟨rfl, by decide, rfl⟩
      exact hchain.walk_eq (by decide)
    · have hindex : oneBlock.freeLists (indexFor k) = 0 :=
        if_neg (by simp only [indexFor, minOrder]; omega)
      have hchain : Chain (load64 oneBlock.mem) 0 [] := rfl
      rw [if_neg hk7, BuddyState.freeList, hindex]
      exact hchain.walk_eq (Nat.zero_le _)
  disjoint := List.pairwise_singleton _ _

/-- Eight bytes take the lower half of the block. -/
theorem alloc_splits_oneBlock :
    ∃ t, oneBlock.alloc (Layout.bytes 3) = (128, t) ∧ t.freeList 7 = some [] ∧
      t.freeList 6 = some [192] := by
  obtain ⟨-, -, hsplit⟩ := alloc_splits oneBlock _ oneBlock_holds (Layout.bytes 3)
  obtain ⟨t, ht, h7, h6, -⟩ := hsplit 6 7 128 [] ⟨by decide, by decide, fun i hi _ => hi⟩
    (by decide) (by decide) (fun i hi hi7 => if_neg (by omega)) rfl
  exact ⟨t, ht, h7, h6 6 (by decide) (by decide)⟩

end BuddyState

end SillOS.Buddy

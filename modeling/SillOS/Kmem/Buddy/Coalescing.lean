import SillOS.Kmem.Buddy.ListedMachine

/-!
# Alignment and coalescing

Two invariants of the free lists, each up to an order `d`: every block is aligned
to its size or to `2 ^ d`, and no two halves of an aligned pair are both free.
Allocation and seeding keep both. Merging keeps them as long as the buddy by
offset from the heap start is the other half of the block's aligned pair; a heap
start that is a multiple of `2 ^ d` makes the two agree below `d`.
-/

namespace SillOS.Buddy

open Tiling

/-- Every free block is aligned to its size or to `2 ^ d`. -/
def AlignedTo (d : Nat) (A : ListedBuddy) : Prop := ∀ k, ∀ a ∈ A.lists k, 2 ^ min k d ∣ a

/-- Below order `d` no aligned pair of blocks is free in halves. -/
def CoalescedBelow (d : Nat) (A : ListedBuddy) : Prop :=
  ∀ k, k < d → k < A.maxOrder → ∀ a ∈ A.lists k, a ^^^ 2 ^ k ∉ A.lists k

namespace ListedBuddy

/-- A condition on the heap, the address and the order in hand holds wherever the
loop of `merge` arrives below the largest order. -/
def MergeObeys (P : ListedBuddy → Nat → Nat → Prop) (A : ListedBuddy) (addr order : Nat) : Prop :=
  order < A.maxOrder → P A addr order ∧
    (A.buddyOf addr order ∈ A.lists order →
      MergeObeys P (A.remove (A.buddyOf addr order) order) (min addr (A.buddyOf addr order))
        (order + 1))
termination_by A.maxOrder - order
decreasing_by simp only [remove, withList_maxOrder]; omega

/-- A merge at this point would form an aligned block, below order `d`. -/
def JoinsAligned (d : Nat) (A : ListedBuddy) (addr order : Nat) : Prop :=
  order < d → A.buddyOf addr order ∈ A.lists order →
    2 ^ (order + 1) ∣ min addr (A.buddyOf addr order)

/-- The buddy is the other half of the aligned pair, or neither of the two is free,
below order `d`. -/
def BuddyAgrees (d : Nat) (A : ListedBuddy) (addr order : Nat) : Prop :=
  order < d → A.buddyOf addr order = addr ^^^ 2 ^ order ∨
    A.buddyOf addr order ∉ A.lists order ∧ addr ^^^ 2 ^ order ∉ A.lists order

private theorem MergeObeys.here {P : ListedBuddy → Nat → Nat → Prop} {A : ListedBuddy} {a k : Nat}
    (h : A.MergeObeys P a k) (hlt : k < A.maxOrder) : P A a k := by
  rw [MergeObeys] at h
  exact (h hlt).1

/-- The condition goes on to the merged block. -/
theorem MergeObeys.next {P : ListedBuddy → Nat → Nat → Prop} {A : ListedBuddy} {a k : Nat}
    (h : A.MergeObeys P a k) (hlt : k < A.maxOrder) (hmem : A.buddyOf a k ∈ A.lists k) :
    (A.remove (A.buddyOf a k) k).MergeObeys P (min a (A.buddyOf a k)) (k + 1) := by
  rw [MergeObeys] at h
  exact (h hlt).2 hmem

/-- Where nothing merges, it is that of the block itself. -/
theorem MergeObeys.of_not_mem {P : ListedBuddy → Nat → Nat → Prop} {A : ListedBuddy} {a k : Nat}
    (h : A.buddyOf a k ∉ A.lists k) (hP : P A a k) : A.MergeObeys P a k := by
  rw [MergeObeys]
  exact fun _ => ⟨hP, fun hmem => absurd hmem h⟩

end ListedBuddy

section Lists

open ListedBuddy

variable {A B : ListedBuddy} {d k a : Nat}

/-- Both invariants only become easier with fewer free blocks. -/
theorem AlignedTo.mono (h : AlignedTo d A) (hsub : ∀ k, B.lists k ⊆ A.lists k) : AlignedTo d B :=
  fun k a ha => h k a (hsub k ha)

/-- Taking blocks away makes no pair. -/
theorem CoalescedBelow.mono (h : CoalescedBelow d A) (hmax : B.maxOrder = A.maxOrder)
    (hsub : ∀ k, B.lists k ⊆ A.lists k) : CoalescedBelow d B :=
  fun k hd hlt a ha hb => h k hd (hmax ▸ hlt) a (hsub k ha) (hsub k hb)

private theorem remove_subset (A : ListedBuddy) (a k j : Nat) :
    (A.remove a k).lists j ⊆ A.lists j := by
  by_cases hjk : j = k
  · subst j
    rw [remove, withList_lists_self]
    exact List.erase_subset
  · rw [remove, withList_lists_of_ne _ hjk]
    exact List.Subset.refl _

/-- A pushed block is on its own list. -/
theorem mem_push {b j : Nat} : b ∈ (A.push a k).lists j ↔ (j = k ∧ b = a) ∨ b ∈ A.lists j := by
  by_cases hjk : j = k
  · subst j
    simp [push]
  · simp [push, withList_lists_of_ne _ hjk, hjk]

/-- An aligned block can be pushed. -/
theorem AlignedTo.push (h : AlignedTo d A) (ha : 2 ^ min k d ∣ a) : AlignedTo d (A.push a k) := by
  intro j b hb
  rcases mem_push.mp hb with ⟨rfl, rfl⟩ | hb
  · exact ha
  · exact h j b hb

/-- Pushing a block whose other half is not free. -/
theorem CoalescedBelow.push (h : CoalescedBelow d A)
    (ha : k < d → k < A.maxOrder → a ^^^ 2 ^ k ∉ A.lists k) : CoalescedBelow d (A.push a k) := by
  intro j hd hlt b hb hb'
  have hflip : a ^^^ 2 ^ k ≠ a := by
    have hpos : 0 < 2 ^ k := Nat.two_pow_pos k
    rcases TwoPow.xor_cases a k with ⟨_, he⟩ | ⟨_, _, he⟩ <;> omega
  rcases mem_push.mp hb with ⟨rfl, rfl⟩ | hold
  · rcases mem_push.mp hb' with ⟨_, he⟩ | hold'
    · exact hflip he
    · exact ha hd hlt hold'
  · rcases mem_push.mp hb' with ⟨rfl, he⟩ | hold'
    · rw [← he, Nat.xor_xor_cancel_right] at ha
      exact ha hd hlt hold
    · exact h j hd hlt b hold hold'

/-! ## Allocation -/

/-- Allocation hands out an aligned block and leaves aligned blocks. -/
theorem AlignedTo.allocateOrder (h : AlignedTo d A) (ha : A.allocateOrder k = (some a, B)) :
    AlignedTo d B ∧ 2 ^ min k d ∣ a := by
  obtain ⟨j, rest, hkj, hj, hlist, hempty, rfl⟩ := allocateOrder_some ha
  have hhead : 2 ^ min j d ∣ a := h j a (hlist ▸ List.mem_cons_self)
  have hle : ∀ i, i ≤ j → 2 ^ min i d ∣ a := fun i hi =>
    Nat.dvd_trans (Nat.pow_dvd_pow 2 (by omega)) hhead
  refine ⟨fun i b hb => ?_, hle k hkj⟩
  dsimp only at hb
  split at hb
  · rename_i hi
    subst i
    exact h j b (hlist ▸ List.mem_cons_of_mem _ hb)
  split at hb
  · rename_i hi
    obtain rfl := List.mem_singleton.mp hb
    exact Nat.dvd_add (hle i (by omega)) (Nat.pow_dvd_pow 2 (by omega))
  · exact h i b hb

/-- Allocation leaves single blocks in the lists it splits into. -/
theorem CoalescedBelow.allocateOrder (h : CoalescedBelow d A)
    (ha : A.allocateOrder k = (some a, B)) : CoalescedBelow d B := by
  obtain ⟨j, rest, hkj, hj, hlist, hempty, rfl⟩ := allocateOrder_some ha
  intro i hd hlt b hb hb'
  dsimp only at hb hb' hlt
  split at hb
  · rename_i hi
    subst i
    rw [if_pos rfl] at hb'
    exact h j hd hlt b (hlist ▸ List.mem_cons_of_mem _ hb) (hlist ▸ List.mem_cons_of_mem _ hb')
  rename_i hij
  rw [if_neg hij] at hb'
  split at hb
  · rename_i hi
    rw [if_pos hi] at hb'
    have hpos : 0 < 2 ^ i := Nat.two_pow_pos i
    have hsame : b ^^^ 2 ^ i = b :=
      (List.mem_singleton.mp hb').trans (List.mem_singleton.mp hb).symm
    rcases TwoPow.xor_cases b i with ⟨_, he⟩ | ⟨_, _, he⟩ <;> omega
  · rename_i hi
    rw [if_neg hi] at hb'
    exact h i hd hlt b hb hb'

/-! ## Merging -/

/-- The joined block is aligned when it is below order `d`, and above because its
parts are. -/
private theorem dvd_join {b : Nat} (hjoin : k < d → 2 ^ (k + 1) ∣ min a b)
    (ha : 2 ^ min k d ∣ a) (hb : 2 ^ min k d ∣ b) : 2 ^ min (k + 1) d ∣ min a b := by
  by_cases hkd : k < d
  · rw [Nat.min_eq_left hkd]
    exact hjoin hkd
  · rw [Nat.min_eq_right (by omega)] at ha hb ⊢
    rcases Nat.le_total a b with hab | hab
    · rwa [Nat.min_eq_left hab]
    · rwa [Nat.min_eq_right hab]

/-- Merging keeps alignment when every merge forms an aligned block. -/
theorem AlignedTo.merge {k' a' : Nat} (h : AlignedTo d A) (ha : 2 ^ min k d ∣ a)
    (hobeys : A.MergeObeys (JoinsAligned d) a k) (hm : A.merge a k = (a', k', B)) :
    AlignedTo d B ∧ 2 ^ min k' d ∣ a' := by
  induction A, a, k using ListedBuddy.merge.induct with
  | case1 A a k hlt hmem ih =>
    rw [merge_of_mem hlt hmem] at hm
    exact ih (h.mono (remove_subset A _ k))
      (dvd_join (fun hd => hobeys.here hlt hd hmem) ha (h k _ hmem)) (hobeys.next hlt hmem) hm
  | case2 A a k hlt hmem =>
    rw [merge_of_not_mem fun _ => hmem] at hm
    cases hm
    exact ⟨h, ha⟩
  | case3 A a k hge =>
    rw [merge_of_not_mem fun hlt => absurd hlt hge] at hm
    cases hm
    exact ⟨h, ha⟩

/-- Buddies that agree with aligned pairs form aligned blocks. -/
theorem AlignedTo.joins_of_agrees (h : AlignedTo d A) (ha : 2 ^ min k d ∣ a)
    (hobeys : A.MergeObeys (BuddyAgrees d) a k) : A.MergeObeys (JoinsAligned d) a k := by
  induction A, a, k using ListedBuddy.merge.induct with
  | case1 A a k hlt hmem ih =>
    have hjoin : k < d → 2 ^ (k + 1) ∣ min a (A.buddyOf a k) := by
      intro hd
      rw [Nat.min_eq_left (Nat.le_of_lt hd)] at ha
      rcases hobeys.here hlt hd with he | ⟨hno, _⟩
      · exact he ▸ TwoPow.dvd_min_xor ha
      · exact absurd hmem hno
    rw [MergeObeys]
    intro _
    exact ⟨fun hd _ => hjoin hd, fun _ => ih (h.mono (remove_subset A _ k))
      (dvd_join hjoin ha (h k _ hmem)) (hobeys.next hlt hmem)⟩
  | case2 A a k hlt hmem => exact MergeObeys.of_not_mem hmem fun _ hno => absurd hno hmem
  | case3 A a k hge =>
    rw [MergeObeys]
    exact fun hlt => absurd hlt hge

/-- Merging and pushing the result keeps free space coalesced. -/
theorem CoalescedBelow.merge {k' a' : Nat} (h : CoalescedBelow d A)
    (hobeys : A.MergeObeys (BuddyAgrees d) a k) (hm : A.merge a k = (a', k', B)) :
    CoalescedBelow d (B.push a' k') := by
  induction A, a, k using ListedBuddy.merge.induct with
  | case1 A a k hlt hmem ih =>
    rw [merge_of_mem hlt hmem] at hm
    exact ih (h.mono rfl (remove_subset A _ k)) (hobeys.next hlt hmem) hm
  | case2 A a k hlt hmem =>
    rw [merge_of_not_mem fun _ => hmem] at hm
    have hagrees := hobeys.here hlt
    cases hm
    refine h.push fun hd _ => ?_
    rcases hagrees hd with he | ⟨_, hno⟩
    · exact he ▸ hmem
    · exact hno
  | case3 A a k hge =>
    rw [merge_of_not_mem fun hlt => absurd hlt hge] at hm
    cases hm
    exact h.push fun _ hlt => absurd hlt hge

/-- Below the alignment of the heap start, buddies are the halves of aligned pairs. -/
theorem mergeObeys_of_dvd (hdvd : 2 ^ d ∣ A.heapStart) (ha : A.heapStart ≤ a) :
    A.MergeObeys (BuddyAgrees d) a k := by
  induction A, a, k using ListedBuddy.merge.induct with
  | case1 A a k hlt hmem ih =>
    rw [MergeObeys]
    refine fun _ => ⟨fun hd => Or.inl ?_, fun _ => ih hdvd ?_⟩
    · exact TwoPow.add_xor_sub (Nat.dvd_trans (Nat.pow_dvd_pow 2 hd) hdvd) ha
    · exact Nat.le_min.mpr ⟨ha, Nat.le_add_right _ _⟩
  | case2 A a k hlt hmem =>
    refine MergeObeys.of_not_mem hmem fun hd => Or.inl ?_
    exact TwoPow.add_xor_sub (Nat.dvd_trans (Nat.pow_dvd_pow 2 hd) hdvd) ha
  | case3 A a k hge =>
    rw [MergeObeys]
    exact fun hlt => absurd hlt hge

/-! ## Seeding -/

/-- Every seed is aligned to its size, and a seed that is the lower half of an
aligned pair was not seeded as the pair because that does not fit. -/
private def Seeds (stop : Nat) (A : ListedBuddy) : Prop :=
  ∀ k, ∀ a ∈ A.lists k, 2 ^ k ∣ a ∧
    (k < A.maxOrder → 2 ^ (k + 1) ∣ a → stop < a + 2 ^ (k + 1))

private theorem seeds_seed {A : ListedBuddy} {addr remaining stop : Nat} (h : Seeds stop A)
    (hmax : minOrder ≤ A.maxOrder) (haddr : 64 ∣ addr) (hstop : addr + remaining = stop) :
    Seeds stop (A.seed addr remaining) := by
  induction remaining using Nat.strong_induction_on generalizing A addr with
  | _ remaining ih =>
    by_cases hremaining : 64 ≤ remaining
    · rw [A.seed_step hmax hremaining haddr]
      obtain ⟨hk, hsize, hdvd, hlargest⟩ := seedOrder_spec hmax hremaining haddr
      generalize seedOrder addr remaining A.maxOrder = k at hk hsize hdvd hlargest ⊢
      have hpos : 0 < 2 ^ k := Nat.two_pow_pos k
      refine ih _ (by omega) (fun j a ha => ?_) hmax
        (Nat.dvd_add haddr (dvd_two_pow_of_minOrder hk.1)) (by omega)
      rcases mem_push.mp ha with ⟨rfl, rfl⟩ | ha
      · refine ⟨hdvd, fun hlt hpair => ?_⟩
        by_contra hfit
        exact hlargest (j + 1) (Nat.lt_succ_self j) hlt (by omega) hpair
      · exact h j a ha
    · rw [ListedBuddy.seed_done (by omega)]
      exact h

private theorem seeds_seeded (R : HeapRange) : Seeds (R.start + R.size) R.seeded :=
  seeds_seed (fun _ _ ha => absurd ha List.not_mem_nil) R.maxOrder_bounds.1
    (Nat.dvd_of_mod_eq_zero R.aligned) rfl

/-- `init` seeds blocks that are aligned to their size. -/
theorem AlignedTo.seeded (R : HeapRange) (d : Nat) : AlignedTo d R.seeded := by
  intro k a ha
  exact Nat.dvd_trans (Nat.pow_dvd_pow 2 (Nat.min_le_left k d)) (seeds_seeded R k a ha).1

/-- `init` leaves no aligned pair free in halves. -/
theorem CoalescedBelow.seeded (R : HeapRange) (d : Nat) : CoalescedBelow d R.seeded := by
  intro k _ hlt a ha hb
  obtain ⟨hdvd, hfit⟩ := seeds_seeded R k a ha
  obtain ⟨_, hfit'⟩ := seeds_seeded R k _ hb
  have hbounds := R.seeded_parts.1.block_bounds ha
  have hbounds' := R.seeded_parts.1.block_bounds hb
  have hstop : R.stop ≤ R.start + R.size := by
    have := Nat.div_mul_le_self R.size 64
    unfold HeapRange.stop
    omega
  have hpair := TwoPow.dvd_min_xor hdvd
  rw [pow_succ] at hpair hfit hfit'
  rcases TwoPow.xor_cases a k with ⟨_, he⟩ | ⟨_, _, he⟩
  · rw [he] at hpair hbounds'
    rw [Nat.min_eq_left (Nat.le_add_right _ _)] at hpair
    have := hfit hlt hpair
    omega
  · rw [he] at hpair hfit' hbounds'
    rw [Nat.min_eq_right (Nat.sub_le _ _)] at hpair
    have := hfit' hlt hpair
    omega

/-! ## Completeness -/

/-- An aligned range of order `k` that is free leaves a free block of order `k` or more. -/
theorem Parts.exists_free {rest : List Span} {lo hi : Nat} (h : Parts A rest lo hi)
    (haligned : AlignedTo d A) (hcoalesced : CoalescedBelow d A) (hkd : k ≤ d)
    (hk : k ≤ A.maxOrder) (ha : 2 ^ k ∣ a) (hlo : lo ≤ a) (hhi : a + 2 ^ k ≤ hi)
    (hrest : ∀ b ∈ rest, (blockSpan k a).Disjoint b) :
    ∃ j, k ≤ j ∧ j ≤ A.maxOrder ∧ A.lists j ≠ [] := by
  by_contra hno
  have hsmall : ∀ j, ∀ b ∈ A.lists j, j < k := by
    intro j b hb
    by_contra hge
    exact hno ⟨j, Nat.not_lt.mp hge, (h.order_bounds hb).2, List.ne_nil_of_mem hb⟩
  have hcover : ∀ x, a ≤ x → x < a + 2 ^ k →
      ∃ j b, b ∈ A.lists j ∧ j < k ∧ 2 ^ j ∣ b ∧ b ≤ x ∧ x < b + 2 ^ j := by
    intro x hax hxa
    obtain ⟨c, hc, hxc⟩ := h.tiles.exists_mem (Nat.le_trans hlo hax) (Nat.lt_of_lt_of_le hxa hhi)
    rcases List.mem_append.mp hc with hc | hc
    · obtain ⟨j, b, _, _, hb, rfl⟩ := mem_freeSpans.mp hc
      have hjk := hsmall j b hb
      have hdvd := haligned j b hb
      rw [Nat.min_eq_left (by omega)] at hdvd
      exact ⟨j, b, hb, hjk, hdvd, hxc⟩
    · exact absurd hxc (hrest c hc x ⟨hax, hxa⟩)
  obtain ⟨j, b, hjk, hb, hb'⟩ := TwoPow.exists_buddies (S := fun j b => b ∈ A.lists j) ha hcover
    fun hb hc h1 h2 h3 h4 => h.block_unique hb hc ⟨h1, h2⟩ ⟨h3, h4⟩
  exact hcoalesced j (by omega) (by omega) b hb hb'

end Lists

/-! ## Runs -/

/-- The condition holds along the merge of a `dealloc`. -/
def DeallocObeys (P : ListedBuddy → Nat → Nat → Prop) (A : ListedBuddy) : Action → Prop
  | .dealloc ptr layout => A.MergeObeys P ptr (blockOrder layout)
  | _ => True

namespace ListedMachine

open ListedBuddy

variable {R : HeapRange} {m m' : ListedMachine} {d : Nat}

/-- Free and live blocks are aligned to their size or to `2 ^ d`. -/
structure Aligned (d : Nat) (m : ListedMachine) : Prop where
  /-- Free blocks. -/
  free : AlignedTo d m.heap
  /-- Live blocks. -/
  live : ∀ b ∈ m.live, 2 ^ min (blockOrder b.2) d ∣ b.1

/-- The blocks of a fresh heap are aligned. -/
theorem aligned_boot (R : HeapRange) (d : Nat) : R.bootListed.Aligned d where
  free := AlignedTo.seeded R d
  live _ hb := absurd hb List.not_mem_nil

/-- A step whose merges form aligned blocks keeps all blocks aligned. -/
theorem Aligned.step (h : m.Aligned d) (hinv : m.Inv R) {a : Action}
    (hobeys : DeallocObeys (JoinsAligned d) m.heap a) (hstep : m.step a = some m') :
    m'.Aligned d := by
  rcases step_cases hinv hstep with ⟨layout, rfl, _, rfl⟩ |
    ⟨layout, k, addr, B, rfl, horder, hA, _, _, rfl⟩ |
    ⟨ptr, layout, k, addr, order, B, rfl, hmem, horder, hk, hm, rfl⟩ | ⟨_, _, rfl, _, rfl⟩
  · exact h
  · obtain ⟨hfree, hdvd⟩ := h.free.allocateOrder hA
    refine ⟨hfree, fun b hb => ?_⟩
    rcases List.mem_cons.mp hb with rfl | hb
    · rw [blockOrder_eq horder]
      exact hdvd
    · exact h.live b hb
  · have hlive := h.live _ hmem
    rw [DeallocObeys, blockOrder_eq horder] at hobeys
    rw [blockOrder_eq horder] at hlive
    obtain ⟨hfree, hdvd⟩ := h.free.merge hlive hobeys hm
    exact ⟨hfree.push hdvd, fun b hb => h.live b (List.mem_of_mem_erase hb)⟩
  · exact h

/-- A step whose merges follow aligned pairs keeps free space coalesced. -/
theorem coalesced_step (h : CoalescedBelow d m.heap) (hinv : m.Inv R) {a : Action}
    (hobeys : DeallocObeys (BuddyAgrees d) m.heap a) (hstep : m.step a = some m') :
    CoalescedBelow d m'.heap := by
  rcases step_cases hinv hstep with ⟨layout, rfl, _, rfl⟩ |
    ⟨layout, k, addr, B, rfl, horder, hA, _, _, rfl⟩ |
    ⟨ptr, layout, k, addr, order, B, rfl, hmem, horder, hk, hm, rfl⟩ | ⟨_, _, rfl, _, rfl⟩
  · exact h
  · exact h.allocateOrder hA
  · rw [DeallocObeys, blockOrder_eq horder] at hobeys
    exact h.merge hobeys hm
  · exact h

/-- The partition, with aligned blocks and coalesced free space. -/
structure Tidy (R : HeapRange) (d : Nat) (m : ListedMachine) : Prop where
  /-- Free and live blocks partition the heap. -/
  inv : m.Inv R
  /-- All blocks are aligned. -/
  aligned : m.Aligned d
  /-- Free space is coalesced. -/
  coalesced : CoalescedBelow d m.heap

/-- A fresh heap is tidy. -/
theorem tidy_boot (R : HeapRange) (d : Nat) : R.bootListed.Tidy R d where
  inv := inv_boot R
  aligned := aligned_boot R d
  coalesced := CoalescedBelow.seeded R d

/-- A step whose merges follow aligned pairs keeps the heap tidy. -/
theorem Tidy.step (h : m.Tidy R d) {a : Action}
    (hobeys : DeallocObeys (BuddyAgrees d) m.heap a) (hstep : m.step a = some m') :
    m'.Tidy R d where
  inv := h.inv.step hstep
  coalesced := coalesced_step h.coalesced h.inv hobeys hstep
  aligned := by
    refine h.aligned.step h.inv ?_ hstep
    cases a with
    | alloc layout => trivial
    | dealloc ptr layout =>
      have hmem : (ptr, layout) ∈ m.live := (step_eq_some.mp hstep).1
      exact h.aligned.free.joins_of_agrees (h.aligned.live (ptr, layout) hmem) hobeys
    | write addr byte => trivial

/-- A heap start that is a multiple of `2 ^ d` keeps every run tidy up to order `d`. -/
theorem Tidy.run (h : m.Tidy R d) (hdvd : 2 ^ d ∣ R.start) {acts : List Action}
    (hrun : m.run acts = some m') : m'.Tidy R d := by
  refine Transition.run_invariant (P := ListedMachine.Tidy R d) ?_ h hrun
  intro m a m' h hstep
  refine h.step ?_ hstep
  cases a with
  | alloc layout => trivial
  | dealloc ptr layout =>
    have hmem : (ptr, layout) ∈ m.live := (step_eq_some.mp hstep).1
    have hlo := (h.inv.parts.tiles.bounds
      (List.mem_append_right _ (List.mem_map_of_mem hmem)) (Parts.start_mem _ ptr)).1
    rw [← h.inv.parts.start_eq] at hlo hdvd
    exact mergeObeys_of_dvd hdvd hlo
  | write addr byte => trivial

/-- Allocation returns aligned pointers when the heap is aligned up to its largest order. -/
theorem Aligned.alloc_dvd (h : m.Aligned d) (hinv : m.Inv R) (hd : R.maxOrder ≤ d)
    (layout : Layout) : layout.align ∣ (m.heap.alloc layout).1 := by
  rcases m.heap.alloc_cases layout with ⟨ha, _⟩ | ⟨k, addr, B, horder, hA, ha⟩
  · rw [ha]
    exact Nat.dvd_zero _
  · obtain ⟨hmin, _, hsize, _⟩ := orderForSize_spec horder
    obtain ⟨_, _, hk⟩ := hinv.parts.allocateOrder hmin hA
    have hdvd := (h.free.allocateOrder hA).2
    rw [hinv.maxOrder_eq] at hk
    rw [Nat.min_eq_left (Nat.le_trans hk hd)] at hdvd
    rw [ha]
    exact Nat.dvd_trans (layout.align_dvd (by omega)) hdvd

/-- Allocation succeeds when an aligned range of the requested size is free. -/
theorem Tidy.alloc_ne_zero (h : m.Tidy R d) {k a : Nat} (hkd : k ≤ d) (hmin : minOrder ≤ k)
    (hmax : k ≤ R.maxOrder) (ha : 2 ^ k ∣ a) (hlo : R.start ≤ a) (hhi : a + 2 ^ k ≤ R.stop)
    (hfree : ∀ b ∈ m.live, (blockSpan k a).Disjoint (liveSpan b)) {layout : Layout}
    (hsize : layout.size = 2 ^ k) (halign : layout.align ≤ 2 ^ k) :
    (m.heap.alloc layout).1 ≠ 0 := by
  have horder := order_of_size hmin (Nat.le_trans hmax R.maxOrder_bounds.2) hsize halign
  have hrest : ∀ b ∈ m.live.map liveSpan, (blockSpan k a).Disjoint b := by
    intro b hb
    obtain ⟨c, hc, rfl⟩ := List.mem_map.mp hb
    exact hfree c hc
  obtain ⟨j, hkj, hj, hne⟩ := h.inv.parts.exists_free h.aligned.free h.coalesced hkd
    (h.inv.maxOrder_eq ▸ hmax) ha hlo hhi hrest
  rcases m.heap.alloc_cases layout with ⟨_, hempty⟩ | ⟨k', addr, B, horder', hA, he⟩
  · exact absurd (hempty k horder j hkj hj) hne
  · obtain ⟨hparts, _⟩ := h.inv.parts.allocateOrder (orderForSize_spec horder').1 hA
    have hb := (hparts.tiles.bounds (List.mem_append_right _ List.mem_cons_self)
      (Parts.start_mem k' addr)).1
    have hpos := R.start_pos
    rw [he]
    dsimp only
    omega

end ListedMachine

end SillOS.Buddy

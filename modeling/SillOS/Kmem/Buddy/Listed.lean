import SillOS.Core.TwoPow
import SillOS.Kmem.Buddy.Machine

/-!
# The list-based buddy allocator

The abstract allocator keeps the free blocks of each order in an ordinary list:
push and pop work at the front, a merge removes an address. Its state is always
considered together with the memory that is not free, so that an operation is a
transfer of spans between the lists and the rest of a tiling of the heap.
-/

namespace SillOS.Buddy

open Tiling

/-- The free blocks of a heap, one list of addresses for each order. -/
structure ListedBuddy where
  /-- First address of the heap. -/
  heapStart : Nat
  /-- Largest order of the heap. -/
  maxOrder : Nat
  /-- The free blocks of each order, most recently freed first. -/
  lists : Nat → List Nat

namespace ListedBuddy

/-- Exchange the list of one order. -/
def withList (A : ListedBuddy) (order : Nat) (as : List Nat) : ListedBuddy :=
  { A with lists := Function.update A.lists order as }

/-- Push front. -/
def push (A : ListedBuddy) (addr order : Nat) : ListedBuddy :=
  A.withList order (addr :: A.lists order)

/-- Remove by address. -/
def remove (A : ListedBuddy) (addr order : Nat) : ListedBuddy :=
  A.withList order ((A.lists order).erase addr)

/-- Setting one list changes nothing else. -/
@[simp] theorem withList_heapStart (A : ListedBuddy) (order : Nat) (as : List Nat) :
    (A.withList order as).heapStart = A.heapStart := rfl

@[simp] theorem withList_maxOrder (A : ListedBuddy) (order : Nat) (as : List Nat) :
    (A.withList order as).maxOrder = A.maxOrder := rfl

@[simp] theorem withList_lists_self (A : ListedBuddy) (order : Nat) (as : List Nat) :
    (A.withList order as).lists order = as := Function.update_self _ _ _

/-- The other lists stay. -/
theorem withList_lists_of_ne (A : ListedBuddy) {order k : Nat} (h : k ≠ order) (as : List Nat) :
    (A.withList order as).lists k = A.lists k := Function.update_of_ne h _ _

/-- Pop front, splitting the next larger free block when the list is empty. -/
def allocateOrder (A : ListedBuddy) (order : Nat) : Option Nat × ListedBuddy :=
  if order > A.maxOrder then (none, A)
  else
    match A.lists order with
    | addr :: rest => (some addr, A.withList order rest)
    | [] =>
      match A.allocateOrder (order + 1) with
      | (none, B) => (none, B)
      | (some addr, B) => (some addr, B.push (addr + 2 ^ order) order)
termination_by A.maxOrder + 1 - order

/-- The block paired with a block by its offset from the heap start. -/
def buddyOf (A : ListedBuddy) (addr order : Nat) : Nat :=
  A.heapStart + ((addr - A.heapStart) ^^^ 2 ^ order)

/-- Merge a block with its buddy as long as that is free. -/
def merge (A : ListedBuddy) (addr order : Nat) : Nat × Nat × ListedBuddy :=
  if order < A.maxOrder then
    if A.buddyOf addr order ∈ A.lists order then
      (A.remove (A.buddyOf addr order) order).merge (min addr (A.buddyOf addr order)) (order + 1)
    else (addr, order, A)
  else (addr, order, A)
termination_by A.maxOrder - order
decreasing_by simp only [remove, withList_maxOrder]; omega

/-- The pointer returned for a layout, `0` on failure, and the heap afterwards. -/
def alloc (A : ListedBuddy) (layout : Layout) : Nat × ListedBuddy :=
  match orderForSize (max layout.size layout.align) with
  | none => (0, A)
  | some order =>
    match A.allocateOrder order with
    | (some addr, B) => (addr, B)
    | (none, B) => (0, B)

/-- Free a block: merge it and push the result. -/
def dealloc (A : ListedBuddy) (ptr : Nat) (layout : Layout) : ListedBuddy :=
  match orderForSize (max layout.size layout.align) with
  | none => A
  | some order =>
    let (addr, order, B) := A.merge ptr order
    B.push addr order

/-- Seed the rest of the heap, block by block. -/
def seed (A : ListedBuddy) (addr remaining : Nat) : ListedBuddy :=
  if remaining ≥ 64 then
    let order := seedOrder addr remaining A.maxOrder
    if 2 ^ order > remaining ∨ addr % 2 ^ order ≠ 0 then A
    else (A.push addr order).seed (addr + 2 ^ order) (remaining - 2 ^ order)
  else A
termination_by remaining
decreasing_by
  have hpos : 0 < 2 ^ seedOrder addr remaining A.maxOrder := Nat.two_pow_pos _
  omega

/-- A free buddy is removed and merged with. -/
theorem merge_of_mem {A : ListedBuddy} {addr order : Nat} (hlt : order < A.maxOrder)
    (h : A.buddyOf addr order ∈ A.lists order) :
    A.merge addr order = (A.remove (A.buddyOf addr order) order).merge
      (min addr (A.buddyOf addr order)) (order + 1) := by
  rw [merge, if_pos hlt, if_pos h]

/-- Without a free buddy below the largest order, merging is over. -/
theorem merge_of_not_mem {A : ListedBuddy} {addr order : Nat}
    (h : order < A.maxOrder → A.buddyOf addr order ∉ A.lists order) :
    A.merge addr order = (addr, order, A) := by
  rw [merge]
  split
  · rename_i hlt
    rw [if_neg (h hlt)]
  · rfl

/-! ## What allocation does -/

/-- A failed allocation changes nothing, and fails because every list from the
requested order on is empty. -/
theorem allocateOrder_none {A B : ListedBuddy} {order : Nat}
    (h : A.allocateOrder order = (none, B)) :
    B = A ∧ ∀ k, order ≤ k → k ≤ A.maxOrder → A.lists k = [] := by
  induction order using allocateOrder.induct A with
  | case1 order hgt =>
    rw [allocateOrder, if_pos hgt] at h
    cases h
    exact ⟨rfl, fun k h1 h2 => by omega⟩
  | case2 order hle addr rest hl =>
    rw [allocateOrder, if_neg hle] at h
    simp [hl] at h
  | case3 order hle hl C hC ih =>
    rw [allocateOrder, if_neg hle] at h
    simp only [hl, hC] at h
    cases h
    obtain ⟨rfl, hempty⟩ := ih hC
    refine ⟨rfl, fun k h1 h2 => ?_⟩
    rcases Nat.eq_or_lt_of_le h1 with rfl | h1
    · exact hl
    · exact hempty k h1 h2
  | case4 order hle hl addr C hC ih =>
    rw [allocateOrder, if_neg hle] at h
    simp [hl, hC] at h

/-- A successful allocation takes the head of the first nonempty list and leaves
one block, the upper half, in each list below it. -/
theorem allocateOrder_some {A B : ListedBuddy} {order addr : Nat}
    (h : A.allocateOrder order = (some addr, B)) :
    ∃ j rest, order ≤ j ∧ j ≤ A.maxOrder ∧ A.lists j = addr :: rest ∧
      (∀ i, order ≤ i → i < j → A.lists i = []) ∧
      B = { A with lists := fun i =>
        if i = j then rest else if order ≤ i ∧ i < j then [addr + 2 ^ i] else A.lists i } := by
  induction order using allocateOrder.induct A generalizing B with
  | case1 order hgt =>
    rw [allocateOrder, if_pos hgt] at h
    cases h
  | case2 order hle head rest hl =>
    rw [allocateOrder, if_neg hle] at h
    simp only [hl] at h
    cases h
    refine ⟨order, rest, Nat.le_refl _, by omega, hl, fun i h1 h2 => by omega, ?_⟩
    simp only [withList, mk.injEq, true_and]
    funext i
    by_cases hi : i = order
    · subst hi
      simp
    · have hno : ¬(order ≤ i ∧ i < order) := by omega
      simp [hi, hno]
  | case3 order hle hl C hC ih =>
    rw [allocateOrder, if_neg hle] at h
    simp [hl, hC] at h
  | case4 order hle hl head C hC ih =>
    rw [allocateOrder, if_neg hle] at h
    simp only [hl, hC] at h
    cases h
    obtain ⟨j, rest, h1, h2, hj, hempty, rfl⟩ := ih hC
    refine ⟨j, rest, by omega, h2, hj, fun i hi1 hi2 => ?_, ?_⟩
    · rcases Nat.eq_or_lt_of_le hi1 with rfl | hi1
      · exact hl
      · exact hempty i hi1 hi2
    · have hoj : order ≠ j := by omega
      have hno : ¬(order + 1 ≤ order ∧ order < j) := by omega
      simp only [push, withList, mk.injEq, true_and, hoj, hno, if_false, hl]
      funext i
      by_cases hi : i = order
      · subst hi
        have hyes : i ≤ i ∧ i < j := by omega
        simp [hoj, hyes]
      · have hiff : (order + 1 ≤ i ∧ i < j) ↔ (order ≤ i ∧ i < j) := by omega
        simp only [Function.update_of_ne hi, hiff]

/-- An allocation either fails without effect or hands out a block of the order
found for its layout. -/
theorem alloc_cases (A : ListedBuddy) (layout : Layout) :
    (A.alloc layout = (0, A) ∧
      ∀ k, orderForSize (max layout.size layout.align) = some k →
        ∀ j, k ≤ j → j ≤ A.maxOrder → A.lists j = []) ∨
    ∃ k addr B, orderForSize (max layout.size layout.align) = some k ∧
      A.allocateOrder k = (some addr, B) ∧ A.alloc layout = (addr, B) := by
  unfold alloc
  cases horder : orderForSize (max layout.size layout.align) with
  | none => exact Or.inl ⟨rfl, fun k hk => by cases hk⟩
  | some k =>
    dsimp only
    rcases hA : A.allocateOrder k with ⟨_ | addr, B⟩
    · obtain ⟨rfl, hempty⟩ := allocateOrder_none hA
      refine Or.inl ⟨rfl, fun k' hk' => ?_⟩
      cases hk'
      exact hempty
    · exact Or.inr ⟨k, addr, B, rfl, hA, rfl⟩

end ListedBuddy

end SillOS.Buddy

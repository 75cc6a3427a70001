import Mathlib.Data.List.Perm.Subperm
import SillOS.Kmem.Buddy.Coalescing

/-!
# Heap starts that are not aligned to the largest block

Suppose the heap start is a multiple of `2 ^ t` and not of the next power, and
order `t` is below the largest. Filling the heap with blocks of order `t` makes
every aligned range of that order live. Freeing the first two then merges them
into a misaligned block, and freeing the second and third does not merge them at
all although they form an aligned pair.
-/

namespace SillOS.Buddy

open Tiling

namespace ListedBuddy

variable {A : ListedBuddy} {layout : Layout} {k a : Nat}

/-- Freeing a block whose buddy is not free. -/
theorem dealloc_of_not_mem (horder : orderForSize (max layout.size layout.align) = some k)
    (h : A.buddyOf a k ∉ A.lists k) : A.dealloc a layout = A.push a k := by
  simp only [dealloc, horder, merge_of_not_mem fun _ => h]

/-- Allocating from a list that is not empty. -/
theorem alloc_of_head {as : List Nat}
    (horder : orderForSize (max layout.size layout.align) = some k) (hk : k ≤ A.maxOrder)
    (hl : A.lists k = a :: as) : A.alloc layout = (a, A.withList k as) := by
  have hA : A.allocateOrder k = (some a, A.withList k as) := by
    rw [allocateOrder, if_neg (Nat.not_lt.mpr hk)]
    simp only [hl]
  simp only [alloc, horder, hA]

/-- Allocating when no large enough block is free. -/
theorem alloc_of_empty (horder : orderForSize (max layout.size layout.align) = some k)
    (hempty : ∀ j, k ≤ j → A.lists j = []) : A.alloc layout = (0, A) := by
  rcases A.alloc_cases layout with ⟨ha, _⟩ | ⟨k', addr, B, horder', hA, _⟩
  · exact ha
  · obtain rfl : k = k' := Option.some.inj (horder.symm.trans horder')
    obtain ⟨j, rest, hkj, _, hl, _⟩ := allocateOrder_some hA
    rw [hempty j hkj] at hl
    cases hl

end ListedBuddy

namespace ListedMachine

open ListedBuddy

variable {R : HeapRange} {m : ListedMachine} {layout : Layout} {k t : Nat}

/-- There are at most as many live blocks as addresses. -/
theorem Inv.live_length_le (h : m.Inv R) : m.live.length ≤ R.stop := by
  have hstart (b : Nat × Layout) : b.1 ∈ liveSpan b := Parts.start_mem _ _
  have hnodup : (m.live.map Prod.fst).Nodup := by
    have hpair := (List.pairwise_append.mp h.parts.tiles.disjoint).2.1
    rw [List.pairwise_map] at hpair
    refine List.pairwise_map.mpr (hpair.imp fun {b c} hd he => ?_)
    exact hd b.1 (hstart b) (he ▸ hstart c)
  have hsub : m.live.map Prod.fst ⊆ List.range R.stop := by
    intro a ha
    obtain ⟨b, hb, rfl⟩ := List.mem_map.mp ha
    have hbounds := h.parts.tiles.bounds
      (List.mem_append_right _ (List.mem_map_of_mem hb)) (hstart b)
    exact List.mem_range.mpr hbounds.2
  have hle := (hnodup.subperm hsub).length_le
  rwa [List.length_map, List.length_range] at hle

/-- Allocating one layout again and again ends with no block of its order free. -/
theorem Inv.exhaust (h : m.Inv R) (horder : orderForSize (max layout.size layout.align) = some k) :
    ∃ n m', m.run (List.replicate n (.alloc layout)) = some m' ∧
      (∀ j, k ≤ j → m'.heap.lists j = []) ∧ ∀ b ∈ m'.live, b ∈ m.live ∨ b.2 = layout := by
  induction hn : R.stop - m.live.length using Nat.strong_induction_on generalizing m with
  | _ n ih =>
    have hstep : m.step (.alloc layout) = some (m.act (.alloc layout)) := if_pos trivial
    rcases step_cases h hstep with ⟨layout', he, ha, _⟩ |
      ⟨layout', k', addr, B, he, _, _, _, _, hm⟩ | ⟨_, _, _, _, _, _, he, _⟩ | ⟨_, _, he, _⟩
    · cases he
      rcases m.heap.alloc_cases layout with ⟨_, hempty⟩ | ⟨k', addr, B, horder', hA, ha'⟩
      · refine ⟨0, m, rfl, fun j hj => ?_, fun b hb => Or.inl hb⟩
        by_contra hne
        exact hne (hempty k horder j hj (h.parts.nonempty j hne).2)
      · obtain ⟨hparts, _⟩ := h.parts.allocateOrder (orderForSize_spec horder').1 hA
        have hlo := (hparts.tiles.bounds (List.mem_append_right _ List.mem_cons_self)
          (Parts.start_mem k' addr)).1
        have hpos := R.start_pos
        rw [ha] at ha'
        cases ha'
        omega
    · cases he
      have hinv := h.step hstep
      have hlive : (m.act (.alloc layout)).live = (addr, layout) :: m.live := by rw [hm]
      have hlength := hinv.live_length_le
      rw [hlive, List.length_cons] at hlength
      obtain ⟨i, m', hrun, hempty, hall⟩ := ih _ (by rw [hlive, List.length_cons]; omega) hinv rfl
      refine ⟨i + 1, m', Transition.run_cons_eq_some.mpr ⟨_, hstep, hrun⟩, hempty, fun b hb => ?_⟩
      rcases hall b hb with hb | hb
      · rw [hlive] at hb
        rcases List.mem_cons.mp hb with rfl | hb
        · exact Or.inr rfl
        · exact Or.inl hb
      · exact Or.inr hb
    · cases he
    · cases he

/-- Some run fills the heap: no block of order `t` or more is free, and every
aligned range of order `t` is a live block. -/
theorem exists_full (R : HeapRange) (hmax : t ≤ R.maxOrder)
    (hdvd : 2 ^ t ∣ R.start) (hlayout : orderForSize (max layout.size layout.align) = some t) :
    ∃ acts m, R.bootListed.run acts = some m ∧ m.Inv R ∧ (∀ j, t ≤ j → m.heap.lists j = []) ∧
      ∀ a, 2 ^ t ∣ a → R.start ≤ a → a + 2 ^ t ≤ R.stop → (a, layout) ∈ m.live := by
  obtain ⟨n, m, hrun, hempty, hall⟩ := (inv_boot R).exhaust hlayout
  have htidy := (tidy_boot R t).run hdvd hrun
  refine ⟨_, m, hrun, htidy.inv, hempty, fun a ha hlo hhi => ?_⟩
  by_contra hno
  have hrest : ∀ b ∈ m.live.map liveSpan, (blockSpan t a).Disjoint b := by
    intro b hb x hxa hxb
    obtain ⟨⟨p, layout'⟩, hp, rfl⟩ := List.mem_map.mp hb
    obtain rfl : layout' = layout := (hall _ hp).resolve_left List.not_mem_nil
    have hpdvd := htidy.aligned.live _ hp
    rw [liveSpan_eq hlayout] at hxb
    simp only [blockOrder_eq hlayout, Nat.min_self] at hpdvd
    -- Two aligned ranges of one order that meet are equal.
    have h1 := TwoPow.nested ha hpdvd (Nat.le_refl t) hxa hxb
    have h2 := TwoPow.nested hpdvd ha (Nat.le_refl t) hxb hxa
    obtain rfl : p = a := by omega
    exact hno hp
  obtain ⟨j, htj, _, hne⟩ := htidy.inv.parts.exists_free htidy.aligned.free htidy.coalesced
    (Nat.le_refl t) (htidy.inv.maxOrder_eq ▸ hmax) ha hlo hhi hrest
  exact hne (hempty j htj)

/-- A live block is freed by a step. -/
theorem step_dealloc {p : Nat} (hp : (p, layout) ∈ m.live) :
    m.step (.dealloc p layout) = some ⟨m.heap.dealloc p layout, m.live.erase (p, layout)⟩ :=
  if_pos hp

end ListedMachine

section Unaligned

open ListedBuddy ListedMachine

variable (R : HeapRange) {t : Nat}

/-- A block of the largest order fits the heap. -/
theorem HeapRange.two_pow_le : 2 ^ R.maxOrder ≤ 64 * (R.size / 64) := by
  have hspec := largestOrderFor_spec R.size_ge
  have hle : 2 ^ R.maxOrder ≤ 2 ^ largestOrderFor R.size :=
    Nat.pow_le_pow_right Nat.two_pos (Nat.min_le_left _ _)
  obtain ⟨q, hq⟩ := dvd_two_pow_of_minOrder R.maxOrder_bounds.1
  omega

/-- Freeing the first two of the blocks of order `t` merges them at the heap start. -/
private theorem dealloc_first_two {A : ListedBuddy} {layout : Layout}
    (horder : orderForSize (max layout.size layout.align) = some t) (hlt : t < A.maxOrder)
    (hempty : ∀ j, t ≤ j → A.lists j = []) :
    ((A.dealloc A.heapStart layout).dealloc (A.heapStart + 2 ^ t) layout).lists (t + 1) =
        [A.heapStart] ∧
      ((A.dealloc A.heapStart layout).dealloc (A.heapStart + 2 ^ t) layout).maxOrder =
        A.maxOrder := by
  have hnot : A.buddyOf A.heapStart t ∉ A.lists t := by
    rw [hempty t (Nat.le_refl t)]
    exact List.not_mem_nil
  rw [dealloc_of_not_mem horder hnot]
  have hbuddy : (A.push A.heapStart t).buddyOf (A.heapStart + 2 ^ t) t = A.heapStart := by
    simp [buddyOf, push]
  have hmem : (A.push A.heapStart t).buddyOf (A.heapStart + 2 ^ t) t ∈
      (A.push A.heapStart t).lists t := by
    rw [hbuddy]
    exact mem_push.mpr (Or.inl ⟨rfl, rfl⟩)
  have hnext : ((A.push A.heapStart t).remove A.heapStart t).lists (t + 1) = [] := by
    have hne : t + 1 ≠ t := Nat.succ_ne_self t
    rw [remove, withList_lists_of_ne _ hne, push, withList_lists_of_ne _ hne]
    exact hempty (t + 1) (Nat.le_succ t)
  have hlt' : t < (A.push A.heapStart t).maxOrder := hlt
  have hmerge : (A.push A.heapStart t).merge (A.heapStart + 2 ^ t) t =
      (A.heapStart, t + 1, (A.push A.heapStart t).remove A.heapStart t) := by
    rw [merge_of_mem hlt' hmem, hbuddy, Nat.min_eq_right (Nat.le_add_right _ _),
      merge_of_not_mem]
    intro _
    rw [hnext]
    exact List.not_mem_nil
  simp only [dealloc, horder, hmerge]
  constructor
  · rw [push, withList_lists_self, hnext]
  · rfl

/-- Some run ends in a state in which `alloc` returns a misaligned pointer. -/
theorem exists_misaligned (ht : minOrder ≤ t) (hlt : t < R.maxOrder) (hdvd : 2 ^ t ∣ R.start)
    (hno : ¬2 ^ (t + 1) ∣ R.start) :
    ∃ acts m, ∃ layout : Layout, R.bootListed.run acts = some m ∧
      (m.heap.alloc layout).1 ≠ 0 ∧ ¬layout.align ∣ (m.heap.alloc layout).1 := by
  have hmax : R.maxOrder ≤ 30 := R.maxOrder_bounds.2
  have hpos : 0 < 2 ^ t := Nat.two_pow_pos t
  have hfit : 2 ^ (t + 1) ≤ 2 ^ R.maxOrder := Nat.pow_le_pow_right Nat.two_pos hlt
  have hsize := R.two_pow_le
  have hstop : R.stop = R.start + 64 * (R.size / 64) := rfl
  rw [pow_succ] at hfit
  obtain ⟨layout, horder⟩ : ∃ layout : Layout,
      orderForSize (max layout.size layout.align) = some t :=
    ⟨Layout.bytes t (by omega), order_of_size ht (by rw [maxOrder]; omega) rfl hpos⟩
  obtain ⟨acts, m, hrun, hinv, hempty, hlive⟩ := exists_full R (Nat.le_of_lt hlt) hdvd horder
  have h0 := hlive R.start hdvd (Nat.le_refl _) (by omega)
  have h1 := hlive (R.start + 2 ^ t) (Nat.dvd_add_self_right.mpr hdvd) (by omega) (by omega)
  have hne : (R.start + 2 ^ t, layout) ≠ (R.start, layout) := by
    intro he
    have := congrArg Prod.fst he
    dsimp only at this
    omega
  have hlt' : t < m.heap.maxOrder := hinv.maxOrder_eq ▸ hlt
  obtain ⟨hlist, hmax'⟩ := dealloc_first_two horder hlt' hempty
  rw [hinv.parts.start_eq] at hlist hmax'
  have hblock : orderForSize (max (Layout.block (t + 1) (by omega)).size
      (Layout.block (t + 1) (by omega)).align) = some (t + 1) :=
    order_of_size (by omega) (by rw [maxOrder]; omega) rfl (Nat.le_refl _)
  have halloc := alloc_of_head hblock (by omega) hlist
  refine ⟨acts ++ [.dealloc R.start layout, .dealloc (R.start + 2 ^ t) layout],
    ⟨(m.heap.dealloc R.start layout).dealloc (R.start + 2 ^ t) layout,
      (m.live.erase (R.start, layout)).erase (R.start + 2 ^ t, layout)⟩,
    Layout.block (t + 1) (by omega), ?_, ?_, ?_⟩
  · rw [ListedMachine.run, Transition.run_append]
    refine Option.bind_eq_some_iff.mpr ⟨m, hrun, ?_⟩
    rw [Transition.run_cons, step_dealloc h0, Option.bind_some, Transition.run_cons,
      step_dealloc ((List.mem_erase_of_ne hne).mpr h1)]
    rfl
  · rw [halloc]
    exact R.start_ne
  · rw [halloc]
    exact hno

/-- Some run ends in a state in which `alloc` fails although an aligned range of the
requested size is free. -/
theorem exists_spurious (ht : minOrder ≤ t) (hlt : t < R.maxOrder) (hdvd : 2 ^ t ∣ R.start)
    (hno : ¬2 ^ (t + 1) ∣ R.start) (hsize : 3 * 2 ^ t ≤ R.size) :
    ∃ acts m, R.bootListed.run acts = some m ∧ R.start + 2 ^ t + 2 ^ (t + 1) ≤ R.stop ∧
      (∀ b ∈ m.live, (blockSpan (t + 1) (R.start + 2 ^ t)).Disjoint (liveSpan b)) ∧
      ∀ layout : Layout, layout.size = 2 ^ (t + 1) → layout.align ≤ 2 ^ (t + 1) →
        (m.heap.alloc layout).1 = 0 := by
  have hmax : R.maxOrder ≤ 30 := R.maxOrder_bounds.2
  have hpos : 0 < 2 ^ t := Nat.two_pow_pos t
  have hstop : R.stop = R.start + 64 * (R.size / 64) := rfl
  have hfit : 3 * 2 ^ t ≤ 64 * (R.size / 64) := by
    obtain ⟨q, hq⟩ := dvd_two_pow_of_minOrder ht
    omega
  obtain ⟨layout, horder⟩ : ∃ layout : Layout,
      orderForSize (max layout.size layout.align) = some t :=
    ⟨Layout.bytes t (by omega), order_of_size ht (by rw [maxOrder]; omega) rfl hpos⟩
  obtain ⟨acts, m, hrun, hinv, hempty, hlive⟩ := exists_full R (Nat.le_of_lt hlt) hdvd horder
  have h1 := hlive (R.start + 2 ^ t) (Nat.dvd_add_self_right.mpr hdvd) (by omega) (by omega)
  have h2 := hlive (R.start + 2 ^ t + 2 ^ t)
    (Nat.dvd_add_self_right.mpr (Nat.dvd_add_self_right.mpr hdvd)) (by omega) (by omega)
  have hne : (R.start + 2 ^ t + 2 ^ t, layout) ≠ (R.start + 2 ^ t, layout) := by
    intro he
    have := congrArg Prod.fst he
    dsimp only at this
    omega
  -- Neither of the two blocks finds its buddy in the lists.
  have hd1 : m.heap.dealloc (R.start + 2 ^ t) layout = m.heap.push (R.start + 2 ^ t) t := by
    refine dealloc_of_not_mem horder ?_
    rw [hempty t (Nat.le_refl t)]
    exact List.not_mem_nil
  have hd2 : (m.heap.push (R.start + 2 ^ t) t).dealloc (R.start + 2 ^ t + 2 ^ t) layout =
      (m.heap.push (R.start + 2 ^ t) t).push (R.start + 2 ^ t + 2 ^ t) t := by
    refine dealloc_of_not_mem horder fun hmem => ?_
    have hbit : (2 ^ t + 2 ^ t) / 2 ^ t = 2 := by
      rw [← Nat.two_mul, Nat.mul_div_cancel 2 hpos]
    rcases mem_push.mp hmem with ⟨_, he⟩ | hmem
    · rw [buddyOf, push, withList_heapStart, hinv.parts.start_eq, Nat.add_assoc,
        Nat.add_sub_cancel_left] at he
      rcases TwoPow.xor_cases (2 ^ t + 2 ^ t) t with ⟨_, he'⟩ | ⟨hodd, _⟩
      · omega
      · omega
    · rw [hempty t (Nat.le_refl t)] at hmem
      exact List.not_mem_nil hmem
  have hrun' : R.bootListed.run (acts ++ [.dealloc (R.start + 2 ^ t) layout,
      .dealloc (R.start + 2 ^ t + 2 ^ t) layout]) =
        some ⟨(m.heap.push (R.start + 2 ^ t) t).push (R.start + 2 ^ t + 2 ^ t) t,
          (m.live.erase (R.start + 2 ^ t, layout)).erase (R.start + 2 ^ t + 2 ^ t, layout)⟩ := by
    rw [ListedMachine.run, Transition.run_append]
    refine Option.bind_eq_some_iff.mpr ⟨m, hrun, ?_⟩
    rw [Transition.run_cons, step_dealloc h1, Option.bind_some, Transition.run_cons,
      step_dealloc ((List.mem_erase_of_ne hne).mpr h2), hd1, hd2]
    rfl
  have hinv' := (inv_boot R).run hrun'
  have hsplit : 2 ^ (t + 1) = 2 ^ t + 2 ^ t := by rw [pow_succ, Nat.mul_two]
  refine ⟨_, _, hrun', by omega, fun b hb x hx hxb => ?_, fun layout' hsize' halign' => ?_⟩
  · simp only [blockSpan, Span.mem_iff, hsplit] at hx
    have hlive' := List.mem_map_of_mem (f := liveSpan) hb
    rcases Nat.lt_or_ge x (R.start + 2 ^ t + 2 ^ t) with hlow | hhigh
    · have hfree : R.start + 2 ^ t ∈
          ((m.heap.push (R.start + 2 ^ t) t).push (R.start + 2 ^ t + 2 ^ t) t).lists t :=
        mem_push.mpr (Or.inr (mem_push.mpr (Or.inl ⟨rfl, rfl⟩)))
      exact hinv'.parts.disjoint_rest hfree hlive' ⟨hx.1, hlow⟩ hxb
    · have hfree : R.start + 2 ^ t + 2 ^ t ∈
          ((m.heap.push (R.start + 2 ^ t) t).push (R.start + 2 ^ t + 2 ^ t) t).lists t :=
        mem_push.mpr (Or.inl ⟨rfl, rfl⟩)
      refine hinv'.parts.disjoint_rest hfree hlive' ⟨hhigh, ?_⟩ hxb
      simp only [blockSpan]
      omega
  · have horder' := order_of_size (by omega) (by rw [maxOrder]; omega) hsize' halign'
    refine congrArg Prod.fst (alloc_of_empty horder' fun j hj => ?_)
    have hjt : j ≠ t := by omega
    simp only [push, withList_lists_of_ne _ hjt]
    exact hempty j (by omega)

end Unaligned

end SillOS.Buddy

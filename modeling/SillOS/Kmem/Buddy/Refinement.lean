import SillOS.Kmem.Buddy.Represents

/-!
# The allocator refines the list-based one

Allocation, merging and seeding through memory have exactly the effect of the
abstract operations; in particular the walk that looks for a buddy always ends.
Runs of the two machines therefore go in lockstep.
-/

namespace SillOS.Buddy

open ByteMemory IntrusiveList Tiling

namespace Represents

variable {s : BuddyState} {A : ListedBuddy} {rest : List Span} {lo hi : Nat}

/-- Allocation, with splitting. -/
theorem allocateOrder {k : Nat} (h : Represents s A) (hp : Parts A rest lo hi) (hlo : 0 < lo)
    (hhi : hi ≤ 2 ^ 63) (hk : minOrder ≤ k) :
    ∃ t, s.allocateOrder k = ((A.allocateOrder k).1, t) ∧
      Represents t (A.allocateOrder k).2 ∧ Frame rest s t := by
  induction k using ListedBuddy.allocateOrder.induct A with
  | case1 k hgt =>
    refine ⟨s, ?_, ?_, Frame.refl _ _⟩
    · rw [ListedBuddy.allocateOrder, BuddyState.allocateOrder, h.maxOrder_eq, if_pos hgt,
        if_pos hgt]
    · rw [ListedBuddy.allocateOrder, if_pos hgt]
      exact h
  | case2 k hle a as hl =>
    have hmem : k ∈ orders := hp.mem_orders (hl ▸ List.mem_cons_self : a ∈ A.lists k)
    obtain ⟨t, hpop, hrep, hframe⟩ := h.pop rest hmem hl
    refine ⟨t, ?_, ?_, hframe⟩
    · rw [ListedBuddy.allocateOrder, if_neg hle, BuddyState.allocateOrder_of_pop
        (h.maxOrder_eq ▸ Nat.not_lt.mp hle) hpop]
      simp only [hl]
    · rw [ListedBuddy.allocateOrder, if_neg hle]
      simpa only [hl] using hrep
  | case3 k hle hl C hC ih =>
    have hmem : k ∈ orders := mem_orders.mpr ⟨hk, by have := hp.maxOrder_le; omega⟩
    obtain ⟨t, ht, hrep, hframe⟩ := ih (by omega)
    rw [hC] at ht hrep
    have hA : A.allocateOrder k = (none, C) := by
      rw [ListedBuddy.allocateOrder, if_neg hle]
      simp only [hl, hC]
    refine ⟨t, ?_, hA ▸ hrep, hframe⟩
    rw [hA, BuddyState.allocateOrder_of_none (h.maxOrder_eq ▸ Nat.not_lt.mp hle)
      (h.pop_nil hmem hl) ht]
  | case4 k hle hl a C hC ih =>
    have hmem : k ∈ orders := mem_orders.mpr ⟨hk, by have := hp.maxOrder_le; omega⟩
    obtain ⟨t, ht, hrep, hframe⟩ := ih (by omega)
    rw [hC] at ht hrep
    dsimp only at hrep
    obtain ⟨hparts, hmax, _⟩ := hp.allocateOrder (by omega) hC
    obtain ⟨hrep', hframe'⟩ := hrep.push hparts.halve hlo hhi ⟨hk, by omega⟩
    have hA : A.allocateOrder k = (some a, C.push (a + 2 ^ k) k) := by
      rw [ListedBuddy.allocateOrder, if_neg hle]
      simp only [hl, hC]
    refine ⟨t.pushFreeBlock (a + 2 ^ k) k, ?_, hA ▸ hrep', hframe.trans hframe'.of_cons⟩
    rw [hA, BuddyState.allocateOrder_of_split (h.maxOrder_eq ▸ Nat.not_lt.mp hle)
      (h.pop_nil hmem hl) ht, blockSize_eq]

private theorem buddyOf_eq (h : Represents s A) (a k : Nat) : s.buddyOf a k = A.buddyOf a k := by
  simp only [BuddyState.buddyOf, ListedBuddy.buddyOf, h.heapStart_eq, blockSize_eq]

/-- Merging; the walks through the free lists end. -/
theorem mergeLoop {B : ListedBuddy} {k a k' a' : Nat} (h : Represents s A)
    (hp : Parts A (blockSpan k a :: rest) lo hi) (hhi : hi ≤ 2 ^ 63)
    (hk : minOrder ≤ k ∧ k ≤ A.maxOrder) (hm : A.merge a k = (a', k', B)) :
    ∃ t, s.mergeLoop a k = some (a', k', t) ∧ Represents t B ∧ Frame rest s t := by
  induction A, a, k using ListedBuddy.merge.induct generalizing s with
  | case1 A a k hlt hmem ih =>
    rw [ListedBuddy.merge_of_mem hlt hmem] at hm
    obtain ⟨t, ht, hrep, hframe⟩ := h.remove hp hhi hmem
    obtain ⟨u, hu, hrep', hframe'⟩ := ih hrep (hp.remove_buddy hmem) ⟨by omega, hlt⟩ hm
    refine ⟨u, ?_, hrep', hframe.of_cons.trans hframe'⟩
    rw [← h.buddyOf_eq] at ht
    rw [BuddyState.mergeLoop_of_found (h.maxOrder_eq ▸ hlt) ht, h.buddyOf_eq, hu]
  | case2 A a k hlt hmem =>
    rw [ListedBuddy.merge_of_not_mem fun _ => hmem] at hm
    have horder : k ∈ orders := mem_orders.mpr ⟨hk.1, Nat.le_trans hk.2 hp.maxOrder_le⟩
    have hnot := h.remove_not_mem hp hhi horder hmem
    rw [← h.buddyOf_eq] at hnot
    cases hm
    exact ⟨s, BuddyState.mergeLoop_of_not_found (h.maxOrder_eq ▸ hlt) hnot, h, Frame.refl _ _⟩
  | case3 A a k hge =>
    rw [ListedBuddy.merge_of_not_mem fun hlt => absurd hlt hge] at hm
    cases hm
    refine ⟨s, ?_, h, Frame.refl _ _⟩
    rw [BuddyState.mergeLoop, if_neg (h.maxOrder_eq ▸ hge)]

/-- Seeding. -/
theorem seedLoop {addr remaining : Nat} (h : Represents s A)
    (hp : Parts A [⟨addr, 64 * (remaining / 64)⟩] lo hi) (hlo : 0 < lo) (hhi : hi ≤ 2 ^ 63)
    (hmax : minOrder ≤ A.maxOrder) (haddr : 64 ∣ addr) :
    Represents (s.seedLoop addr remaining) (A.seed addr remaining) := by
  induction remaining using Nat.strong_induction_on generalizing s A addr with
  | _ remaining ih =>
    by_cases hremaining : 64 ≤ remaining
    · obtain ⟨hk, hsize, hdvd, _⟩ := seedOrder_spec hmax hremaining haddr
      have hstep : s.seedLoop addr remaining =
          (s.pushFreeBlock addr (seedOrder addr remaining A.maxOrder)).seedLoop
            (addr + 2 ^ seedOrder addr remaining A.maxOrder)
            (remaining - 2 ^ seedOrder addr remaining A.maxOrder) := by
        rw [BuddyState.seedLoop, if_pos (by rw [blockSize_eq]; exact hremaining), h.maxOrder_eq]
        simp only [blockSize_eq]
        rw [if_neg (not_or.mpr ⟨Nat.not_lt.mpr hsize, not_not.mpr (Nat.mod_eq_zero_of_dvd hdvd)⟩)]
      rw [hstep, ListedBuddy.seed_step hmax hremaining haddr]
      generalize seedOrder addr remaining A.maxOrder = k at hk hsize ⊢
      have hpos : 0 < 2 ^ k := Nat.two_pow_pos k
      obtain ⟨hcut, hdvd'⟩ := hp.cut_seed hk.1 hsize haddr
      exact ih _ (by omega) (h.push hcut hlo hhi hk).1 (hcut.push hk) hmax hdvd'
    · rw [ListedBuddy.seed_done (by omega), BuddyState.seedLoop,
        if_neg (by rw [blockSize_eq]; exact hremaining)]
      exact h

/-- A call of `alloc` on an initialized heap. -/
theorem alloc (h : Represents s A) (hp : Parts A rest lo hi) (hlo : 0 < lo) (hhi : hi ≤ 2 ^ 63)
    (hinit : s.initialized = true) (layout : Layout) :
    ∃ t, s.alloc layout = ((A.alloc layout).1, t) ∧ Represents t (A.alloc layout).2 ∧
      Frame rest s t := by
  unfold BuddyState.alloc ListedBuddy.alloc
  simp only [hinit, Bool.not_true, Bool.false_eq_true, if_false]
  cases horder : orderForSize (max layout.size layout.align) with
  | none => exact ⟨s, rfl, h, Frame.refl _ _⟩
  | some k =>
    obtain ⟨t, ht, hrep, hframe⟩ := h.allocateOrder hp hlo hhi (orderForSize_spec horder).1
    dsimp only
    rw [ht]
    generalize A.allocateOrder k = r at hrep
    rcases r with ⟨_ | addr, B⟩ <;> exact ⟨t, rfl, hrep, hframe⟩

/-- A call of `dealloc` on an initialized heap returns. -/
theorem dealloc {k p : Nat} {layout : Layout} (h : Represents s A)
    (hp : Parts A (blockSpan k p :: rest) lo hi) (hlo : 0 < lo) (hhi : hi ≤ 2 ^ 63)
    (hinit : s.initialized = true)
    (horder : orderForSize (max layout.size layout.align) = some k) (hk : k ≤ A.maxOrder) :
    ∃ t, s.dealloc p layout = some t ∧ Represents t (A.dealloc p layout) ∧ Frame rest s t := by
  have hne : p ≠ 0 := by
    have hb := (hp.tiles.bounds (List.mem_append_right _ List.mem_cons_self)
      (Parts.start_mem k p)).1
    omega
  have hguard : ¬(p = 0 ∨ (!s.initialized) = true) := by simp [hne, hinit]
  have hmin := (orderForSize_spec horder).1
  rcases hm : A.merge p k with ⟨a', k', B⟩
  obtain ⟨t, ht, hrep, hframe⟩ := h.mergeLoop hp hhi ⟨hmin, hk⟩ hm
  obtain ⟨hparts, hmax, hk', _⟩ := hp.merge ⟨hmin, hk⟩ hm
  obtain ⟨hrep', hframe'⟩ := hrep.push hparts hlo hhi ⟨hk'.1, hmax ▸ hk'.2⟩
  refine ⟨t.pushFreeBlock a' k', ?_, ?_, hframe.trans hframe'⟩
  · simp only [BuddyState.dealloc, if_neg hguard, horder, ht]
    rfl
  · simpa only [ListedBuddy.dealloc, horder, hm] using hrep'

end Represents

/-- `init` passes its assertions and seeds the abstract heap. -/
theorem HeapRange.init_represents (R : HeapRange) (mem : ByteMemory) :
    ∃ s, (BuddyState.new mem).init R.start R.size = some s ∧ Represents s R.seeded ∧
      s.initialized = true := by
  have hmax := R.maxOrder_bounds
  have hempty : Represents
      { BuddyState.new mem with
        heapStart := R.start
        heapSize := R.size
        maxOrder := R.maxOrder
        freeLists := fun _ => 0 }
      ⟨R.start, R.maxOrder, fun _ => []⟩ := ⟨rfl, rfl, fun _ _ => chain_nil.mpr rfl⟩
  have hseed := hempty.seedLoop R.empty_parts R.start_pos R.stop_le hmax.1
    (Nat.dvd_of_mod_eq_zero R.aligned)
  refine ⟨{ BuddyState.seedLoop _ R.start R.size with initialized := true }, ?_,
    ⟨hseed.heapStart_eq, hseed.maxOrder_eq, hseed.chains⟩, rfl⟩
  have halign : ¬R.start % blockSize minOrder ≠ 0 := not_not.mpr R.aligned
  have hsize : ¬¬R.size ≥ blockSize minOrder := not_not.mpr R.size_ge
  rw [BuddyState.init, if_neg halign, if_neg hsize]
  rfl

/-! ## Runs in lockstep -/

/-- The machine behaves like the list-based machine in this state. -/
structure Refines (R : HeapRange) (c : Machine) (m : ListedMachine) : Prop where
  /-- Same live allocations. -/
  live_eq : c.live = m.live
  /-- `init` has run. -/
  initialized : c.heap.initialized = true
  /-- The lists in memory are the abstract ones. -/
  represents : Represents c.heap m.heap
  /-- Free and live blocks partition the heap. -/
  inv : m.Inv R

/-- The action is a call of the allocator. -/
def Action.IsCall : Action → Prop
  | .alloc _ => True
  | .dealloc _ _ => True
  | .write _ _ => False

namespace Refines

variable {R : HeapRange} {c c' : Machine} {m : ListedMachine}

/-- The machine after `init` refines the seeded list-based machine. -/
theorem boot (R : HeapRange) (mem : ByteMemory) :
    ∃ c, R.boot mem = some c ∧ Refines R c R.bootListed := by
  obtain ⟨s, hs, hrep, hinit⟩ := R.init_represents mem
  exact ⟨⟨s, []⟩, by rw [HeapRange.boot, hs]; rfl, rfl, hinit, hrep, ListedMachine.inv_boot R⟩

/-- A write inside a live block leaves the free lists alone. -/
theorem write (h : Refines R c m) {addr : Nat} (byte : UInt8)
    (hmem : ∃ b ∈ m.live, addr ∈ liveSpan b) :
    Represents { c.heap with mem := storeByte c.heap.mem addr byte } m.heap where
  heapStart_eq := h.represents.heapStart_eq
  maxOrder_eq := h.represents.maxOrder_eq
  chains k hk := by
    obtain ⟨b, hb, hx⟩ := hmem
    refine (h.represents.chains k hk).congr fun a ha => load64_storeByte_of_not_mem fun hw => ?_
    have hword := word_mem (h.inv.parts.order_bounds ha).1 hw
    exact h.inv.parts.disjoint_rest ha (List.mem_map_of_mem hb) hword hx

/-- A permitted action returns, has the abstract effect, and if it is a call it
leaves every byte of the blocks alone that stay live. -/
theorem act (h : Refines R c m) {a : Action} (hok : permitted c.live a) :
    ∃ c', c.act a = some c' ∧ Refines R c' (m.act a) ∧
      (a.IsCall → ∀ b ∈ c.live, b ∈ c'.live → ∀ x, x ∈ liveSpan b →
        c'.heap.mem x = c.heap.mem x) := by
  have hinv : (m.act a).Inv R :=
    h.inv.step (ListedMachine.step_eq_some.mpr ⟨h.live_eq ▸ hok, rfl⟩)
  cases a with
  | alloc layout =>
    obtain ⟨t, ht, hrep, hframe⟩ :=
      h.represents.alloc h.inv.parts R.start_pos R.stop_le h.initialized layout
    refine ⟨⟨t, liveAfterAlloc c.live (m.heap.alloc layout).1 layout⟩, ?_, ?_, ?_⟩
    · simp only [Machine.act, ht]
    · refine ⟨?_, hframe.initialized_eq.trans h.initialized, hrep, hinv⟩
      rw [h.live_eq]
      rfl
    · intro _ b hb _ x hx
      exact hframe.bytes _ (List.mem_map_of_mem (h.live_eq ▸ hb)) x hx
  | dealloc ptr layout =>
    have hmem : (ptr, layout) ∈ m.live := h.live_eq ▸ hok
    obtain ⟨k, horder, hk⟩ := h.inv.live_order _ hmem
    obtain ⟨t, ht, hrep, hframe⟩ := h.represents.dealloc (h.inv.live_parts hmem horder) R.start_pos
      R.stop_le h.initialized horder (h.inv.maxOrder_eq ▸ hk)
    refine ⟨⟨t, c.live.erase (ptr, layout)⟩, ?_, ?_, ?_⟩
    · simp only [Machine.act, ht, Option.map_some]
    · refine ⟨?_, hframe.initialized_eq.trans h.initialized, hrep, hinv⟩
      rw [h.live_eq]
      rfl
    · intro _ b _ hb x hx
      exact hframe.bytes _ (List.mem_map_of_mem (h.live_eq ▸ hb)) x hx
  | write addr byte =>
    refine ⟨_, rfl, ⟨h.live_eq, h.initialized, h.write byte (h.live_eq ▸ hok), hinv⟩, ?_⟩
    exact fun hcall => hcall.elim

/-- Every step of the machine is a step of the list-based machine. -/
theorem step (h : Refines R c m) {a : Action} (hstep : c.step a = some c') :
    ∃ m', m.step a = some m' ∧ Refines R c' m' := by
  obtain ⟨hok, hact⟩ := Machine.step_eq_some.mp hstep
  obtain ⟨d, hd, href, _⟩ := h.act hok
  obtain rfl := Option.some_inj.mp (hd.symm.trans hact)
  exact ⟨m.act a, ListedMachine.step_eq_some.mpr ⟨h.live_eq ▸ hok, rfl⟩, href⟩

/-- Every step of the list-based machine is a step of the machine. -/
theorem step_back (h : Refines R c m) {a : Action} {m' : ListedMachine}
    (hstep : m.step a = some m') : ∃ c', c.step a = some c' ∧ Refines R c' m' := by
  obtain ⟨hok, rfl⟩ := ListedMachine.step_eq_some.mp hstep
  obtain ⟨d, hd, href, _⟩ := h.act (h.live_eq ▸ hok)
  exact ⟨d, Machine.step_eq_some.mpr ⟨h.live_eq ▸ hok, hd⟩, href⟩

/-- Every run of the machine is a run of the list-based machine. -/
theorem run (h : Refines R c m) {acts : List Action} (hrun : c.run acts = some c') :
    ∃ m', m.run acts = some m' ∧ Refines R c' m' := by
  refine Transition.run_simulation ?_ h hrun
  intro c m a c' href hstep
  exact href.step hstep

/-- Every run of the list-based machine is a run of the machine. -/
theorem run_back (h : Refines R c m) {acts : List Action} {m' : ListedMachine}
    (hrun : m.run acts = some m') : ∃ c', c.run acts = some c' ∧ Refines R c' m' := by
  refine Transition.run_simulation (R := fun m c => Refines R c m) ?_ h hrun
  intro m a c m' href hstep
  exact href.step_back hstep

/-- Walking a free list through memory finds the abstract list. -/
theorem freeList (h : Refines R c m) {k : Nat} (hk : k ∈ orders) :
    c.heap.freeList k = some (m.heap.lists k) :=
  (h.represents.chains k hk).walk_eq
    (Nat.le_of_lt (Represents.length_lt h.inv.parts R.stop_le k))

end Refines

/-- A reachable state refines the state that the list-based machine is in after the
same actions. -/
theorem HeapRange.Reachable.refines {R : HeapRange} {c : Machine} (h : R.Reachable c) :
    ∃ acts m, R.bootListed.run acts = some m ∧ Refines R c m := by
  obtain ⟨mem, c₀, acts, hboot, hrun⟩ := h
  obtain ⟨c₁, hboot', href⟩ := Refines.boot R mem
  obtain rfl : c₁ = c₀ := Option.some.inj (hboot'.symm.trans hboot)
  obtain ⟨m, hm, href'⟩ := href.run hrun
  exact ⟨acts, m, hm, href'⟩

end SillOS.Buddy

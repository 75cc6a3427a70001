import SillOS.Kmem.Buddy.Misaligned
import SillOS.Kmem.Buddy.Safety

/-!
# Which heaps hand out aligned blocks and coalesce fully

`init` seeds blocks by absolute address while `buddyOf` pairs them by offset from
the heap start. Where the two agree, pointers are aligned and no allocation fails
while an aligned range of its size is free. The results say so for single runs,
by a condition on their merges, and decide for every heap range whether it holds
on all runs. The kernel heap is not such a range.
-/

namespace SillOS.Buddy

open ByteMemory Tiling

/-- The allocator with its free lists as walked through memory. -/
def BuddyState.listed (s : BuddyState) : ListedBuddy where
  heapStart := s.heapStart
  maxOrder := s.maxOrder
  lists order := if order ∈ orders then (s.freeList order).getD [] else []

/-- Every pointer that `alloc` returns in this state is aligned as requested. -/
def Machine.AllocAligned (c : Machine) : Prop :=
  ∀ layout : Layout, (c.heap.alloc layout).1 ≠ 0 → layout.align ∣ (c.heap.alloc layout).1

/-- `alloc` succeeds in this state for every power of two for which an aligned range
inside the seeded memory overlaps no live block. -/
def Machine.AllocComplete (R : HeapRange) (c : Machine) : Prop :=
  ∀ k a, minOrder ≤ k → k ≤ c.heap.maxOrder → 2 ^ k ∣ a → R.start ≤ a → a + 2 ^ k ≤ R.stop →
    (∀ b ∈ c.live, (blockSpan k a).Disjoint (liveSpan b)) →
    ∀ layout : Layout, layout.size = 2 ^ k → layout.align ≤ 2 ^ k → (c.heap.alloc layout).1 ≠ 0

/-- Whenever the merge loop of a `dealloc` arrives at a block whose buddy is free,
the lower of the two is a multiple of the merged size. -/
def Machine.MergesAligned (c : Machine) (a : Action) : Prop :=
  DeallocObeys (ListedBuddy.JoinsAligned c.heap.maxOrder) c.heap.listed a

/-- Whenever the merge loop of a `dealloc` arrives at a block, its buddy is the other
half of the aligned pair of that size, or neither of the two is free. -/
def Machine.MergesPairs (c : Machine) (a : Action) : Prop :=
  DeallocObeys (ListedBuddy.BuddyAgrees c.heap.maxOrder) c.heap.listed a

namespace Refines

variable {R : HeapRange} {c c' : Machine} {m : ListedMachine}

/-- The lists walked through memory are the abstract ones. -/
theorem listed_eq (h : Refines R c m) : c.heap.listed = m.heap := by
  have hlists : c.heap.listed.lists = m.heap.lists := by
    funext k
    by_cases hk : k ∈ orders
    · simp only [BuddyState.listed, if_pos hk, h.freeList hk, Option.getD_some]
    · simp only [BuddyState.listed, if_neg hk]
      by_contra hne
      have hbounds := h.inv.parts.nonempty k (Ne.symm hne)
      exact hk (mem_orders.mpr ⟨hbounds.1, Nat.le_trans hbounds.2 h.inv.parts.maxOrder_le⟩)
  calc c.heap.listed = ⟨c.heap.heapStart, c.heap.maxOrder, c.heap.listed.lists⟩ := rfl
    _ = m.heap := by rw [h.represents.heapStart_eq, h.represents.maxOrder_eq, hlists]

/-- The largest order is that of the heap range. -/
theorem maxOrder_eq (h : Refines R c m) : c.heap.maxOrder = R.maxOrder :=
  h.represents.maxOrder_eq.trans h.inv.maxOrder_eq

/-- Both allocators return the same pointers. -/
theorem alloc_eq (h : Refines R c m) (layout : Layout) :
    (c.heap.alloc layout).1 = (m.heap.alloc layout).1 := by
  obtain ⟨t, ht, _⟩ :=
    h.represents.alloc h.inv.parts R.start_pos R.stop_le h.initialized layout
  rw [ht]

private theorem allocAligned (h : Refines R c m) (haligned : m.Aligned R.maxOrder) :
    c.AllocAligned := by
  intro layout _
  rw [h.alloc_eq]
  exact haligned.alloc_dvd h.inv (Nat.le_refl _) layout

end Refines

variable (R : HeapRange)

/-- A run of the list-based machine is a run from zeroed memory. -/
theorem HeapRange.reachable_of_listed {acts : List Action} {m : ListedMachine}
    (hrun : R.bootListed.run acts = some m) : ∃ c, R.Reachable c ∧ Refines R c m := by
  obtain ⟨c₀, hboot, href₀⟩ := Refines.boot R fun _ => 0
  obtain ⟨c, hc, href⟩ := href₀.run_back hrun
  exact ⟨c, ⟨_, c₀, acts, hboot, hc⟩, href⟩

/-- Pointers are aligned after every run whose merges all form aligned blocks. On
all runs of a heap range they are aligned exactly when its start is a multiple of
its largest block size. -/
theorem alloc_aligned_iff :
    (∀ mem c₀ acts c, R.boot mem = some c₀ → c₀.run acts = some c →
      Transition.Obeys Machine.step Machine.MergesAligned c₀ acts → c.AllocAligned) ∧
    ((∀ c, R.Reachable c → c.AllocAligned) ↔ 2 ^ R.maxOrder ∣ R.start) := by
  refine ⟨?_, ?_, ?_⟩
  · intro mem c₀ acts c hboot hrun hobeys
    obtain ⟨c₁, hboot', href₀⟩ := Refines.boot R mem
    obtain rfl : c₁ = c₀ := Option.some.inj (hboot'.symm.trans hboot)
    have hinv : ∃ m, Refines R c m ∧ m.Aligned R.maxOrder := by
      refine hobeys.invariant (P := fun c => ∃ m, Refines R c m ∧ m.Aligned R.maxOrder) ?_
        ⟨_, href₀, ListedMachine.aligned_boot R _⟩ hrun
      rintro c a c' ⟨m, href, haligned⟩ hok hstep
      obtain ⟨m', hm', href'⟩ := href.step hstep
      rw [Machine.MergesAligned, href.listed_eq, href.maxOrder_eq] at hok
      exact ⟨m', href', haligned.step href.inv hok hm'⟩
    obtain ⟨m, href, haligned⟩ := hinv
    exact href.allocAligned haligned
  · intro hall
    by_contra hno
    obtain ⟨t, ht, hlt, hdvd, hlast⟩ :=
      TwoPow.exists_last_dvd (Nat.dvd_of_mod_eq_zero R.aligned : 2 ^ minOrder ∣ R.start) hno
    obtain ⟨acts, m, layout, hrun, hne, hmis⟩ := exists_misaligned R ht hlt hdvd hlast
    obtain ⟨c, hreach, href⟩ := R.reachable_of_listed hrun
    rw [← href.alloc_eq] at hne hmis
    exact hmis (hall c hreach layout hne)
  · intro hdvd c hreach
    obtain ⟨acts, m, hrun, href⟩ := hreach.refines
    exact href.allocAligned ((ListedMachine.tidy_boot R _).run hdvd hrun).aligned

/-- Two words of the kernel heap are allocated and the first is freed while its
buddy is live. -/
private theorem obeys_kernelHeap {P : Nat → ListedBuddy → Nat → Nat → Prop} {c₀ : Machine}
    (hP : ∀ d A, A.heapStart = kernelHeap.start → A.buddyOf 0x44444a800000 6 ∉ A.lists 6 →
      P d A 0x44444a800000 6)
    (hboot : kernelHeap.boot (fun _ => 0) = some c₀) :
    Transition.Obeys Machine.step (fun c a => DeallocObeys (P c.heap.maxOrder) c.heap.listed a) c₀
      [.alloc .word, .alloc .word, .dealloc 0x44444a800000 .word] := by
  have hafter : (kernelHeap.after [.alloc .word, .alloc .word]).all (fun c =>
      c.heap.listed.heapStart = kernelHeap.start ∧
        c.heap.listed.buddyOf 0x44444a800000 6 ∉ c.heap.listed.lists 6) := by decide +kernel
  have horder : blockOrder .word = 6 := by decide +kernel
  change Transition.Obeys _ _ _
    ([Action.alloc .word, Action.alloc .word] ++ [Action.dealloc 0x44444a800000 .word])
  refine Transition.obeys_append ?_ fun c hc => ?_
  · exact ⟨trivial, fun _ _ => ⟨trivial, fun _ _ => trivial⟩⟩
  · have hrun : kernelHeap.after [.alloc .word, .alloc .word] = some c :=
      HeapRange.after_eq_some.mpr ⟨c₀, hboot, hc⟩
    rw [hrun, Option.all_some, decide_eq_true_eq] at hafter
    refine ⟨?_, fun _ _ => trivial⟩
    simp only [DeallocObeys, horder]
    exact ListedBuddy.MergeObeys.of_not_mem hafter.2 (hP _ _ hafter.1 hafter.2)

/-- A run of the kernel heap, and all runs of an aligned heap. -/
theorem alloc_aligned_of_run :
    (∃ c, kernelHeap.after [.alloc .word, .alloc .word, .dealloc 0x44444a800000 .word] = some c ∧
      c.AllocAligned) ∧ ∀ c, lowHeap.Reachable c → c.AllocAligned := by
  constructor
  · have hafter : (kernelHeap.after [.alloc .word, .alloc .word,
        .dealloc 0x44444a800000 .word]).isSome := by decide +kernel
    obtain ⟨c, hc⟩ := Option.isSome_iff_exists.mp hafter
    obtain ⟨c₀, hboot, hrun⟩ := HeapRange.after_eq_some.mp hc
    refine ⟨c, hc, (alloc_aligned_iff kernelHeap).1 _ c₀ _ c hboot hrun ?_⟩
    exact obeys_kernelHeap (P := ListedBuddy.JoinsAligned) (fun _ _ _ hno _ hmem => absurd hmem hno)
      hboot
  · exact (alloc_aligned_iff lowHeap).2.mpr (by decide +kernel)

/-- The kernel heap merges two blocks across an aligned boundary and hands the
result out for a layout that it does not satisfy. -/
theorem misaligned_kernelHeap :
    (∃ c, kernelHeap.after [.alloc (.bytes 18), .alloc (.bytes 18), .alloc (.bytes 18),
        .dealloc 0x444444440000 (.bytes 18), .dealloc 0x444444480000 (.bytes 18)] = some c ∧
      (c.heap.alloc (.block 19)).1 = 0x444444440000 ∧ ¬c.AllocAligned) ∧
    ¬∀ (R : HeapRange) (c : Machine), R.Reachable c → c.AllocAligned := by
  have hafter : (kernelHeap.after [.alloc (.bytes 18), .alloc (.bytes 18), .alloc (.bytes 18),
      .dealloc 0x444444440000 (.bytes 18), .dealloc 0x444444480000 (.bytes 18)]).map
        (fun c => (c.heap.alloc (.block 19)).1) = some 0x444444440000 := by decide +kernel
  obtain ⟨c, hc, hptr⟩ := Option.map_eq_some_iff.mp hafter
  have hmis : ¬c.AllocAligned := by
    intro haligned
    have hdvd := haligned (.block 19) (by rw [hptr]; decide)
    rw [hptr] at hdvd
    exact absurd hdvd (by decide)
  exact ⟨⟨c, hc, hptr, hmis⟩, fun hall => hmis (hall kernelHeap c (HeapRange.reachable_after hc))⟩

/-- A state of a tidy heap allocates completely. -/
private theorem Refines.allocComplete {c : Machine} {m : ListedMachine} (href : Refines R c m)
    (htidy : ∀ k a, k ≤ R.maxOrder → 2 ^ k ∣ a → R.start ≤ a → a + 2 ^ k ≤ R.stop →
      ∃ d, k ≤ d ∧ m.Tidy R d) : c.AllocComplete R := by
  intro k a hmin hmax ha hlo hhi hfree layout hsize halign
  rw [href.maxOrder_eq] at hmax
  rw [href.alloc_eq]
  rw [href.live_eq] at hfree
  obtain ⟨d, hkd, hm⟩ := htidy k a hmax ha hlo hhi
  exact hm.alloc_ne_zero hkd hmin hmax ha hlo hhi hfree hsize halign

/-- An aligned range inside the heap is not larger than the alignment of a heap
start that meets the condition. -/
private theorem dvd_start_of_range
    (hcond : ∀ t, t < R.maxOrder → 2 ^ t ∣ R.start → 3 * 2 ^ t ≤ R.size → 2 ^ (t + 1) ∣ R.start)
    {k a : Nat} (hk : k ≤ R.maxOrder) (ha : 2 ^ k ∣ a) (hlo : R.start ≤ a)
    (hhi : a + 2 ^ k ≤ R.stop) : 2 ^ k ∣ R.start := by
  by_contra hno
  have hone : 2 ^ 0 ∣ R.start := Nat.one_dvd R.start
  obtain ⟨t, _, hlt, hdvd, hlast⟩ := TwoPow.exists_last_dvd hone hno
  have hstop : R.stop ≤ R.start + R.size := by
    have := Nat.div_mul_le_self R.size 64
    unfold HeapRange.stop
    omega
  have hpow : 2 ^ (t + 1) ≤ 2 ^ k := Nat.pow_le_pow_right Nat.two_pos hlt
  have ha' : 2 ^ (t + 1) ∣ a := Nat.dvd_trans (Nat.pow_dvd_pow 2 hlt) ha
  -- The first multiple of `2 ^ (t + 1)` in the heap is `2 ^ t` after its start.
  have hfirst : R.start + 2 ^ t ≤ a := by
    have hnext := TwoPow.dvd_succ_add hdvd hlast
    have hne : a ≠ R.start := fun he => hlast (he ▸ ha')
    by_contra hlt'
    have hdiff : 2 ^ (t + 1) ∣ R.start + 2 ^ t - a := Nat.dvd_sub hnext ha'
    have hle := Nat.le_of_dvd (by omega) hdiff
    rw [pow_succ] at hle
    omega
  refine hlast (hcond t (by omega) hdvd ?_)
  rw [pow_succ] at hpow
  omega

/-- No allocation fails spuriously after a run whose merges all follow aligned pairs.
On all runs of a heap range none does exactly when a start that is aligned to a
block size below the largest, but not to the next, has less than three such
blocks behind it. -/
theorem alloc_complete_iff :
    (∀ mem c₀ acts c, R.boot mem = some c₀ → c₀.run acts = some c →
      Transition.Obeys Machine.step Machine.MergesPairs c₀ acts → c.AllocComplete R) ∧
    ((∀ c, R.Reachable c → c.AllocComplete R) ↔
      ∀ t, t < R.maxOrder → 2 ^ t ∣ R.start → 3 * 2 ^ t ≤ R.size → 2 ^ (t + 1) ∣ R.start) := by
  refine ⟨?_, ?_, ?_⟩
  · intro mem c₀ acts c hboot hrun hobeys
    obtain ⟨c₁, hboot', href₀⟩ := Refines.boot R mem
    obtain rfl : c₁ = c₀ := Option.some.inj (hboot'.symm.trans hboot)
    have hinv : ∃ m, Refines R c m ∧ m.Tidy R R.maxOrder := by
      refine hobeys.invariant (P := fun c => ∃ m, Refines R c m ∧ m.Tidy R R.maxOrder) ?_
        ⟨_, href₀, ListedMachine.tidy_boot R _⟩ hrun
      rintro c a c' ⟨m, href, htidy⟩ hok hstep
      obtain ⟨m', hm', href'⟩ := href.step hstep
      rw [Machine.MergesPairs, href.listed_eq, href.maxOrder_eq] at hok
      exact ⟨m', href', htidy.step hok hm'⟩
    obtain ⟨m, href, htidy⟩ := hinv
    exact href.allocComplete R fun k a hk _ _ _ => ⟨R.maxOrder, hk, htidy⟩
  · intro hall t hlt hdvd hsize
    by_contra hlast
    have ht : minOrder ≤ t := by
      by_contra hsmall
      refine hlast (Nat.dvd_trans (Nat.pow_dvd_pow 2 ?_) (Nat.dvd_of_mod_eq_zero R.aligned :
        2 ^ minOrder ∣ R.start))
      omega
    obtain ⟨acts, m, hrun, hhi, hfree, hfail⟩ := exists_spurious R ht hlt hdvd hlast hsize
    obtain ⟨c, hreach, href⟩ := R.reachable_of_listed hrun
    have hmax : R.maxOrder ≤ 30 := R.maxOrder_bounds.2
    refine hall c hreach (t + 1) (R.start + 2 ^ t) (by omega) (href.maxOrder_eq ▸ hlt)
      (TwoPow.dvd_succ_add hdvd hlast) (Nat.le_add_right _ _) hhi (href.live_eq ▸ hfree)
      (Layout.bytes (t + 1) (by omega)) rfl (Nat.two_pow_pos _) ?_
    rw [href.alloc_eq]
    exact hfail _ rfl (Nat.two_pow_pos _)
  · intro hcond c hreach
    obtain ⟨acts, m, hrun, href⟩ := hreach.refines
    refine href.allocComplete R fun k a hk ha hlo hhi => ⟨k, Nat.le_refl k, ?_⟩
    exact (ListedMachine.tidy_boot R k).run (dvd_start_of_range R hcond hk ha hlo hhi) hrun

/-- A run of the kernel heap, and all runs of an aligned heap. -/
theorem alloc_complete_of_run :
    (∃ c, kernelHeap.after [.alloc .word, .alloc .word, .dealloc 0x44444a800000 .word] = some c ∧
      c.AllocComplete kernelHeap) ∧ ∀ c, lowHeap.Reachable c → c.AllocComplete lowHeap := by
  constructor
  · have hafter : (kernelHeap.after [.alloc .word, .alloc .word,
        .dealloc 0x44444a800000 .word]).isSome := by decide +kernel
    obtain ⟨c, hc⟩ := Option.isSome_iff_exists.mp hafter
    obtain ⟨c₀, hboot, hrun⟩ := HeapRange.after_eq_some.mp hc
    refine ⟨c, hc, (alloc_complete_iff kernelHeap).1 _ c₀ _ c hboot hrun ?_⟩
    refine obeys_kernelHeap (P := ListedBuddy.BuddyAgrees) (fun _ A hstart _ _ => Or.inl ?_) hboot
    rw [ListedBuddy.buddyOf, hstart]
    decide
  · have hmax : lowHeap.maxOrder = 20 := by decide +kernel
    refine (alloc_complete_iff lowHeap).2.mpr fun t hlt _ _ => ?_
    exact Nat.pow_dvd_pow 2 (show t + 1 ≤ 20 by omega)

/-- The kernel heap does not merge the two halves of a free aligned range of 32 MiB,
and an allocation of that size fails. -/
theorem spurious_kernelHeap :
    (∃ c, kernelHeap.after [.alloc (.bytes 25), .alloc (.bytes 24), .alloc (.bytes 24),
        .alloc (.bytes 24), .dealloc 0x444446000000 (.bytes 24),
        .dealloc 0x444447000000 (.bytes 24)] = some c ∧
      c.live = [(0x444445000000, .bytes 24), (0x444448000000, .bytes 25)] ∧
      (c.heap.alloc (.bytes 25)).1 = 0 ∧ ¬c.AllocComplete kernelHeap) ∧
    ¬∀ (R : HeapRange) (c : Machine), R.Reachable c → c.AllocComplete R := by
  have hafter : (kernelHeap.after [.alloc (.bytes 25), .alloc (.bytes 24), .alloc (.bytes 24),
      .alloc (.bytes 24), .dealloc 0x444446000000 (.bytes 24),
      .dealloc 0x444447000000 (.bytes 24)]).map
        (fun c => (c.heap.maxOrder, c.live, (c.heap.alloc (.bytes 25)).1)) =
      some (26, [(0x444445000000, .bytes 24), (0x444448000000, .bytes 25)], 0) := by
    decide +kernel
  obtain ⟨c, hc, hstate⟩ := Option.map_eq_some_iff.mp hafter
  simp only [Prod.mk.injEq] at hstate
  obtain ⟨hmax, hlive, hptr⟩ := hstate
  have hspans : c.live.map liveSpan =
      [⟨0x444445000000, 0x1000000⟩, ⟨0x444448000000, 0x2000000⟩] := by
    rw [hlive]
    decide +kernel
  have hfail : ¬c.AllocComplete kernelHeap := by
    intro hcomplete
    refine hcomplete 25 0x444446000000 (by decide) (by omega) (by decide) (by decide) (by decide)
      (fun b hb x hx hxb => ?_) (.bytes 25) rfl (by decide) hptr
    have hmem := List.mem_map_of_mem (f := liveSpan) hb
    rw [hspans] at hmem
    rcases List.mem_cons.mp hmem with he | hmem
    · rw [he] at hxb
      simp only [blockSpan, Span.mem_iff] at hx hxb
      omega
    · rw [List.mem_singleton.mp hmem] at hxb
      simp only [blockSpan, Span.mem_iff] at hx hxb
      omega
  exact ⟨⟨c, hc, hlive, hptr, hfail⟩,
    fun hall => hfail (hall kernelHeap c (HeapRange.reachable_after hc))⟩

end SillOS.Buddy

import SillOS.Kmem.Linked.Safety

/-!
# What carving leaves behind

A block is carved out of a region at its first aligned address. What lies behind
it returns to the list and what lies in front of it does not. The nodes stay
aligned exactly if no remainder begins at an odd place, and no byte is lost
exactly if no region is entered behind its start.
-/

namespace SillOS.Linked

open ByteMemory Tiling
open Buddy (Action)

/-- The region that `alloc` would carve a block out of. -/
def Machine.firstFit (c : Machine) (layout : Layout) : Option Span :=
  c.heap.freeRegions.bind fun free => free.find? fun r => decide (Fits layout r)

/-- The free list of the machine has this property. -/
def Machine.FreeList (c : Machine) (p : List Span → Prop) : Prop :=
  ∃ free, c.heap.freeRegions = some free ∧ p free

/-- If the action carves a block out of a region, the layout and the region meet this condition. -/
def Machine.Carves (ok : Layout → Span → Prop) (c : Machine) (a : Action) : Prop :=
  ∀ layout, a = .alloc layout → ∀ r, c.firstFit layout = some r → ok layout r

section FirstFit

variable {R : HeapRange} {c c' : Machine} {m : RegionMachine} {layout : Layout}

namespace Refines

private theorem freeList_iff (h : Refines R c m) {p : List Span → Prop} :
    c.FreeList p ↔ p m.free := by
  rw [Machine.FreeList, h.freeRegions]
  constructor
  · rintro ⟨free, heq, hp⟩
    cases heq
    exact hp
  · exact fun hp => ⟨m.free, rfl, hp⟩

private theorem firstFit_eq_none (h : Refines R c m) (hnone : ∀ r ∈ m.free, ¬Fits layout r) :
    c.firstFit layout = none := by
  rw [Machine.firstFit, h.freeRegions, Option.bind_some, List.find?_eq_none]
  simpa only [decide_eq_true_eq] using hnone

private theorem firstFit_eq_some (h : Refines R c m) {pre post : List Span} {r : Span}
    (hfree : m.free = pre ++ r :: post) (hpre : ∀ x ∈ pre, ¬Fits layout x) (hf : Fits layout r) :
    c.firstFit layout = some r := by
  rw [Machine.firstFit, h.freeRegions, Option.bind_some, hfree, List.find?_eq_some_iff_append]
  exact ⟨decide_eq_true hf, pre, post, rfl, fun x hx => by simpa using hpre x hx⟩

end Refines

/-- A property of all states of a run that every call but `alloc` keeps holds exactly if it
survives each carving. -/
theorem runs_iff {ok : Layout → Span → Prop} {p : RegionMachine → Prop} {q : Machine → Prop}
    (hq : ∀ c m, Refines R c m → (q c ↔ p m)) (hinit : p R.bootRegions)
    (hother : ∀ m a, m.Inv R → p m → permitted m.live a → (∀ layout, a ≠ .alloc layout) →
      p (m.act a))
    (hcarve : ∀ pre r post live layout, RegionMachine.Inv R ⟨pre ++ r :: post, live⟩ →
      p ⟨pre ++ r :: post, live⟩ → Fits layout r →
      (p ⟨pre ++ remainder layout r ++ post, (startIn layout r, layout) :: live⟩ ↔ ok layout r))
    {mem : ByteMemory} {c₀ : Machine} {acts : List Action} (hboot : R.boot mem = some c₀)
    (hrun : c₀.run acts = some c) :
    (∀ bs, bs <+: acts → ∀ u, c₀.run bs = some u → q u) ↔
      Transition.Obeys Machine.step (Machine.Carves ok) c₀ acts := by
  obtain ⟨c₁, hboot', href⟩ := Refines.boot R mem
  obtain rfl : c₁ = c₀ := Option.some.inj (hboot'.symm.trans hboot)
  refine Transition.obeys_iff (I := fun c => ∃ m, Refines R c m) ?_ ?_ ⟨_, href⟩
    ((hq _ _ href).mpr hinit) hrun
  · rintro c a d ⟨m, href⟩ hstep
    exact ⟨_, href.step hstep⟩
  · rintro c a d ⟨m, href⟩ hqc hstep
    rw [hq _ _ (href.step hstep)]
    have hp : p m := (hq c m href).mp hqc
    have hok : permitted m.live a := href.live_eq ▸ (Machine.step_eq_some.mp hstep).1
    by_cases halloc : ∃ layout, a = .alloc layout
    · obtain ⟨layout, rfl⟩ := halloc
      simp only [Machine.Carves, Action.alloc.injEq, forall_eq']
      rcases m.act_alloc_cases layout with ⟨hnone, heq⟩ | ⟨pre, r, post, hfree, hpre, hf, heq⟩
      · rw [heq, href.firstFit_eq_none hnone]
        exact iff_of_true hp fun r hr => nomatch hr
      · obtain ⟨free, live⟩ := m
        dsimp only at hfree
        subst hfree
        rw [heq, href.firstFit_eq_some rfl hpre hf, hcarve pre r post live layout href.inv hp hf]
        simp only [Option.some.injEq, forall_eq']
    · have hne : ∀ layout, a ≠ .alloc layout := fun layout he => halloc ⟨layout, he⟩
      exact iff_of_true (hother m a href.inv hp hok hne) fun layout he => absurd he (hne layout)

end FirstFit

/-! ## Alignment of the nodes -/

/-- A remainder is aligned if the size of the block is, or if there is none. -/
theorem remainder_aligned_iff {layout : Layout} {r : Span} (hf : Fits layout r) :
    (∀ b ∈ remainder layout r, nodeAlign ∣ b.start) ↔
      nodeAlign ∣ blockSize layout ∨ stopIn layout r = r.start + r.size := by
  have hstart : nodeAlign ∣ startIn layout r :=
    Nat.dvd_trans (nodeAlign_dvd_blockAlign layout) (blockAlign_dvd_startIn layout r)
  rcases remainder_cases hf with ⟨hend, hrem⟩ | ⟨n, hn, hend, hrem⟩
  · rw [hrem]
    exact iff_of_true (List.forall_mem_nil _) (Or.inr hend)
  · have hn16 : 16 ≤ n := hn
    have hne : stopIn layout r ≠ r.start + r.size := by omega
    rw [hrem, List.forall_mem_singleton, or_iff_left hne]
    exact Nat.dvd_add_right hstart

/-- In a run every region of every free list starts at a multiple of the alignment of a node
exactly if each allocation either takes a multiple of it or uses its region up. -/
theorem nodes_aligned_iff {R : HeapRange} {mem : ByteMemory} {c₀ c : Machine} {acts : List Action}
    (hboot : R.boot mem = some c₀) (hrun : c₀.run acts = some c) :
    (∀ bs, bs <+: acts → ∀ u, c₀.run bs = some u →
        u.FreeList fun free => ∀ r ∈ free, nodeAlign ∣ r.start) ↔
      Transition.Obeys Machine.step
        (Machine.Carves fun layout r =>
          nodeAlign ∣ blockSize layout ∨ stopIn layout r = r.start + r.size) c₀ acts := by
  refine runs_iff (p := fun m => ∀ r ∈ m.free, nodeAlign ∣ r.start)
    (fun c m href => href.freeList_iff) ?_ ?_ ?_ hboot hrun
  · exact List.forall_mem_singleton.mpr (Nat.dvd_of_mod_eq_zero R.aligned)
  · intro m a hinv hp hok hne
    cases a with
    | alloc layout => exact absurd rfl (hne layout)
    | dealloc ptr layout =>
      refine List.forall_mem_cons.mpr ⟨?_, hp⟩
      exact Nat.dvd_trans (nodeAlign_dvd_blockAlign layout) (hinv.live_aligned _ hok)
    | write addr byte => exact hp
  · intro pre r post live layout _ hp hf
    rw [← remainder_aligned_iff hf]
    simp only [List.mem_append, or_imp, forall_and, List.mem_cons] at hp ⊢
    exact ⟨fun h => h.1.2, fun h => ⟨⟨hp.1, h⟩, hp.2.2⟩⟩

/-- A run that keeps the nodes aligned. -/
theorem nodes_aligned_iff_nodesHeap :
    ∃ c₀ c, nodesHeap.boot (fun _ => 0) = some c₀ ∧ c₀.run [.alloc (.bytes 5)] = some c ∧
      ((∀ bs, bs <+: [.alloc (.bytes 5)] → ∀ u, c₀.run bs = some u →
          u.FreeList fun free => ∀ r ∈ free, nodeAlign ∣ r.start) ↔
        Transition.Obeys Machine.step
          (Machine.Carves fun layout r =>
            nodeAlign ∣ blockSize layout ∨ stopIn layout r = r.start + r.size) c₀
          [.alloc (.bytes 5)]) := by
  have hafter : (nodesHeap.after [.alloc (.bytes 5)]).isSome := by decide +kernel
  obtain ⟨c, hc⟩ := Option.isSome_iff_exists.mp hafter
  obtain ⟨c₀, hboot, hrun⟩ := HeapRange.after_eq_some.mp hc
  exact ⟨c₀, c, hboot, hrun, nodes_aligned_iff hboot hrun⟩

/-- The remainder behind a block of 17 bytes is a free region at an odd address. -/
theorem nodes_misaligned :
    ∃ c, nodesHeap.after [.alloc .odd] = some c ∧
      c.FreeList fun free => ∃ r ∈ free, ¬nodeAlign ∣ r.start := by
  have hrun : ((nodesHeap.after [.alloc .odd]).bind fun c => c.heap.freeRegions) =
      some [⟨4113, 239⟩] := by decide +kernel
  obtain ⟨c, hc, hfree⟩ := Option.bind_eq_some_iff.mp hrun
  exact ⟨c, hc, _, hfree, ⟨4113, 239⟩, List.mem_cons_self, by decide⟩

/-! ## Conservation of memory -/

/-- Carving conserves memory up to the gap in front of the block. -/
theorem total_remainder {layout : Layout} {r : Span} (hf : Fits layout r) :
    total (remainder layout r) + blockSize layout + (startIn layout r - r.start) = r.size := by
  have hstart := (startIn_bounds layout r).1
  have hstop : stopIn layout r = startIn layout r + blockSize layout := rfl
  rcases remainder_cases hf with ⟨hend, hrem⟩ | ⟨n, -, hend, hrem⟩
  · rw [hrem, total_nil]
    omega
  · simp only [hrem, total_cons, total_nil]
    omega

/-- In a run the free regions and the live blocks of every state add up to the heap size exactly
if each allocation takes its block from the very start of a region. -/
theorem memory_conserved_iff {R : HeapRange} {mem : ByteMemory} {c₀ c : Machine}
    {acts : List Action} (hboot : R.boot mem = some c₀) (hrun : c₀.run acts = some c) :
    (∀ bs, bs <+: acts → ∀ u, c₀.run bs = some u →
        u.FreeList fun free => total free + total (u.live.map liveSpan) = R.size) ↔
      Transition.Obeys Machine.step
        (Machine.Carves fun layout r => blockAlign layout ∣ r.start) c₀ acts := by
  refine runs_iff (p := fun m => total m.free + total (m.live.map liveSpan) = R.size)
    (fun c m href => ?_) ?_ ?_ ?_ hboot hrun
  · rw [href.freeList_iff, href.live_eq]
  · simp [HeapRange.bootRegions]
  · intro m a hinv hp hok hne
    cases a with
    | alloc layout => exact absurd rfl (hne layout)
    | dealloc ptr layout =>
      have hperm := total_perm ((List.perm_cons_erase hok).map liveSpan)
      rw [List.map_cons, total_cons] at hperm
      simp only [RegionMachine.act, total_cons]
      omega
    | write addr byte => exact hp
  · intro pre r post live layout _ hp hf
    have hcarve := total_remainder hf
    have hstart := (startIn_bounds layout r).1
    rw [← startIn_eq_start_iff]
    simp only [total_append, total_cons, List.map_cons, liveSpan] at hp ⊢
    omega

/-- A run that loses no memory. -/
theorem memory_conserved_iff_nodesHeap :
    ∃ c₀ c, nodesHeap.boot (fun _ => 0) = some c₀ ∧ c₀.run [.alloc (.bytes 5)] = some c ∧
      ((∀ bs, bs <+: [.alloc (.bytes 5)] → ∀ u, c₀.run bs = some u →
          u.FreeList fun free => total free + total (u.live.map liveSpan) = nodesHeap.size) ↔
        Transition.Obeys Machine.step
          (Machine.Carves fun layout r => blockAlign layout ∣ r.start) c₀
          [.alloc (.bytes 5)]) := by
  have hafter : (nodesHeap.after [.alloc (.bytes 5)]).isSome := by decide +kernel
  obtain ⟨c, hc⟩ := Option.isSome_iff_exists.mp hafter
  obtain ⟨c₀, hboot, hrun⟩ := HeapRange.after_eq_some.mp hc
  exact ⟨c₀, c, hboot, hrun, memory_conserved_iff hboot hrun⟩

/-- After a block of 16 bytes the next region starts at 4112. A block aligned to 32 leaves 16
bytes in front of it, which are missing once both blocks have been freed. -/
theorem memory_lost :
    ∃ c, nodesHeap.after [.alloc (.bytes 4), .alloc (.block 5), .dealloc 4128 (.block 5),
        .dealloc 4096 (.bytes 4)] = some c ∧ c.live = [] ∧
      c.FreeList fun free => total free + total (c.live.map liveSpan) ≠ nodesHeap.size := by
  have hrun : ((nodesHeap.after [.alloc (.bytes 4), .alloc (.block 5), .dealloc 4128 (.block 5),
      .dealloc 4096 (.bytes 4)]).bind fun c => c.heap.freeRegions.map fun free => (free, c.live)) =
        some ([⟨4096, 16⟩, ⟨4128, 32⟩, ⟨4160, 192⟩], []) := by decide +kernel
  obtain ⟨c, hc, hfree⟩ := Option.bind_eq_some_iff.mp hrun
  obtain ⟨free, hwalk, heq⟩ := Option.map_eq_some_iff.mp hfree
  obtain ⟨rfl, hlive⟩ := Prod.mk.injEq .. ▸ heq
  refine ⟨c, hc, hlive, _, hwalk, ?_⟩
  rw [hlive]
  decide

end SillOS.Linked

import SillOS.Kmem.Linked.Safety

/-!
# Regions are split and never joined

`alloc` cuts a region in two and `dealloc` returns the block as a region of its
own. Seen over a whole run, the free regions and live blocks of a later state are
pieces of those of an earlier one: there are at least as many, they are not
larger, and a request that no piece could hold is never served again.
-/

namespace SillOS.Linked

open ByteMemory Tiling
open Buddy (Action)

namespace RegionMachine

/-- The free regions and the live blocks. -/
def pieces (m : RegionMachine) : List Span := m.free ++ m.live.map liveSpan

/-- The pieces of the later state come from cutting those of the earlier one. -/
structure Splits (m m' : RegionMachine) : Prop where
  /-- Every later piece lies in a single earlier piece. -/
  finer : Finer m'.pieces m.pieces
  /-- There are at least as many pieces as before. -/
  length_le : m.pieces.length ≤ m'.pieces.length
  /-- Together they are not larger. -/
  total_le : total m'.pieces ≤ total m.pieces

/-- Pieces are pieces of themselves. -/
theorem Splits.refl (m : RegionMachine) : m.Splits m where
  finer := Finer.refl _
  length_le := Nat.le_refl _
  total_le := Nat.le_refl _

/-- Pieces of pieces are pieces. -/
theorem Splits.trans {l m n : RegionMachine} (h : l.Splits m) (h' : m.Splits n) : l.Splits n where
  finer := h'.finer.trans h.finer
  length_le := Nat.le_trans h.length_le h'.length_le
  total_le := Nat.le_trans h'.total_le h.total_le

/-- Rearranging the pieces cuts nothing. -/
theorem Splits.of_perm {m m' : RegionMachine} (h : m'.pieces.Perm m.pieces) : m.Splits m' where
  finer := Finer.of_perm h
  length_le := Nat.le_of_eq h.length_eq.symm
  total_le := Nat.le_of_eq (total_perm h)

/-- Carving a block cuts the region into the block and its remainder. -/
theorem splits_serve {layout : Layout} {r : Span} (hf : Fits layout r) (pre post : List Span)
    (live : List (Nat × Layout)) :
    Splits ⟨pre ++ r :: post, live⟩
      ⟨pre ++ remainder layout r ++ post, (startIn layout r, layout) :: live⟩ := by
  have hstart := (startIn_bounds layout r).1
  have hstop : stopIn layout r = startIn layout r + blockSize layout := rfl
  have hcut : Finer (⟨startIn layout r, blockSize layout⟩ :: remainder layout r) [r] ∧
      total (remainder layout r) + blockSize layout ≤ r.size := by
    rcases remainder_cases hf with ⟨hend, hrem⟩ | ⟨n, -, hend, hrem⟩
    · rw [hrem, total_nil]
      refine ⟨fun b hb => ⟨r, List.mem_singleton_self r, ?_⟩, by omega⟩
      obtain rfl := List.mem_singleton.mp hb
      exact ⟨hstart, by dsimp only; omega⟩
    · rw [hrem, total_cons, total_nil]
      refine ⟨fun b hb => ⟨r, List.mem_singleton_self r, ?_⟩, by dsimp only; omega⟩
      rcases List.mem_cons.mp hb with rfl | hb
      · exact ⟨hstart, by dsimp only; omega⟩
      · obtain rfl := List.mem_singleton.mp hb
        exact ⟨by dsimp only; omega, by dsimp only; omega⟩
  constructor
  · intro b hb
    simp only [pieces, List.mem_append, List.map_cons, List.mem_cons] at hb
    have hold : b ∈ pre ∨ b ∈ post ∨ b ∈ live.map liveSpan →
        ∃ c ∈ pieces ⟨pre ++ r :: post, live⟩, b.Inside c := by
      intro hmem
      refine ⟨b, ?_, Nat.le_refl _, Nat.le_refl _⟩
      simp only [pieces, List.mem_append, List.mem_cons]
      tauto
    have hnew : b ∈ (⟨startIn layout r, blockSize layout⟩ :: remainder layout r : List Span) →
        ∃ c ∈ pieces ⟨pre ++ r :: post, live⟩, b.Inside c := by
      intro hmem
      obtain ⟨c, hc, hin⟩ := hcut.1 b hmem
      obtain rfl := List.mem_singleton.mp hc
      refine ⟨c, ?_, hin⟩
      simp only [pieces, List.mem_append, List.mem_cons, true_or, or_true]
    rcases hb with ((hb | hb) | hb) | hb | hb
    · exact hold (Or.inl hb)
    · exact hnew (List.mem_cons_of_mem _ hb)
    · exact hold (Or.inr (Or.inl hb))
    · exact hnew (hb ▸ List.mem_cons_self)
    · exact hold (Or.inr (Or.inr hb))
  · simp only [pieces, List.length_append, List.length_cons, List.map_cons]
    omega
  · have hsize : (liveSpan (startIn layout r, layout)).size = blockSize layout := rfl
    simp only [pieces, total_append, total_cons, List.map_cons, hsize]
    omega

/-- Every permitted action splits. -/
theorem splits_act {m : RegionMachine} {a : Action} (hok : permitted m.live a) :
    m.Splits (m.act a) := by
  cases a with
  | alloc layout =>
    rcases m.act_alloc_cases layout with ⟨-, heq⟩ | ⟨pre, r, post, hfree, -, hf, heq⟩
    · rw [heq]
      exact Splits.refl m
    · obtain ⟨free, live⟩ := m
      dsimp only at hfree
      subst hfree
      rw [heq]
      exact splits_serve hf pre post live
  | dealloc ptr layout =>
    refine Splits.of_perm ?_
    have hperm := (List.perm_cons_erase hok).map liveSpan
    exact List.perm_middle.symm.trans (hperm.symm.append_left m.free)
  | write addr byte => exact Splits.refl m

/-- A layout larger than every piece fits no free region. -/
theorem not_fits_of_size_lt {m : RegionMachine} {layout : Layout}
    (h : ∀ b ∈ m.pieces, b.size < blockSize layout) : ∀ r ∈ m.free, ¬Fits layout r := by
  intro r hr hf
  have hlt := h r (List.mem_append_left _ hr)
  have hstart := (startIn_bounds layout r).1
  have hstop := hf.1
  unfold stopIn at hstop
  omega

end RegionMachine

/-- From any reachable state on, over any run, every free region and live block lies
in a single free region or live block of that state; there are never fewer of them and
they never add up to more. So a layout that is larger than each of them is refused in
every later state, whatever is freed. -/
theorem pieces_split (R : HeapRange) {c c' : Machine} (hreach : R.Reachable c)
    {acts : List Action} (hrun : c.run acts = some c') :
    ∃ free free', c.heap.freeRegions = some free ∧ c'.heap.freeRegions = some free' ∧
      Finer (free' ++ c'.live.map liveSpan) (free ++ c.live.map liveSpan) ∧
      free.length + c.live.length ≤ free'.length + c'.live.length ∧
      total free' + total (c'.live.map liveSpan) ≤ total free + total (c.live.map liveSpan) ∧
      ∀ layout, (∀ b ∈ free ++ c.live.map liveSpan, b.size < blockSize layout) →
        c'.heap.alloc layout = some (0, c'.heap) := by
  obtain ⟨mem, c₀, acts₀, hboot, hrun₀⟩ := hreach
  obtain ⟨m, href⟩ := HeapRange.refines_run hboot hrun₀
  obtain ⟨m', href', hsplits⟩ : ∃ m', Refines R c' m' ∧ m.Splits m' := by
    refine Transition.run_invariant (P := fun c => ∃ m', Refines R c m' ∧ m.Splits m') ?_
      ⟨m, href, RegionMachine.Splits.refl m⟩ hrun
    rintro d a e ⟨l, hl, hsplits⟩ hstep
    have hok : permitted l.live a := hl.live_eq ▸ (Machine.step_eq_some.mp hstep).1
    exact ⟨l.act a, hl.step hstep, hsplits.trans (RegionMachine.splits_act hok)⟩
  refine ⟨m.free, m'.free, href.freeRegions, href'.freeRegions, ?_, ?_, ?_, fun layout hlarge => ?_⟩
  · rw [href.live_eq, href'.live_eq]
    exact hsplits.finer
  · have hle := hsplits.length_le
    rw [href.live_eq, href'.live_eq]
    simpa only [RegionMachine.pieces, List.length_append, List.length_map] using hle
  · have hle := hsplits.total_le
    rw [href.live_eq, href'.live_eq]
    simpa only [RegionMachine.pieces, total_append] using hle
  · rw [href.live_eq] at hlarge
    have hnone := RegionMachine.not_fits_of_size_lt (hsplits.finer.size_lt hlarge)
    exact href'.represents.alloc_none href'.inv.parts R.stop_le href'.initialized hnone

/-- After two blocks of 128 bytes have been taken out of a heap of 256 and returned, a
block of 256 bytes is refused. -/
theorem pieces_split_nodesHeap :
    ∃ c c', nodesHeap.after [.alloc (.bytes 7), .alloc (.bytes 7)] = some c ∧
      c.run [.dealloc 4096 (.bytes 7), .dealloc 4224 (.bytes 7)] = some c' ∧ c'.live = [] ∧
      c'.heap.alloc (.bytes 8) = some (0, c'.heap) := by
  have hafter : ((nodesHeap.after [.alloc (.bytes 7), .alloc (.bytes 7)]).bind fun c =>
      (c.run [.dealloc 4096 (.bytes 7), .dealloc 4224 (.bytes 7)]).bind fun c' =>
        c.heap.freeRegions.map fun free => (free, c.live, c'.live)) =
      some ([], [(4224, .bytes 7), (4096, .bytes 7)], []) := by decide +kernel
  obtain ⟨c, hc, hrest⟩ := Option.bind_eq_some_iff.mp hafter
  obtain ⟨c', hrun, hrest⟩ := Option.bind_eq_some_iff.mp hrest
  obtain ⟨free, hfree, heq⟩ := Option.map_eq_some_iff.mp hrest
  simp only [Prod.mk.injEq] at heq
  obtain ⟨rfl, hlive, hlive'⟩ := heq
  obtain ⟨free₀, free', hfree₀, -, -, -, -, hrefused⟩ :=
    pieces_split nodesHeap (HeapRange.reachable_after hc) hrun
  obtain rfl : free₀ = [] := Option.some.inj (hfree₀.symm.trans hfree)
  refine ⟨c, c', hc, hrun, hlive', hrefused _ ?_⟩
  rw [hlive]
  decide

end SillOS.Linked

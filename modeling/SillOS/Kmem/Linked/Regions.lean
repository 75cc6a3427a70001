import Mathlib.Data.List.Perm.Subperm
import SillOS.Core.FirstFit
import SillOS.Core.Packing
import SillOS.Kmem.Linked.Machine

/-!
# First fit on a list of regions

The linked-list allocator as a list of free spans, under the same actions. A
request is served from the first region that holds it at its first aligned
address without leaving a remainder too small for a node. Free and live blocks
pack the heap; what lies in front of an allocation belongs to neither.
-/

namespace SillOS.Linked

open FirstFit Tiling
open Buddy (Action)

/-- The first multiple of the alignment from the start of a region on. -/
def startIn (layout : Layout) (r : Span) : Nat :=
  (r.start + (blockAlign layout - 1)) / blockAlign layout * blockAlign layout

/-- The first address behind a block at the first aligned address of a region. -/
def stopIn (layout : Layout) (r : Span) : Nat := startIn layout r + blockSize layout

/-- The region holds a block at its first aligned address, with a remainder that is empty or
large enough for a node. -/
def Fits (layout : Layout) (r : Span) : Prop :=
  stopIn layout r ≤ r.start + r.size ∧
    (r.start + r.size - stopIn layout r = 0 ∨ nodeSize ≤ r.start + r.size - stopIn layout r)

instance (layout : Layout) : DecidablePred (Fits layout) :=
  fun _ => inferInstanceAs (Decidable (_ ∧ _))

/-- What is left of a region behind the block. -/
def remainder (layout : Layout) (r : Span) : List Span :=
  if nodeSize ≤ r.start + r.size - stopIn layout r then
    [⟨stopIn layout r, r.start + r.size - stopIn layout r⟩]
  else []

/-- Serve a layout from one region. -/
def serve (layout : Layout) (r : Span) : Option (Nat × List Span) :=
  if Fits layout r then some (startIn layout r, remainder layout r) else none

private theorem serve_eq_none {layout : Layout} {r : Span} :
    serve layout r = none ↔ ¬Fits layout r := by
  rw [serve, ite_eq_right_iff]
  simp only [reduceCtorEq, imp_false]

/-- The alignment of a block is a power of two, and at least that of a node. -/
theorem blockAlign_pow (layout : Layout) : ∃ e, 3 ≤ e ∧ blockAlign layout = 2 ^ e := by
  obtain ⟨e, he⟩ := layout.align_pow
  rw [blockAlign, he, nodeAlign, show 8 = 2 ^ 3 from rfl]
  rcases Nat.le_total e 3 with h | h
  · exact ⟨3, Nat.le_refl 3, Nat.max_eq_right (Nat.pow_le_pow_right Nat.two_pos h)⟩
  · exact ⟨e, h, Nat.max_eq_left (Nat.pow_le_pow_right Nat.two_pos h)⟩

/-- So a block is aligned for a node. -/
theorem nodeAlign_dvd_blockAlign (layout : Layout) : nodeAlign ∣ blockAlign layout := by
  obtain ⟨e, he, heq⟩ := blockAlign_pow layout
  rw [heq]
  exact Nat.pow_dvd_pow 2 he

/-- And it is aligned for its layout. -/
theorem align_dvd_blockAlign (layout : Layout) : layout.align ∣ blockAlign layout := by
  obtain ⟨e, -, heq⟩ := blockAlign_pow layout
  rw [heq]
  exact layout.align_dvd (heq ▸ Nat.le_max_left _ _)

/-- Alignments are positive. -/
theorem blockAlign_pos (layout : Layout) : 0 < blockAlign layout :=
  Nat.lt_of_lt_of_le (by decide) (Nat.le_max_right layout.align nodeAlign)

/-- A block is carved at an aligned address. -/
theorem blockAlign_dvd_startIn (layout : Layout) (r : Span) :
    blockAlign layout ∣ startIn layout r := Nat.dvd_mul_left _ _

/-- The first aligned address is less than one alignment away. -/
theorem startIn_bounds (layout : Layout) (r : Span) :
    r.start ≤ startIn layout r ∧ startIn layout r < r.start + blockAlign layout := by
  have hpos := blockAlign_pos layout
  have hdiv := Nat.div_add_mod (r.start + (blockAlign layout - 1)) (blockAlign layout)
  have hmod := Nat.mod_lt (r.start + (blockAlign layout - 1)) hpos
  rw [Nat.mul_comm] at hdiv
  unfold startIn
  omega

/-- A region that starts aligned holds the block at its start. -/
theorem startIn_eq_start_iff {layout : Layout} {r : Span} :
    startIn layout r = r.start ↔ blockAlign layout ∣ r.start := by
  constructor
  · intro h
    exact h ▸ blockAlign_dvd_startIn layout r
  · intro h
    obtain ⟨k, hk⟩ := blockAlign_dvd_startIn layout r
    obtain ⟨j, hj⟩ := h
    obtain ⟨hlo, hhi⟩ := startIn_bounds layout r
    rw [hk, hj, ← Nat.mul_add_one] at hhi
    rw [hk, hj] at hlo
    have hjk := Nat.lt_of_mul_lt_mul_left hhi
    have hkj := Nat.le_of_mul_le_mul_left hlo (blockAlign_pos layout)
    rw [hk, hj, show k = j by omega]

/-- A block has room for a node. -/
theorem blockSize_ge (layout : Layout) : nodeSize ≤ blockSize layout := Nat.le_max_right _ _

private theorem serve_eq_some {layout : Layout} {r : Span} {ptr : Nat} {left : List Span} :
    serve layout r = some (ptr, left) ↔
      Fits layout r ∧ startIn layout r = ptr ∧ remainder layout r = left := by
  rw [serve, Option.ite_none_right_eq_some, Option.some_inj, Prod.mk.injEq]

/-- A remainder is empty or one span that ends where the region ends. -/
theorem remainder_cases {layout : Layout} {r : Span} (h : Fits layout r) :
    stopIn layout r = r.start + r.size ∧ remainder layout r = [] ∨
      ∃ n, nodeSize ≤ n ∧ stopIn layout r + n = r.start + r.size ∧
        remainder layout r = [⟨stopIn layout r, n⟩] := by
  obtain ⟨hle, hzero | hnode⟩ := h
  · refine Or.inl ⟨by omega, if_neg ?_⟩
    rw [hzero]
    decide
  · exact Or.inr ⟨_, hnode, by omega, if_pos hnode⟩

/-- A block and its remainder lie in the region. -/
theorem cover_serve_le {layout : Layout} {r : Span} (h : Fits layout r) (x : Nat) :
    cover (⟨startIn layout r, blockSize layout⟩ :: remainder layout r) x ≤ cover [r] x := by
  have hlo := (startIn_bounds layout r).1
  have hstop : stopIn layout r = startIn layout r + blockSize layout := rfl
  rcases remainder_cases h with ⟨hend, hrem⟩ | ⟨n, -, hend, hrem⟩
  · have hin := cover_inside_le (r := r) (n := blockSize layout) (m := 0) hlo (by omega) x
    rw [hrem]
    refine Nat.le_trans ?_ hin
    simp only [cover_cons, cover_nil]
    omega
  · rw [hrem, hstop]
    exact cover_inside_le hlo (by omega) x

/-! ## Free regions and live blocks -/

/-- Free regions and other spans pack an interval, and every region holds a node. -/
structure Parts (free rest : List Span) (lo hi : Nat) : Prop where
  /-- No two spans meet, and all are inside. -/
  packs : Packs (free ++ rest) lo hi
  /-- Every free region holds a node. -/
  node_le : ∀ r ∈ free, nodeSize ≤ r.size

namespace Parts

variable {free free' rest rest' pre post : List Span} {r : Span} {lo hi : Nat}

/-- The order of the other parts does not matter. -/
theorem perm (h : Parts free rest lo hi) (hp : rest'.Perm rest) : Parts free rest' lo hi :=
  ⟨h.packs.perm (hp.append_left free), h.node_le⟩

/-- A free region is inside. -/
theorem bounds (h : Parts free rest lo hi) (hr : r ∈ free) :
    lo ≤ r.start ∧ r.start + r.size ≤ hi := by
  have hnode : 16 ≤ r.size := h.node_le r hr
  exact h.packs.bounds (List.mem_append_left _ hr) (by omega)

/-- Returning a span to the front of the list. -/
theorem free_cons (h : Parts free (r :: rest) lo hi) (hr : nodeSize ≤ r.size) :
    Parts (r :: free) rest lo hi :=
  ⟨h.packs.perm List.perm_middle.symm, List.forall_mem_cons.mpr ⟨hr, h.node_le⟩⟩

/-- Serving a layout from one region. -/
theorem serve {layout : Layout} (h : Parts (pre ++ r :: post) rest lo hi) (hf : Fits layout r) :
    Parts (pre ++ remainder layout r ++ post)
      (⟨startIn layout r, blockSize layout⟩ :: rest) lo hi := by
  constructor
  · refine h.packs.mono fun x => ?_
    have hle := cover_serve_le hf x
    simp only [cover_append, cover_cons, cover_nil] at hle ⊢
    omega
  · intro b hb
    have hold := h.node_le b
    simp only [List.mem_append, List.mem_cons] at hb hold
    rcases hb with (hb | hb) | hb
    · exact hold (Or.inl hb)
    · rcases remainder_cases hf with ⟨-, hrem⟩ | ⟨n, hn, -, hrem⟩
      · rw [hrem] at hb
        cases hb
      · rw [hrem] at hb
        rw [List.mem_singleton.mp hb]
        exact hn
    · exact hold (Or.inr (Or.inr hb))

/-- A free region shares no byte with the other spans. -/
theorem disjoint_rest (h : Parts free rest lo hi) {c : Span} {x : Nat} (hr : r ∈ free)
    (hc : c ∈ rest) (hx : x ∈ r) : x ∉ c := by
  have hpair := (List.pairwise_append.mp (packs_iff.mp h.packs).1).2.2
  exact hpair r hr c hc x hx

/-- The free regions are pairwise disjoint. -/
theorem free_pairwise (h : Parts free rest lo hi) : free.Pairwise Span.Disjoint :=
  (List.pairwise_append.mp (packs_iff.mp h.packs).1).1

/-- No two free regions start at the same address. -/
theorem starts_nodup (h : Parts free rest lo hi) : (free.map Span.start).Nodup := by
  refine List.pairwise_map.mpr (h.free_pairwise.imp_of_mem fun {b c} hb hc hd he => ?_)
  have hb' : 16 ≤ b.size := h.node_le b hb
  have hc' : 16 ≤ c.size := h.node_le c hc
  exact hd b.start ⟨Nat.le_refl _, by omega⟩ ⟨by omega, by omega⟩

/-- There are at most as many free regions as addresses. -/
theorem length_le (h : Parts free rest lo hi) : free.length ≤ hi := by
  have hsub : free.map Span.start ⊆ List.range hi := by
    intro a ha
    obtain ⟨r, hr, rfl⟩ := List.mem_map.mp ha
    have hnode : 16 ≤ r.size := h.node_le r hr
    have hbounds := h.bounds hr
    exact List.mem_range.mpr (by omega)
  have hle := (h.starts_nodup.subperm hsub).length_le
  rwa [List.length_map, List.length_range] at hle

end Parts

/-! ## The machine on the list -/

/-- The free regions with the allocations that have not been freed. -/
structure RegionMachine where
  /-- The free list. -/
  free : List Span
  /-- Pointer and layout of every live allocation. -/
  live : List (Nat × Layout)

namespace RegionMachine

/-- The effect of an action. Writes inside live blocks are invisible here. -/
def act (m : RegionMachine) : Action → RegionMachine
  | .alloc layout =>
    match takeFirst (serve layout) m.free with
    | none => m
    | some (ptr, free) => ⟨free, (ptr, layout) :: m.live⟩
  | .dealloc ptr layout => ⟨liveSpan (ptr, layout) :: m.free, m.live.erase (ptr, layout)⟩
  | .write _ _ => m

/-- Free and live blocks pack the heap, and live pointers meet their alignment. -/
structure Inv (R : HeapRange) (m : RegionMachine) : Prop where
  /-- No two blocks meet. -/
  parts : Parts m.free (m.live.map liveSpan) R.start R.stop
  /-- Every live pointer is aligned. -/
  live_aligned : ∀ b ∈ m.live, blockAlign b.2 ∣ b.1

variable {R : HeapRange} {m : RegionMachine}

/-- What `alloc` does: nothing, or serve from the first region that fits. -/
theorem act_alloc_cases (m : RegionMachine) (layout : Layout) :
    ((∀ r ∈ m.free, ¬Fits layout r) ∧ m.act (.alloc layout) = m) ∨
      ∃ pre r post, m.free = pre ++ r :: post ∧ (∀ x ∈ pre, ¬Fits layout x) ∧ Fits layout r ∧
        m.act (.alloc layout) =
          ⟨pre ++ remainder layout r ++ post, (startIn layout r, layout) :: m.live⟩ := by
  rcases htake : takeFirst (serve layout) m.free with _ | ⟨ptr, free⟩
  · refine Or.inl ⟨fun r hr => serve_eq_none.mp (takeFirst_eq_none.mp htake r hr), ?_⟩
    simp only [act, htake]
  · obtain ⟨pre, r, post, left, hfree, hpre, hr, rfl⟩ := takeFirst_eq_some htake
    obtain ⟨hf, rfl, rfl⟩ := serve_eq_some.mp hr
    refine Or.inr ⟨pre, r, post, hfree, fun x hx => serve_eq_none.mp (hpre x hx), hf, ?_⟩
    simp only [act, htake]

/-- Every permitted action keeps free and live blocks a packing. -/
theorem Inv.act (h : m.Inv R) {a : Action} (hok : permitted m.live a) : (m.act a).Inv R := by
  cases a with
  | alloc layout =>
    rcases m.act_alloc_cases layout with ⟨-, heq⟩ | ⟨pre, r, post, hfree, -, hf, heq⟩
    · rw [heq]
      exact h
    · rw [heq]
      refine ⟨(hfree ▸ h.parts).serve hf, List.forall_mem_cons.mpr ⟨?_, h.live_aligned⟩⟩
      exact blockAlign_dvd_startIn layout r
  | dealloc ptr layout =>
    have hperm := (List.perm_cons_erase hok).map liveSpan
    refine ⟨(h.parts.perm hperm.symm).free_cons (blockSize_ge layout), fun b hb => ?_⟩
    exact h.live_aligned b (List.mem_of_mem_erase hb)
  | write addr byte => exact h

end RegionMachine

/-- The list-based machine right after `init`. -/
def HeapRange.bootRegions (R : HeapRange) : RegionMachine := ⟨[⟨R.start, R.size⟩], []⟩

/-- A fresh heap meets the invariant. -/
theorem RegionMachine.inv_boot (R : HeapRange) : R.bootRegions.Inv R where
  parts := by
    refine ⟨fun x => ?_, List.forall_mem_singleton.mpr R.size_ge⟩
    simp only [HeapRange.bootRegions, List.map_nil, List.append_nil, cover_cons, cover_nil]
    exact Nat.le_refl _
  live_aligned := List.forall_mem_nil _

end SillOS.Linked

import SillOS.Kmem.Linked.Represents

/-!
# The allocator refines first fit

The loop of `alloc` passes over the regions that do not fit and carves the block
out of the first that does; no address computation overflows on the way. Runs of
the two machines therefore go in lockstep.
-/

namespace SillOS.Linked

open ByteMemory IntrusiveList FirstFit Tiling
open Buddy (Action)

/-! ## One region -/

section Region

variable {layout adjusted : Layout} {r : Span} {lo hi : Nat}

/-- The adjustment has the size and the alignment of the block. -/
theorem adjustLayout_eq_some :
    adjustLayout layout = some adjusted ↔
      adjusted.size = blockSize layout ∧ adjusted.align = blockAlign layout :=
  Layout.fromSizeAlign_eq_some

/-- The adjustment succeeds if an aligned block of that size ends in the lower half. -/
theorem adjustLayout_isSome {ptr : Nat} (hptr : ptr ≠ 0) (hdvd : blockAlign layout ∣ ptr)
    (hend : ptr + blockSize layout ≤ 2 ^ 63) : ∃ adjusted, adjustLayout layout = some adjusted := by
  obtain ⟨e, -, hpow⟩ := blockAlign_pow layout
  have hle := Nat.le_of_dvd (Nat.pos_of_ne_zero hptr) hdvd
  exact ⟨_, dif_pos ⟨⟨e, hpow⟩, by
    change blockSize layout + blockAlign layout ≤ 2 ^ 63
    omega⟩⟩

/-- Aligning the start of a region upwards does not overflow. -/
theorem alignUp_eq (h : adjustLayout layout = some adjusted) (hhi : r.start ≤ 2 ^ 63) :
    alignUp r.start adjusted.align = some (startIn layout r) := by
  obtain ⟨hsize, halign⟩ := adjustLayout_eq_some.mp h
  obtain ⟨e, -, hpow⟩ := blockAlign_pow layout
  have hle := adjusted.size_le
  have hnode : 16 ≤ blockSize layout := blockSize_ge layout
  have hpos := blockAlign_pos layout
  have he : e ≤ 64 := by
    by_contra hgt
    have := Nat.pow_le_pow_right Nat.two_pos (Nat.le_of_not_le hgt)
    omega
  rw [alignUp, checkedAdd, if_pos (by omega), Option.map_some, halign,
    Nat.add_sub_assoc hpos, startIn, hpow, TwoPow.and_compl_mask (by omega) he]

/-- One region serves a layout at its first aligned address if it fits there. -/
theorem allocFromRegion_eq {node : ListNode} (h : adjustLayout layout = some adjusted)
    (hnode : node.size = r.size) (hhi : r.start + r.size ≤ 2 ^ 63) :
    allocFromRegion r.start node adjusted =
      some (if Fits layout r then .ok (startIn layout r) else .error ()) := by
  obtain ⟨hsize, halign⟩ := adjustLayout_eq_some.mp h
  have hle := adjusted.size_le
  have hbounds := startIn_bounds layout r
  rw [allocFromRegion, alignUp_eq h (by omega), Option.map_some, hnode, hsize, checkedAdd,
    checkedAdd, if_pos (by omega), if_pos (by omega)]
  dsimp only
  by_cases hf : Fits layout r
  · rw [if_pos hf]
    simp only [Fits, stopIn, nodeSize] at hf
    rw [if_neg (Nat.not_lt.mpr hf.1), if_neg (by simp only [nodeSize]; omega)]
  · rw [if_neg hf]
    simp only [Fits, stopIn, nodeSize] at hf
    by_cases hend : startIn layout r + blockSize layout > r.start + r.size
    · rw [if_pos hend]
    · rw [if_neg hend, if_pos (by simp only [nodeSize]; omega)]

end Region

/-! ## The loop -/

namespace ListState

variable {s : ListState} {layout : Layout}

/-- The loop passes over regions that do not serve the layout. -/
theorem allocLoop_skip {as bs : List Nat} {current : Nat} (fuel : Nat)
    (hskip : ∀ a ∈ as, allocFromRegion a (readNode s.mem a) layout = some (.error ()))
    (h : Chain s.nextOf (s.nextOf current) (as ++ bs)) :
    s.allocLoop layout (as.length + fuel) current =
        s.allocLoop layout fuel ((current :: as).getLast (List.cons_ne_nil current as)) ∧
      Chain s.nextOf (s.nextOf ((current :: as).getLast (List.cons_ne_nil current as))) bs := by
  induction as generalizing current with
  | nil => exact ⟨by rw [List.length_nil, Nat.zero_add, List.getLast_singleton], h⟩
  | cons a as ih =>
    obtain ⟨hnext, hne, hrest⟩ := h
    obtain ⟨ha, has⟩ := List.forall_mem_cons.mp hskip
    obtain ⟨hloop, hchain⟩ := ih has hrest
    rw [List.getLast_cons_cons]
    refine ⟨?_, hchain⟩
    rw [← hloop, List.length_cons, Nat.succ_add, allocLoop]
    simp only [hnext, if_neg hne, ha]

/-- The loop ends at the end of the list. -/
theorem allocLoop_end {fuel current : Nat} (hnext : s.nextOf current = 0) :
    s.allocLoop layout (fuel + 1) current = some (0, s) := by
  rw [allocLoop]
  exact if_pos hnext

/-- The state after carving a block out of a region: a remainder of `n` bytes at `stop` takes its
place in the list, if there is one. -/
def carve (s : ListState) (current region stop n : Nat) : ListState :=
  let next := s.nextOf region
  let t := s.setNext region 0
  if nodeSize ≤ n then
    let t : ListState := { t with mem := writeNode t.mem stop ⟨n, next⟩ }
    t.setNext current stop
  else t.setNext current next

/-- The loop carves the block out of a region that serves the layout. -/
theorem allocLoop_found {fuel current region start stop regionStop : Nat}
    (hnext : s.nextOf current = region) (hne : region ≠ 0)
    (hserve : allocFromRegion region (readNode s.mem region) layout = some (.ok start))
    (hstop : checkedAdd start layout.size = some stop)
    (hregion : checkedAdd region (readNode s.mem region).size = some regionStop) :
    s.allocLoop layout (fuel + 1) current =
      some (start, s.carve current region stop (regionStop - stop)) := by
  rw [allocLoop]
  simp only [hnext, if_neg hne, hserve, hstop, hregion, carve]
  split <;> rfl

end ListState

/-! ## Carving a block out of a region -/

section Carve

variable {s : ListState} {layout : Layout} {rest pre post : List Span} {r : Span} {lo hi n : Nat}

/-- The predecessor's link is outside the region. -/
private theorem lastStart_apart (hp : Parts (pre ++ r :: post) rest lo hi) {x : Nat} (hx : x ∈ r) :
    lastStart pre = 0 ∨ ¬(lastStart pre + 8 ≤ x ∧ x < lastStart pre + 16) := by
  rcases lastStart_cases pre with hzero | ⟨c, hc, hlast⟩
  · exact Or.inl hzero
  · refine Or.inr fun hxc => ?_
    have hnode : 16 ≤ c.size := hp.node_le c (List.mem_append_left _ hc)
    have hpair := (List.pairwise_append.mp hp.free_pairwise).2.2
    exact hpair c hc r List.mem_cons_self x ⟨by omega, by omega⟩ hx

/-- A region that is used up is unlinked. -/
private theorem carve_whole (h : Represents s (pre ++ r :: post))
    (hp : Parts (pre ++ r :: post) rest lo hi) (hlo : 0 < lo) (stop : Nat) :
    Represents.Redirects pre r s (s.carve (lastStart pre) r.start stop 0) ∧
      (s.carve (lastStart pre) r.start stop 0).initialized = s.initialized ∧
      Represents (s.carve (lastStart pre) r.start stop 0) (pre ++ [] ++ post) := by
  have hr : r ∈ pre ++ r :: post := List.mem_append_right pre List.mem_cons_self
  have hnode : 16 ≤ r.size := hp.node_le r hr
  have hne : r.start ≠ 0 := by
    have := (hp.bounds hr).1
    omega
  have hcarve : s.carve (lastStart pre) r.start stop 0 =
      (s.setNext r.start 0).setNext (lastStart pre) (s.nextOf r.start) := rfl
  rw [hcarve]
  have hred : Represents.Redirects pre r s
      ((s.setNext r.start 0).setNext (lastStart pre) (s.nextOf r.start)) := by
    refine ⟨fun x hx hlast => ?_, fun hlast => ?_⟩
    · rw [setNext_mem hlast, setNext_mem (Or.inr fun hxr => hx ⟨by omega, by omega⟩)]
    · rw [setNext_head hlast, setNext_head hne]
  refine ⟨hred, by rw [setNext_initialized, setNext_initialized], ?_⟩
  refine h.replace hp hlo hred (fun tail htail => ?_) (List.forall_mem_nil _)
  rw [setNext_nextOf_self (nextOf_lt hne)]
  exact htail

/-- The remainder of a region takes its place. -/
private theorem carve_split (h : Represents s (pre ++ r :: post))
    (hp : Parts (pre ++ r :: post) rest lo hi) (hlo : 0 < lo) (hhi : hi ≤ 2 ^ 63) {stop : Nat}
    (hn : nodeSize ≤ n) (hstart : r.start ≤ stop) (hstop : stop + n = r.start + r.size) :
    Represents.Redirects pre r s (s.carve (lastStart pre) r.start stop n) ∧
      (s.carve (lastStart pre) r.start stop n).initialized = s.initialized ∧
      Represents (s.carve (lastStart pre) r.start stop n) (pre ++ [⟨stop, n⟩] ++ post) := by
  have hr : r ∈ pre ++ r :: post := List.mem_append_right pre List.mem_cons_self
  have hnode : 16 ≤ r.size := hp.node_le r hr
  have hn16 : 16 ≤ n := hn
  have hbounds := hp.bounds hr
  have hne : r.start ≠ 0 := by omega
  rw [ListState.carve, if_pos hn]
  generalize hw : ({ s.setNext r.start 0 with
    mem := writeNode (s.setNext r.start 0).mem stop ⟨n, s.nextOf r.start⟩ } : ListState) = w
  have hwmem : w.mem = writeNode (s.setNext r.start 0).mem stop ⟨n, s.nextOf r.start⟩ := by
    rw [← hw]
  have hwhead : w.head = s.head := by rw [← hw, setNext_head hne]
  have hwinit : w.initialized = s.initialized := by rw [← hw, setNext_initialized]
  have hread : readNode (w.setNext (lastStart pre) stop).mem stop = ⟨n, s.nextOf r.start⟩ := calc
    readNode (w.setNext (lastStart pre) stop).mem stop = readNode w.mem stop :=
      readNode_congr fun x h1 h2 => setNext_mem (lastStart_apart hp ⟨by omega, by omega⟩)
    _ = ⟨n, s.nextOf r.start⟩ := by
      rw [hwmem]
      exact readNode_writeNode (by dsimp only; omega) (nextOf_lt hne)
  have hred : Represents.Redirects pre r s (w.setNext (lastStart pre) stop) := by
    refine ⟨fun x hx hlast => ?_, fun hlast => ?_⟩
    · rw [setNext_mem hlast, hwmem, writeNode_of_not_mem fun hxn => hx ⟨by omega, by omega⟩,
        setNext_mem (Or.inr fun hxr => hx ⟨by omega, by omega⟩)]
    · rw [setNext_head hlast, hwhead]
  refine ⟨hred, by rw [setNext_initialized, hwinit],
    h.replace hp hlo hred (fun tail htail => ?_) ?_⟩
  · have hstop0 : stop ≠ 0 := by omega
    rw [setNext_nextOf_self (by omega)]
    refine ⟨rfl, hstop0, ?_⟩
    rw [nextOf_of_ne hstop0, hread]
    exact htail
  · exact List.forall_mem_singleton.mpr (congrArg ListNode.size hread)

/-- Carving a block out of the region in which it fits. -/
theorem Represents.carve (h : Represents s (pre ++ r :: post))
    (hp : Parts (pre ++ r :: post) rest lo hi) (hlo : 0 < lo) (hhi : hi ≤ 2 ^ 63)
    (hf : Fits layout r) :
    ∃ t, s.carve (lastStart pre) r.start (stopIn layout r)
        (r.start + r.size - stopIn layout r) = t ∧
      Represents t (pre ++ remainder layout r ++ post) ∧ Frame rest s t := by
  have hstart := (startIn_bounds layout r).1
  have hstop : stopIn layout r = startIn layout r + blockSize layout := rfl
  rcases remainder_cases hf with ⟨hend, hrem⟩ | ⟨n, hn, hend, hrem⟩
  · rw [hend, Nat.sub_self, hrem]
    obtain ⟨hred, hinit, hrep⟩ := carve_whole h hp hlo (r.start + r.size)
    exact ⟨_, rfl, hrep, hred.frame hinit hp⟩
  · rw [← hend, Nat.add_sub_cancel_left, hrem]
    obtain ⟨hred, hinit, hrep⟩ := carve_split h hp hlo hhi hn (by omega) hend
    exact ⟨_, rfl, hrep, hred.frame hinit hp⟩

end Carve

/-! ## Calls -/

namespace Represents

variable {s : ListState} {layout : Layout} {free rest pre post : List Span} {r b : Span}
  {lo hi : Nat}

/-- The nodes of regions that do not fit are passed over. -/
private theorem skip (h : Represents s free) (hp : Parts free rest lo hi) (hhi : hi ≤ 2 ^ 63)
    {adjusted : Layout} (hadjust : adjustLayout layout = some adjusted)
    (hsub : ∀ r ∈ pre, r ∈ free ∧ ¬Fits layout r) :
    ∀ a ∈ pre.map Span.start,
      allocFromRegion a (readNode s.mem a) adjusted = some (.error ()) := by
  intro a ha
  obtain ⟨r, hr, rfl⟩ := List.mem_map.mp ha
  obtain ⟨hmem, hno⟩ := hsub r hr
  have hbounds := hp.bounds hmem
  rw [allocFromRegion_eq hadjust (h.sizes r hmem) (by omega), if_neg hno]

/-- The fuel of the loop outlasts the nodes that are passed over. -/
private theorem exists_fuel {n : Nat} (h : n < 2 ^ 64) : ∃ fuel, 2 ^ 64 = n + (fuel + 1) :=
  ⟨2 ^ 64 - 1 - n, by omega⟩

/-- A call of `alloc` when no region fits changes nothing. -/
theorem alloc_none (h : Represents s free) (hp : Parts free rest lo hi) (hhi : hi ≤ 2 ^ 63)
    (hinit : s.initialized = true) (hnone : ∀ r ∈ free, ¬Fits layout r) :
    s.alloc layout = some (0, s) := by
  simp only [ListState.alloc, hinit, Bool.not_true, Bool.false_eq_true, if_false]
  cases hadjust : adjustLayout layout with
  | none => rfl
  | some adjusted =>
    have hlength := length_lt hp hhi
    obtain ⟨fuel, hfuel⟩ := exists_fuel hlength
    have hchain := h.chain
    rw [← List.append_nil (free.map Span.start)] at hchain
    obtain ⟨hloop, hlast⟩ := ListState.allocLoop_skip (fuel + 1)
      (h.skip hp hhi hadjust fun r hr => ⟨hr, hnone r hr⟩) hchain
    dsimp only
    rw [hfuel, hloop, ListState.allocLoop_end hlast]

/-- A call of `alloc` serves from the first region that fits. -/
theorem alloc_some (h : Represents s (pre ++ r :: post)) (hp : Parts (pre ++ r :: post) rest lo hi)
    (hlo : 0 < lo) (hhi : hi ≤ 2 ^ 63) (hinit : s.initialized = true)
    (hpre : ∀ x ∈ pre, ¬Fits layout x) (hf : Fits layout r) :
    ∃ t, s.alloc layout = some (startIn layout r, t) ∧
      Represents t (pre ++ remainder layout r ++ post) ∧ Frame rest s t := by
  have hr : r ∈ pre ++ r :: post := List.mem_append_right pre List.mem_cons_self
  have hbounds := hp.bounds hr
  have hstart := startIn_bounds layout r
  have hstop : startIn layout r + blockSize layout ≤ r.start + r.size := hf.1
  have hne0 : startIn layout r ≠ 0 := by omega
  obtain ⟨adjusted, hadjust⟩ :=
    adjustLayout_isSome hne0 (blockAlign_dvd_startIn layout r) (by omega)
  obtain ⟨hsize, -⟩ := adjustLayout_eq_some.mp hadjust
  have hlength := length_lt hp hhi
  rw [List.map_append, List.length_append] at hlength
  obtain ⟨fuel, hfuel⟩ := exists_fuel (Nat.lt_of_le_of_lt (Nat.le_add_right _ _) hlength)
  have hchain := h.chain
  rw [List.map_append, List.map_cons] at hchain
  obtain ⟨hloop, hnext, hne, -⟩ := ListState.allocLoop_skip (fuel + 1)
    (h.skip hp hhi hadjust fun x hx => ⟨List.mem_append_left _ hx, hpre x hx⟩) hchain
  have hserve := allocFromRegion_eq hadjust (h.sizes r hr) (by omega)
  rw [if_pos hf] at hserve
  have hend : checkedAdd (startIn layout r) adjusted.size = some (stopIn layout r) := by
    rw [hsize]
    exact if_pos (by omega)
  have hregion : checkedAdd r.start (readNode s.mem r.start).size = some (r.start + r.size) := by
    rw [h.sizes r hr]
    exact if_pos (by omega)
  obtain ⟨t, ht, hrep, hframe⟩ := h.carve hp hlo hhi hf
  refine ⟨t, ?_, hrep, hframe⟩
  simp only [ListState.alloc, hinit, Bool.not_true, Bool.false_eq_true, if_false, hadjust]
  rw [hfuel, hloop, ListState.allocLoop_found hnext hne hserve hend hregion]
  exact congrArg (fun t => some (startIn layout r, t)) ht

/-- The head of the list is a valid pointer. -/
theorem head_lt (h : Represents s free) (hp : Parts free rest lo hi) (hhi : hi ≤ 2 ^ 63) :
    s.head.next < 2 ^ 64 := by
  have hchain := h.chain
  rw [nextOf_zero] at hchain
  cases free with
  | nil =>
    rw [chain_nil.mp hchain]
    decide
  | cons r free =>
    have hbounds := hp.bounds (r := r) List.mem_cons_self
    rw [hchain.1]
    omega

/-- Adding a span in hand to the front of the list. -/
theorem addFreeRegion (h : Represents s free) (hp : Parts free (b :: rest) lo hi) (hlo : 0 < lo)
    (hhi : hi ≤ 2 ^ 63) (halign : nodeAlign ∣ b.start) (hb : nodeSize ≤ b.size) :
    ∃ t, s.addFreeRegion b.start b.size = some t ∧ Represents t (b :: free) ∧ Frame rest s t := by
  have hb16 : 16 ≤ b.size := hb
  have hbounds := hp.packs.bounds (List.mem_append_right free List.mem_cons_self) (by omega)
  have hpair := List.pairwise_append.mp (packs_iff.mp hp.packs).1
  have hne : b.start ≠ 0 := by omega
  have hread : readNode (writeNode s.mem b.start ⟨b.size, s.head.next⟩) b.start =
      ⟨b.size, s.head.next⟩ :=
    readNode_writeNode (by dsimp only; omega) (h.head_lt hp hhi)
  have hkeep : ∀ r ∈ free, readNode (writeNode s.mem b.start ⟨b.size, s.head.next⟩) r.start =
      readNode s.mem r.start := by
    intro r hr
    have hr16 : 16 ≤ r.size := hp.node_le r hr
    refine readNode_congr fun x h1 h2 => writeNode_of_not_mem fun hx => ?_
    exact hpair.2.2 r hr b List.mem_cons_self x ⟨h1, by omega⟩ ⟨hx.1, by omega⟩
  refine ⟨{ s with
    mem := writeNode s.mem b.start ⟨b.size, s.head.next⟩
    head := { s.head with next := b.start } }, ?_, ⟨?_, ?_⟩, ⟨rfl, fun c hc x hx => ?_⟩⟩
  · rw [ListState.addFreeRegion, if_neg (not_not.mpr (Nat.mod_eq_zero_of_dvd halign)),
      if_neg (not_not.mpr hb)]
  · rw [nextOf_zero]
    change Chain _ b.start (b.start :: free.map Span.start)
    refine h.chain.push hne ?_ fun a ha => ?_
    · rw [nextOf_of_ne hne, hread, nextOf_zero]
    · obtain ⟨r, hr, rfl⟩ := List.mem_map.mp ha
      have hr0 : r.start ≠ 0 := by
        have := (hp.bounds hr).1
        omega
      rw [nextOf_of_ne hr0, nextOf_of_ne hr0, hkeep r hr]
  · refine List.forall_mem_cons.mpr ⟨congrArg ListNode.size hread, fun r hr => ?_⟩
    rw [hkeep r hr, h.sizes r hr]
  · refine writeNode_of_not_mem fun hxb => ?_
    exact (List.pairwise_cons.mp hpair.2.1).1 c hc x ⟨hxb.1, by omega⟩ hx

/-- A call of `dealloc` on a live block returns. -/
theorem dealloc {ptr : Nat} (h : Represents s free)
    (hp : Parts free (liveSpan (ptr, layout) :: rest) lo hi) (hlo : 0 < lo) (hhi : hi ≤ 2 ^ 63)
    (halign : blockAlign layout ∣ ptr) :
    ∃ t, s.dealloc ptr layout = some t ∧ Represents t (liveSpan (ptr, layout) :: free) ∧
      Frame rest s t := by
  have hnode : 16 ≤ blockSize layout := blockSize_ge layout
  have hbounds := hp.packs.bounds (List.mem_append_right free List.mem_cons_self)
    (Nat.lt_of_lt_of_le (by decide) hnode)
  simp only [liveSpan] at hbounds
  obtain ⟨adjusted, hadjust⟩ := adjustLayout_isSome (by omega) halign (by omega)
  obtain ⟨hsize, -⟩ := adjustLayout_eq_some.mp hadjust
  obtain ⟨t, ht, hrep, hframe⟩ := h.addFreeRegion hp hlo hhi
    (Nat.dvd_trans (nodeAlign_dvd_blockAlign layout) halign) hnode
  refine ⟨t, ?_, hrep, hframe⟩
  rw [ListState.dealloc, if_neg (by omega)]
  simp only [hadjust, hsize]
  exact ht

end Represents

/-! ## Runs in lockstep -/

/-- The machine behaves like the list-based machine in this state. -/
structure Refines (R : HeapRange) (c : Machine) (m : RegionMachine) : Prop where
  /-- Same live allocations. -/
  live_eq : c.live = m.live
  /-- `init` has run. -/
  initialized : c.heap.initialized = true
  /-- The list in memory is the abstract one. -/
  represents : Represents c.heap m.free
  /-- Free and live blocks pack the heap. -/
  inv : m.Inv R

namespace Refines

variable {R : HeapRange} {c c' : Machine} {m : RegionMachine}

/-- The machine after `init` refines the list with the whole range. -/
theorem boot (R : HeapRange) (mem : ByteMemory) :
    ∃ c, R.boot mem = some c ∧ Refines R c R.bootRegions := by
  have hempty : Represents { ListState.new mem with initialized := true } [] :=
    ⟨rfl, List.forall_mem_nil _⟩
  have hparts : Parts [] [⟨R.start, R.size⟩] R.start R.stop :=
    ⟨(RegionMachine.inv_boot R).parts.packs, List.forall_mem_nil _⟩
  obtain ⟨t, ht, hrep, hframe⟩ := hempty.addFreeRegion hparts R.start_pos R.stop_le
    (Nat.dvd_of_mod_eq_zero R.aligned) R.size_ge
  refine ⟨⟨t, []⟩, ?_, rfl, hframe.initialized_eq, hrep, RegionMachine.inv_boot R⟩
  have halign : ¬R.start % nodeAlign ≠ 0 := not_not.mpr R.aligned
  have hsize : ¬¬R.size ≥ nodeSize := not_not.mpr R.size_ge
  rw [HeapRange.boot, ListState.init, if_neg halign, if_neg hsize]
  exact congrArg (Option.map fun heap => (⟨heap, []⟩ : Machine)) ht

/-- A write inside a live block leaves the list alone. -/
theorem write (h : Refines R c m) {addr : Nat} (byte : UInt8)
    (hmem : ∃ b ∈ m.live, addr ∈ liveSpan b) :
    Represents { c.heap with mem := storeByte c.heap.mem addr byte } m.free := by
  obtain ⟨b, hb, hx⟩ := hmem
  have hkeep : ∀ r ∈ m.free,
      readNode (storeByte c.heap.mem addr byte) r.start = readNode c.heap.mem r.start := by
    intro r hr
    have hnode : 16 ≤ r.size := h.inv.parts.node_le r hr
    refine readNode_congr fun x h1 h2 => if_neg fun he => ?_
    exact h.inv.parts.disjoint_rest hr (List.mem_map_of_mem hb) ⟨h1, by omega⟩ (he ▸ hx)
  constructor
  · have hchain := h.represents.chain
    rw [nextOf_zero] at hchain ⊢
    refine hchain.congr fun a ha => ?_
    obtain ⟨r, hr, rfl⟩ := List.mem_map.mp ha
    have hne : r.start ≠ 0 := by
      have := (h.inv.parts.bounds hr).1
      have := R.start_pos
      omega
    rw [nextOf_of_ne hne, nextOf_of_ne hne, hkeep r hr]
  · intro r hr
    rw [hkeep r hr, h.represents.sizes r hr]

/-- A call of `alloc` returns null and changes nothing, or a block of the first region that
fits. -/
theorem alloc_cases (h : Refines R c m) (layout : Layout) :
    ((∀ r ∈ m.free, ¬Fits layout r) ∧ m.act (.alloc layout) = m ∧
        c.heap.alloc layout = some (0, c.heap)) ∨
      ∃ pre r post t, m.free = pre ++ r :: post ∧ (∀ x ∈ pre, ¬Fits layout x) ∧ Fits layout r ∧
        m.act (.alloc layout) =
          ⟨pre ++ remainder layout r ++ post, (startIn layout r, layout) :: m.live⟩ ∧
        c.heap.alloc layout = some (startIn layout r, t) ∧ startIn layout r ≠ 0 ∧
        Represents t (pre ++ remainder layout r ++ post) ∧
        Frame (m.live.map liveSpan) c.heap t := by
  rcases m.act_alloc_cases layout with ⟨hnone, heq⟩ | ⟨pre, r, post, hfree, hpre, hf, heq⟩
  · exact Or.inl ⟨hnone, heq, h.represents.alloc_none h.inv.parts R.stop_le h.initialized hnone⟩
  · have hparts := h.inv.parts
    have hrep := h.represents
    rw [hfree] at hparts hrep
    obtain ⟨t, ht, hrep', hframe⟩ :=
      hrep.alloc_some hparts R.start_pos R.stop_le h.initialized hpre hf
    refine Or.inr ⟨pre, r, post, t, hfree, hpre, hf, heq, ht, ?_, hrep', hframe⟩
    have hlo := (hparts.bounds (List.mem_append_right pre List.mem_cons_self)).1
    have hstart := (startIn_bounds layout r).1
    have := R.start_pos
    omega

/-- A permitted action returns, has the abstract effect, and unless it is a write it leaves every
byte of the blocks alone that stay live. -/
theorem act (h : Refines R c m) {a : Action} (hok : permitted c.live a) :
    ∃ c', c.act a = some c' ∧ Refines R c' (m.act a) ∧
      ((∀ addr byte, a ≠ .write addr byte) → ∀ b ∈ c.live, b ∈ c'.live → ∀ x, x ∈ liveSpan b →
        c'.heap.mem x = c.heap.mem x) := by
  have hinv : (m.act a).Inv R := h.inv.act (h.live_eq ▸ hok)
  cases a with
  | alloc layout =>
    rcases h.alloc_cases layout with ⟨-, heq, halloc⟩ |
      ⟨pre, r, post, t, -, -, -, heq, halloc, hne, hrep, hframe⟩
    · refine ⟨c, ?_, heq.symm ▸ h, fun _ _ _ _ _ _ => rfl⟩
      simp only [Machine.act, halloc, Option.map_some, Buddy.liveAfterAlloc, if_true]
    · refine ⟨⟨t, (startIn layout r, layout) :: c.live⟩, ?_, ?_, fun _ b hb _ x hx => ?_⟩
      · simp only [Machine.act, halloc, Option.map_some, Buddy.liveAfterAlloc, if_neg hne]
      · rw [heq] at hinv ⊢
        exact ⟨congrArg _ h.live_eq, hframe.initialized_eq.trans h.initialized, hrep, hinv⟩
      · exact hframe.bytes _ (List.mem_map_of_mem (h.live_eq ▸ hb)) x hx
  | dealloc ptr layout =>
    have hmem : (ptr, layout) ∈ m.live := h.live_eq ▸ hok
    have hperm := (List.perm_cons_erase hmem).map liveSpan
    obtain ⟨t, ht, hrep, hframe⟩ := h.represents.dealloc (h.inv.parts.perm hperm.symm) R.start_pos
      R.stop_le (h.inv.live_aligned _ hmem)
    refine ⟨⟨t, c.live.erase (ptr, layout)⟩, ?_, ?_, fun _ b _ hb x hx => ?_⟩
    · simp only [Machine.act, ht, Option.map_some]
    · refine ⟨?_, hframe.initialized_eq.trans h.initialized, hrep, hinv⟩
      rw [h.live_eq]
      rfl
    · exact hframe.bytes _ (List.mem_map_of_mem (h.live_eq ▸ hb)) x hx
  | write addr byte =>
    exact ⟨_, rfl, ⟨h.live_eq, h.initialized, h.write byte (h.live_eq ▸ hok), hinv⟩,
      fun hcall => absurd rfl (hcall addr byte)⟩

/-- Every step of the machine is a step of first fit. -/
theorem step (h : Refines R c m) {a : Action} (hstep : c.step a = some c') :
    Refines R c' (m.act a) := by
  obtain ⟨hok, hact⟩ := Machine.step_eq_some.mp hstep
  obtain ⟨d, hd, href, -⟩ := h.act hok
  obtain rfl := Option.some_inj.mp (hd.symm.trans hact)
  exact href

/-- Walking the free list through memory finds the abstract list. -/
theorem freeRegions (h : Refines R c m) : c.heap.freeRegions = some m.free :=
  h.represents.freeRegions h.inv.parts R.stop_le

end Refines

/-- Every run of the machine from `init` is a run of first fit. -/
theorem HeapRange.refines_run {R : HeapRange} {mem : ByteMemory} {c₀ c : Machine}
    {acts : List Action} (hboot : R.boot mem = some c₀) (hrun : c₀.run acts = some c) :
    ∃ m, Refines R c m := by
  obtain ⟨c₁, hboot', href⟩ := Refines.boot R mem
  obtain rfl : c₁ = c₀ := Option.some.inj (hboot'.symm.trans hboot)
  refine Transition.run_invariant (P := fun c => ∃ m, Refines R c m) ?_ ⟨_, href⟩ hrun
  rintro c a d ⟨m, href⟩ hstep
  exact ⟨_, href.step hstep⟩

end SillOS.Linked

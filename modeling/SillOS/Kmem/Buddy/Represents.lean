import Mathlib.Data.List.Perm.Subperm
import SillOS.Kmem.Buddy.ListedMachine

/-!
# Free lists in memory

Memory represents abstract free lists when following the links from each list
head visits exactly the listed blocks. Every operation of the allocator has the
effect of its abstract counterpart and leaves alone whatever is neither a free
block nor the block in hand.
-/

namespace SillOS.Buddy

open ByteMemory IntrusiveList Tiling

/-- The allocator's memory holds these free lists. -/
structure Represents (s : BuddyState) (A : ListedBuddy) : Prop where
  /-- Same heap start. -/
  heapStart_eq : s.heapStart = A.heapStart
  /-- Same largest order. -/
  maxOrder_eq : s.maxOrder = A.maxOrder
  /-- Every free list is a null-terminated chain of exactly the listed blocks. -/
  chains : ∀ k ∈ orders, Chain (load64 s.mem) (s.freeLists (indexFor k)) (A.lists k)

/-- A change of state that leaves the flag and every byte of these spans alone. -/
structure Frame (bs : List Span) (s t : BuddyState) : Prop where
  /-- The allocator does not forget that it is initialized. -/
  initialized_eq : t.initialized = s.initialized
  /-- No byte of the spans has changed. -/
  bytes : ∀ b ∈ bs, ∀ x, x ∈ b → t.mem x = s.mem x

/-- Doing nothing leaves the blocks. -/
theorem Frame.refl (bs : List Span) (s : BuddyState) : Frame bs s s :=
  ⟨rfl, fun _ _ _ _ => rfl⟩

/-- What is left twice is left. -/
theorem Frame.trans {bs : List Span} {s t u : BuddyState} (h : Frame bs s t)
    (h' : Frame bs t u) : Frame bs s u :=
  ⟨h'.initialized_eq.trans h.initialized_eq,
    fun b hb x hx => (h'.bytes b hb x hx).trans (h.bytes b hb x hx)⟩

/-- What leaves several blocks leaves all but one. -/
theorem Frame.of_cons {b : Span} {bs : List Span} {s t : BuddyState}
    (h : Frame (b :: bs) s t) : Frame bs s t :=
  ⟨h.initialized_eq, fun c hc => h.bytes c (List.mem_cons_of_mem _ hc)⟩

/-- Two orders have two list heads. -/
theorem indexFor_ne {j k : Nat} (hj : j ∈ orders) (hk : k ∈ orders) (h : j ≠ k) :
    indexFor j ≠ indexFor k := by
  have hj' := mem_orders.mp hj
  have hk' := mem_orders.mp hk
  unfold indexFor
  omega

/-- The node stored in a block of a supported order lies inside the block. -/
theorem word_mem {k a x : Nat} (hk : minOrder ≤ k) (hx : a ≤ x ∧ x < a + 8) :
    x ∈ blockSpan k a := by
  have hpow : 2 ^ minOrder ≤ 2 ^ k := Nat.pow_le_pow_right Nat.two_pos hk
  simp only [minOrder] at hpow
  simp only [blockSpan, Span.mem_iff]
  omega

/-- Words at two addresses without a common byte are apart. -/
theorem words_apart {a b : Nat} (h : ∀ x, a ≤ x ∧ x < a + 8 → ¬(b ≤ x ∧ x < b + 8)) :
    a + 8 ≤ b ∨ b + 8 ≤ a := by
  rcases Nat.le_total a b with hab | hab
  · have := h b
    omega
  · have := h a
    omega

namespace Parts

variable {A : ListedBuddy} {rest : List Span} {lo hi : Nat}

/-- A free node does not overlap the word of a block outside the lists. -/
theorem rest_apart {k a j b : Nat} (h : Parts A (blockSpan k a :: rest) lo hi) (hk : minOrder ≤ k)
    (hb : b ∈ A.lists j) : a + 8 ≤ b ∨ b + 8 ≤ a :=
  words_apart fun _ hxa hxb =>
    h.disjoint_rest hb List.mem_cons_self (word_mem (h.order_bounds hb).1 hxb) (word_mem hk hxa)

/-- Two different free nodes do not overlap. -/
theorem free_apart {j k a b : Nat} (h : Parts A rest lo hi) (ha : a ∈ A.lists j)
    (hb : b ∈ A.lists k) (hne : a ≠ b) : a + 8 ≤ b ∨ b + 8 ≤ a :=
  words_apart fun _ hxa hxb =>
    hne (h.block_unique ha hb (word_mem (h.order_bounds ha).1 hxa)
      (word_mem (h.order_bounds hb).1 hxb)).2

/-- A list has at most one block per address of the heap. -/
theorem length_le (h : Parts A rest lo hi) (k : Nat) : (A.lists k).length ≤ hi := by
  have hsub : A.lists k ⊆ List.range hi := by
    intro a ha
    have hb := h.block_bounds ha
    have hpos : 0 < 2 ^ k := Nat.two_pow_pos k
    exact List.mem_range.mpr (by omega)
  have hle := ((h.nodup k).subperm hsub).length_le
  rwa [List.length_range] at hle

end Parts

namespace Represents

variable {s : BuddyState} {A : ListedBuddy} {rest : List Span} {lo hi : Nat}

/-- List heads and links are valid pointers. -/
theorem head_lt (h : Represents s A) (hp : Parts A rest lo hi) (hhi : hi ≤ 2 ^ 63) {k : Nat}
    (hk : k ∈ orders) : s.freeLists (indexFor k) < 2 ^ 64 := by
  have hc := h.chains k hk
  cases hl : A.lists k with
  | nil =>
    rw [hl, chain_nil] at hc
    rw [hc]
    decide
  | cons a as =>
    rw [hl, chain_cons] at hc
    have hpos : 0 < 2 ^ k := Nat.two_pow_pos k
    have hb := hp.block_bounds (hl ▸ List.mem_cons_self : a ∈ A.lists k)
    rw [hc.1]
    omega

/-- Changing the head of one list, and memory without touching the other lists. -/
theorem update {k p : Nat} {as : List Nat} (h : Represents s A) (mem : ByteMemory)
    (hk : k ∈ orders) (hc : Chain (load64 mem) p as)
    (hother : ∀ j, j ≠ k → ∀ b ∈ A.lists j, load64 mem b = load64 s.mem b) :
    Represents { s with mem := mem, freeLists := Function.update s.freeLists (indexFor k) p }
      (A.withList k as) where
  heapStart_eq := h.heapStart_eq
  maxOrder_eq := h.maxOrder_eq
  chains j hj := by
    by_cases hjk : j = k
    · subst j
      rw [A.withList_lists_self]
      simpa only [Function.update_self] using hc
    · rw [A.withList_lists_of_ne hjk]
      simp only [Function.update_of_ne (indexFor_ne hj hk hjk)]
      exact (h.chains j hj).congr (hother j hjk)

/-- Pushing the block in hand. -/
theorem push {k a : Nat} (h : Represents s A) (hp : Parts A (blockSpan k a :: rest) lo hi)
    (hlo : 0 < lo) (hhi : hi ≤ 2 ^ 63) (hk : minOrder ≤ k ∧ k ≤ A.maxOrder) :
    Represents (s.pushFreeBlock a k) (A.push a k) ∧ Frame rest s (s.pushFreeBlock a k) := by
  have hmem : k ∈ orders := mem_orders.mpr ⟨hk.1, Nat.le_trans hk.2 hp.maxOrder_le⟩
  have hne : a ≠ 0 := by
    have hb := (hp.tiles.bounds (List.mem_append_right _ List.mem_cons_self)
      (Parts.start_mem k a)).1
    omega
  have hload : load64 (store64 s.mem a (s.freeLists (indexFor k))) a = s.freeLists (indexFor k) :=
    load64_store64 (h.head_lt hp hhi hmem)
  have hother : ∀ j, ∀ b ∈ A.lists j,
      load64 (store64 s.mem a (s.freeLists (indexFor k))) b = load64 s.mem b :=
    fun j b hb => load64_store64_of_disjoint (hp.rest_apart hk.1 hb)
  refine ⟨h.update _ hmem ((h.chains k hmem).push hne hload (hother k)) fun j _ => hother j,
    rfl, fun b hb x hx => store64_of_not_mem fun hxa => ?_⟩
  -- The written word is inside the block in hand, which is disjoint from the rest.
  have hdisjoint := (List.pairwise_append.mp hp.tiles.disjoint).2.1
  exact (List.pairwise_cons.mp hdisjoint).1 b hb x (word_mem hk.1 hxa) hx

/-- Popping the head of a nonempty list. -/
theorem pop {k a : Nat} {as : List Nat} (h : Represents s A) (rest : List Span) (hk : k ∈ orders)
    (hl : A.lists k = a :: as) :
    ∃ t, s.popFreeBlock k = (some a, t) ∧ Represents t (A.withList k as) ∧ Frame rest s t := by
  have hc := h.chains k hk
  rw [hl, chain_cons] at hc
  obtain ⟨hhead, hne, htail⟩ := hc
  refine ⟨_, ?_, h.update s.mem hk htail fun _ _ _ _ => rfl, rfl, fun _ _ _ _ => rfl⟩
  simp only [BuddyState.popFreeBlock, hhead, if_neg hne]

/-- Popping from an empty list. -/
theorem pop_nil {k : Nat} (h : Represents s A) (hk : k ∈ orders) (hl : A.lists k = []) :
    s.popFreeBlock k = (none, s) := by
  have hc := h.chains k hk
  rw [hl, chain_nil] at hc
  simp only [BuddyState.popFreeBlock, hc, if_true]

end Represents

/-! ## Unlinking through memory -/

/-- A target that is not on the list is not found. -/
theorem BuddyState.removeLoop_not_mem {s : BuddyState} {index target : Nat} {l : List Nat}
    (hl : target ∉ l) {fuel prev p : Nat} (h : Chain (load64 s.mem) p l)
    (hf : l.length < fuel) : s.removeLoop index target fuel prev p = some (false, s) := by
  induction l generalizing fuel prev p with
  | nil =>
    obtain ⟨fuel, rfl⟩ := Nat.exists_eq_succ_of_ne_zero (Nat.ne_of_gt hf)
    simp only [removeLoop, chain_nil.mp h, if_true]
  | cons a l ih =>
    obtain ⟨rfl, hne, ht⟩ := h
    obtain ⟨fuel, rfl⟩ := Nat.exists_eq_succ_of_ne_zero (Nat.ne_of_gt (Nat.zero_lt_of_lt hf))
    have hpt : p ≠ target := fun he => hl (he ▸ List.mem_cons_self)
    simp only [removeLoop, if_neg hne, if_neg hpt]
    exact ih (fun hm => hl (List.mem_cons_of_mem _ hm)) ht (by simpa using hf)

/-- A target behind other nodes is unlinked by redirecting its predecessor. -/
theorem BuddyState.removeLoop_inner {s : BuddyState} {index target : Nat} {pre post : List Nat}
    (hpre : target ∉ pre) {fuel prev p : Nat}
    (h : Chain (load64 s.mem) p (pre ++ target :: post)) (hprev : prev ≠ 0)
    (hf : pre.length < fuel) :
    s.removeLoop index target fuel prev p =
      some (true, { s with
        mem := store64 s.mem ((prev :: pre).getLast (by simp)) (load64 s.mem target) }) := by
  induction pre generalizing fuel prev p with
  | nil =>
    obtain ⟨fuel, rfl⟩ := Nat.exists_eq_succ_of_ne_zero (Nat.ne_of_gt hf)
    obtain ⟨rfl, hne, _⟩ := h
    simp only [removeLoop, if_neg hne, if_true, if_neg hprev, List.getLast_singleton]
  | cons a pre ih =>
    obtain ⟨fuel, rfl⟩ := Nat.exists_eq_succ_of_ne_zero (Nat.ne_of_gt (Nat.zero_lt_of_lt hf))
    obtain ⟨rfl, hne, ht⟩ := h
    have hpt : p ≠ target := fun he => hpre (he ▸ List.mem_cons_self)
    simp only [removeLoop, if_neg hne, if_neg hpt]
    rw [ih (fun hm => hpre (List.mem_cons_of_mem _ hm)) ht hne (by simpa using hf)]
    simp only [List.getLast_cons_cons]

/-- A target at the front of the list is unlinked by moving the list head. -/
theorem BuddyState.removeLoop_head {s : BuddyState} {index target fuel : Nat} (hf : 0 < fuel)
    (hne : target ≠ 0) :
    s.removeLoop index target fuel 0 target =
      some (true, { s with
        freeLists := Function.update s.freeLists index (load64 s.mem target) }) := by
  obtain ⟨fuel, rfl⟩ := Nat.exists_eq_succ_of_ne_zero (Nat.ne_of_gt hf)
  simp only [removeLoop, if_neg hne, if_true]

namespace Represents

variable {s : BuddyState} {A : ListedBuddy} {rest : List Span} {lo hi : Nat}

/-- The heap never has as many blocks as there are addresses. -/
theorem length_lt (hp : Parts A rest lo hi) (hhi : hi ≤ 2 ^ 63) (k : Nat) :
    (A.lists k).length < 2 ^ 64 := by
  have hle := hp.length_le k
  omega

/-- Removing a block that is not on its list changes nothing. -/
theorem remove_not_mem {k a : Nat} (h : Represents s A) (hp : Parts A rest lo hi)
    (hhi : hi ≤ 2 ^ 63) (hk : k ∈ orders) (ha : a ∉ A.lists k) :
    s.removeFreeBlock a k = some (false, s) :=
  BuddyState.removeLoop_not_mem ha (h.chains k hk) (length_lt hp hhi k)

/-- Unlinking an inner node in memory. -/
private theorem unlink {k a c : Nat} {pre post : List Nat} (h : Represents s A)
    (hp : Parts A rest lo hi) (hk : k ∈ orders) (hl : A.lists k = pre ++ c :: a :: post) :
    Represents { s with mem := store64 s.mem c (load64 s.mem a) }
        (A.withList k (pre ++ c :: post)) ∧
      Frame rest s { s with mem := store64 s.mem c (load64 s.mem a) } := by
  have hc : c ∈ A.lists k := by simp [hl]
  have hother : ∀ j, ∀ b ∈ A.lists j, c ≠ b →
      load64 (store64 s.mem c (load64 s.mem a)) b = load64 s.mem b :=
    fun j b hb hne => load64_store64_of_disjoint (hp.free_apart hc hb hne)
  constructor
  · have hchain : Chain (load64 (store64 s.mem c (load64 s.mem a))) (s.freeLists (indexFor k))
        (pre ++ c :: post) := by
      refine Chain.unlink (hl ▸ h.chains k hk) (load64_store64 (load64_lt _ _)) ?_
      intro b hb hbc
      exact hother k b (hl ▸ hb) (Ne.symm hbc)
    have hu := h.update _ hk hchain fun j hjk b hb => hother j b hb fun he =>
      hjk (hp.block_unique hb hc (Parts.start_mem j b) (he ▸ Parts.start_mem k c)).1
    simpa only [Function.update_eq_self] using hu
  · refine ⟨rfl, fun b hb x hx => store64_of_not_mem fun hxc => ?_⟩
    exact hp.disjoint_rest hc hb (word_mem (hp.order_bounds hc).1 hxc) hx

/-- Removing a block that is on its list. -/
theorem remove {k a : Nat} (h : Represents s A) (hp : Parts A rest lo hi) (hhi : hi ≤ 2 ^ 63)
    (ha : a ∈ A.lists k) :
    ∃ t, s.removeFreeBlock a k = some (true, t) ∧ Represents t (A.remove a k) ∧
      Frame rest s t := by
  have hk := hp.mem_orders ha
  have hlen := length_lt hp hhi k
  have hnodup := hp.nodup k
  have hchain := h.chains k hk
  obtain ⟨pre, post, hl⟩ := List.append_of_mem ha
  rw [hl] at hlen hnodup hchain
  simp only [List.length_append, List.length_cons] at hlen
  have hpre : a ∉ pre := fun hm => by
    have := (List.nodup_append.mp hnodup).2.2 a hm a List.mem_cons_self
    exact this rfl
  have herase : (A.lists k).erase a = pre ++ post := by
    rw [hl, List.erase_append_right _ hpre, List.erase_cons_head]
  rw [ListedBuddy.remove, herase, BuddyState.removeFreeBlock]
  cases pre with
  | nil =>
    obtain ⟨hhead, hne, htail⟩ := hchain
    rw [hhead, BuddyState.removeLoop_head (by decide) hne]
    exact ⟨_, rfl, h.update s.mem hk htail fun _ _ _ _ => rfl, rfl, fun _ _ _ _ => rfl⟩
  | cons b pre =>
    obtain ⟨hhead, hne, htail⟩ := hchain
    -- The first node is not the target, so the walk enters its inner phase there.
    have hba : b ≠ a := fun he => hpre (he ▸ List.mem_cons_self)
    have hstep : s.removeLoop (indexFor k) a (2 ^ 64) 0 (s.freeLists (indexFor k)) =
        s.removeLoop (indexFor k) a (2 ^ 64 - 1) b (load64 s.mem b) := by
      rw [hhead, show 2 ^ 64 = 2 ^ 64 - 1 + 1 from rfl]
      simp only [BuddyState.removeLoop, if_neg hne, if_neg hba, Nat.add_sub_cancel]
    rw [hstep, BuddyState.removeLoop_inner (fun hm => hpre (List.mem_cons_of_mem _ hm)) htail hne
      (by simp only [List.length_cons] at hlen; omega)]
    have hlast : b :: pre = (b :: pre).dropLast ++ [(b :: pre).getLast (by simp)] :=
      (List.dropLast_append_getLast (by simp)).symm
    generalize (b :: pre).getLast (by simp) = c at hlast ⊢
    generalize (b :: pre).dropLast = front at hlast
    rw [hlast, List.append_assoc, List.singleton_append] at hl ⊢
    obtain ⟨hrep, hunt⟩ := unlink h hp hk hl
    exact ⟨_, rfl, hrep, hunt⟩

end Represents

end SillOS.Buddy

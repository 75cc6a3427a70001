import SillOS.Kmem.Buddy.Listed

/-!
# The free blocks and the rest of the heap

An operation of the list-based allocator moves spans between the free lists and
the rest of the heap: the live blocks, the block in hand during a merge, and the
part that `init` has not seeded yet. Each operation keeps the two together a
tiling of the heap.
-/

namespace SillOS.Buddy

open Tiling

/-- The free blocks together with `rest` tile `[lo, hi)`, and only the orders of
this heap have free blocks. -/
structure Parts (A : ListedBuddy) (rest : List Span) (lo hi : Nat) : Prop where
  /-- The heap starts where the tiling does. -/
  start_eq : A.heapStart = lo
  /-- The heap's largest order is supported. -/
  maxOrder_le : A.maxOrder ≤ maxOrder
  /-- Only the orders of the heap have free blocks. -/
  nonempty : ∀ k, A.lists k ≠ [] → minOrder ≤ k ∧ k ≤ A.maxOrder
  /-- Free blocks and `rest` tile the range. -/
  tiles : Tiles (freeSpans A.lists ++ rest) lo hi

namespace Parts

variable {A : ListedBuddy} {rest : List Span} {lo hi : Nat}

/-- A listed block has one of the orders of the heap. -/
theorem order_bounds (h : Parts A rest lo hi) {k a : Nat} (ha : a ∈ A.lists k) :
    minOrder ≤ k ∧ k ≤ A.maxOrder := h.nonempty k (List.ne_nil_of_mem ha)

/-- So it has one that the allocator knows. -/
theorem mem_orders (h : Parts A rest lo hi) {k a : Nat} (ha : a ∈ A.lists k) : k ∈ orders :=
  Buddy.mem_orders.mpr
    ⟨(h.order_bounds ha).1, Nat.le_trans (h.order_bounds ha).2 h.maxOrder_le⟩

/-- A listed block is one of the spans of the tiling. -/
theorem mem_spans (h : Parts A rest lo hi) {k a : Nat} (ha : a ∈ A.lists k) :
    blockSpan k a ∈ freeSpans A.lists ++ rest := by
  have hk := Buddy.mem_orders.mp (h.mem_orders ha)
  exact List.mem_append_left _ (mem_freeSpans.mpr ⟨k, a, hk.1, hk.2, ha, rfl⟩)

/-- A block starts inside itself. -/
theorem start_mem (k a : Nat) : a ∈ blockSpan k a :=
  ⟨Nat.le_refl a, Nat.lt_add_of_pos_right (Nat.two_pow_pos k)⟩

/-- A listed block lies in the heap. -/
theorem block_bounds (h : Parts A rest lo hi) {k a : Nat} (ha : a ∈ A.lists k) :
    lo ≤ a ∧ a + 2 ^ k ≤ hi := by
  have hpos : 0 < 2 ^ k := Nat.two_pow_pos k
  have hfirst := h.tiles.bounds (h.mem_spans ha) (start_mem k a)
  have hlast := h.tiles.bounds (h.mem_spans ha) (x := a + 2 ^ k - 1)
    ⟨by simp only [blockSpan]; omega, by simp only [blockSpan]; omega⟩
  omega

/-- Listed blocks with a common address are the same block. -/
theorem block_unique (h : Parts A rest lo hi) {j k a b x : Nat} (ha : a ∈ A.lists j)
    (hb : b ∈ A.lists k) (hxa : x ∈ blockSpan j a) (hxb : x ∈ blockSpan k b) :
    j = k ∧ a = b := by
  have he := h.tiles.eq_of_mem (h.mem_spans ha) (h.mem_spans hb) hxa hxb
  simp only [blockSpan, Span.mk.injEq] at he
  exact ⟨Nat.pow_right_injective (Nat.le_refl 2) he.2, he.1⟩

private theorem count_mem {bs : List Span} {b : Span} (hb : b ∈ bs) {x : Nat} (hx : x ∈ b) :
    0 < cover bs x := cover_pos_iff.mpr ⟨b, hb, hx⟩

/-- A listed block shares no address with the rest. -/
theorem disjoint_rest (h : Parts A rest lo hi) {k a : Nat} (ha : a ∈ A.lists k) {b : Span}
    (hb : b ∈ rest) {x : Nat} (hxa : x ∈ blockSpan k a) : x ∉ b := by
  intro hxb
  have hfree : blockSpan k a ∈ freeSpans A.lists := by
    have hk := Buddy.mem_orders.mp (h.mem_orders ha)
    exact mem_freeSpans.mpr ⟨k, a, hk.1, hk.2, ha, rfl⟩
  have hcount := h.tiles x
  rw [cover_append] at hcount
  have h1 := count_mem hfree hxa
  have h2 := count_mem hb hxb
  split at hcount <;> omega

/-- The lists have no duplicates. -/
theorem nodup (h : Parts A rest lo hi) (k : Nat) : (A.lists k).Nodup := by
  by_cases hk : k ∈ orders
  · have hsub : ((A.lists k).map (blockSpan k)).Sublist (freeSpans A.lists) := by
      rw [freeSpans, List.flatMap_def]
      exact List.sublist_flatten_of_mem (List.mem_map_of_mem hk)
    have hpair := (h.tiles.disjoint.sublist (List.sublist_append_left _ _)).sublist hsub
    rw [List.pairwise_map] at hpair
    refine hpair.imp fun {a b} hd he => ?_
    exact hd a (start_mem k a) (he ▸ start_mem k a)
  · have hnil : A.lists k = [] := by
      by_contra hne
      exact hk (Buddy.mem_orders.mpr ⟨(h.nonempty k hne).1,
        Nat.le_trans (h.nonempty k hne).2 h.maxOrder_le⟩)
    rw [hnil]
    exact List.nodup_nil

/-- Only the counts of the rest matter. -/
theorem of_cover_eq (h : Parts A rest lo hi) {rest' : List Span}
    (hc : ∀ x, cover rest' x = cover rest x) : Parts A rest' lo hi where
  start_eq := h.start_eq
  maxOrder_le := h.maxOrder_le
  nonempty := h.nonempty
  tiles := h.tiles.of_cover_eq fun x => by rw [cover_append, cover_append, hc x]

/-- The order of the other parts does not matter. -/
theorem perm (h : Parts A rest lo hi) {rest' : List Span} (hp : rest'.Perm rest) :
    Parts A rest' lo hi := h.of_cover_eq (cover_perm hp)

/-- Cut a span of the rest in two. -/
theorem split {a n m : Nat} (h : Parts A (⟨a, n + m⟩ :: rest) lo hi) :
    Parts A (⟨a, n⟩ :: ⟨a + n, m⟩ :: rest) lo hi := h.of_cover_eq fun x => by
  have hs := cover_split a n m x
  simp only [cover_cons, cover_nil] at hs ⊢
  omega

/-- Join two adjacent spans of the rest. -/
theorem join {a n m : Nat} (h : Parts A (⟨a, n⟩ :: ⟨a + n, m⟩ :: rest) lo hi) :
    Parts A (⟨a, n + m⟩ :: rest) lo hi := h.of_cover_eq fun x => by
  have hs := cover_split a n m x
  simp only [cover_cons, cover_nil] at hs ⊢
  omega

/-- Exchange one list and the rest when the counts balance. -/
theorem withList {k : Nat} {as : List Nat} {rest' : List Span} (h : Parts A rest lo hi)
    (hk : minOrder ≤ k ∧ k ≤ A.maxOrder)
    (hc : ∀ x, cover (as.map (blockSpan k)) x + cover rest' x =
      cover ((A.lists k).map (blockSpan k)) x + cover rest x) :
    Parts (A.withList k as) rest' lo hi where
  start_eq := h.start_eq
  maxOrder_le := h.maxOrder_le
  nonempty j hj := by
    by_cases hjk : j = k
    · exact hjk ▸ hk
    · rw [A.withList_lists_of_ne hjk] at hj
      exact h.nonempty j hj
  tiles := h.tiles.of_cover_eq fun x => by
    have hmem : k ∈ orders := Buddy.mem_orders.mpr ⟨hk.1, Nat.le_trans hk.2 h.maxOrder_le⟩
    have hu := cover_freeSpans_update A.lists hmem as x
    have hx := hc x
    rw [cover_append, cover_append]
    simp only [ListedBuddy.withList]
    omega

/-- A block of the rest is pushed onto its list. -/
theorem push {k a : Nat} (h : Parts A (blockSpan k a :: rest) lo hi)
    (hk : minOrder ≤ k ∧ k ≤ A.maxOrder) : Parts (A.push a k) rest lo hi :=
  h.withList hk fun x => by
    rw [List.map_cons, cover_cons, cover_cons]
    omega

/-- The head of a list moves to the rest. -/
theorem pop {k a : Nat} {as : List Nat} (h : Parts A rest lo hi) (hl : A.lists k = a :: as) :
    Parts (A.withList k as) (blockSpan k a :: rest) lo hi :=
  h.withList (h.nonempty k (by simp [hl])) fun x => by
    rw [hl, List.map_cons, cover_cons, cover_cons]
    omega

/-- A listed block is removed from its list and moves to the rest. -/
theorem remove {k a : Nat} (h : Parts A rest lo hi) (ha : a ∈ A.lists k) :
    Parts (A.remove a k) (blockSpan k a :: rest) lo hi :=
  h.withList (h.order_bounds ha) fun x => by
    have hp := cover_perm ((List.perm_cons_erase ha).map (blockSpan k)) x
    rw [List.map_cons, cover_cons] at hp
    rw [cover_cons]
    omega

/-- Cut a block of the rest into its two halves, the upper one first. -/
theorem halve {k a : Nat} (h : Parts A (blockSpan (k + 1) a :: rest) lo hi) :
    Parts A (blockSpan k (a + 2 ^ k) :: blockSpan k a :: rest) lo hi := by
  have hsucc : blockSpan (k + 1) a = ⟨a, 2 ^ k + 2 ^ k⟩ := by
    rw [blockSpan, pow_succ, Nat.mul_two]
  exact (hsucc ▸ h).split.perm (List.Perm.swap _ _ _)

/-- A successful allocation moves a block of the requested order to the rest. -/
theorem allocateOrder {B : ListedBuddy} {k a : Nat} (h : Parts A rest lo hi) (hk : minOrder ≤ k)
    (ha : A.allocateOrder k = (some a, B)) :
    Parts B (blockSpan k a :: rest) lo hi ∧ B.maxOrder = A.maxOrder ∧ k ≤ A.maxOrder := by
  induction k using ListedBuddy.allocateOrder.induct A generalizing B with
  | case1 k hgt =>
    rw [ListedBuddy.allocateOrder, if_pos hgt] at ha
    cases ha
  | case2 k hle head as hl =>
    rw [ListedBuddy.allocateOrder, if_neg hle] at ha
    simp only [hl] at ha
    cases ha
    exact ⟨h.pop hl, rfl, by omega⟩
  | case3 k hle hl C hC ih =>
    rw [ListedBuddy.allocateOrder, if_neg hle] at ha
    simp [hl, hC] at ha
  | case4 k hle hl head C hC ih =>
    rw [ListedBuddy.allocateOrder, if_neg hle] at ha
    simp only [hl, hC] at ha
    cases ha
    obtain ⟨hparts, hmax, hlt⟩ := ih (by omega) hC
    exact ⟨hparts.halve.push ⟨hk, by omega⟩, hmax, by omega⟩

/-- A block and its buddy are adjacent. -/
theorem buddyOf_cases {k a : Nat} (h : Parts A rest lo hi) (hlo : lo ≤ a) :
    A.buddyOf a k = a + 2 ^ k ∨ lo + 2 ^ k ≤ a ∧ A.buddyOf a k = a - 2 ^ k := by
  unfold ListedBuddy.buddyOf
  rw [h.start_eq]
  rcases TwoPow.xor_cases (a - lo) k with ⟨_, he⟩ | ⟨_, hle, he⟩
  · exact Or.inl (by omega)
  · exact Or.inr (by omega)

/-- Two adjacent blocks of one order form a block of the next. -/
theorem join_adjacent {k a b : Nat} (hb : b = a + 2 ^ k ∨ 2 ^ k ≤ a ∧ b = a - 2 ^ k)
    (h : Parts A (blockSpan k a :: blockSpan k b :: rest) lo hi) :
    Parts A (blockSpan (k + 1) (min a b) :: rest) lo hi := by
  have hsucc (c : Nat) : blockSpan (k + 1) c = ⟨c, 2 ^ k + 2 ^ k⟩ := by
    rw [blockSpan, pow_succ, Nat.mul_two]
  rw [hsucc]
  rcases hb with rfl | ⟨hle, rfl⟩
  · rw [Nat.min_eq_left (Nat.le_add_right _ _)]
    exact h.join
  · rw [Nat.min_eq_right (Nat.sub_le _ _)]
    have ha : blockSpan k a = ⟨a - 2 ^ k + 2 ^ k, 2 ^ k⟩ := by
      rw [Nat.sub_add_cancel hle]
      rfl
    rw [ha] at h
    exact (h.perm (List.Perm.swap _ _ _)).join

/-- Taking the free buddy of the block in hand and joining the two. -/
theorem remove_buddy {k a : Nat} (h : Parts A (blockSpan k a :: rest) lo hi)
    (hmem : A.buddyOf a k ∈ A.lists k) :
    Parts (A.remove (A.buddyOf a k) k) (blockSpan (k + 1) (min a (A.buddyOf a k)) :: rest)
      lo hi := by
  have hlo : lo ≤ a := (h.tiles.bounds (List.mem_append_right _ List.mem_cons_self)
    (start_mem k a)).1
  have hadj : A.buddyOf a k = a + 2 ^ k ∨ 2 ^ k ≤ a ∧ A.buddyOf a k = a - 2 ^ k :=
    (h.buddyOf_cases hlo).imp_right fun hb => ⟨by omega, hb.2⟩
  exact ((h.remove hmem).perm (List.Perm.swap _ _ _)).join_adjacent hadj

/-- Merging turns the block in hand into a block whose buddy is not free. -/
theorem merge {B : ListedBuddy} {k a k' a' : Nat} (h : Parts A (blockSpan k a :: rest) lo hi)
    (hk : minOrder ≤ k ∧ k ≤ A.maxOrder) (hm : A.merge a k = (a', k', B)) :
    Parts B (blockSpan k' a' :: rest) lo hi ∧ B.maxOrder = A.maxOrder ∧
      (minOrder ≤ k' ∧ k' ≤ A.maxOrder) ∧
      (k' < A.maxOrder → B.buddyOf a' k' ∉ B.lists k') := by
  induction A, a, k using ListedBuddy.merge.induct with
  | case1 A a k hlt hmem ih =>
    rw [ListedBuddy.merge_of_mem hlt hmem] at hm
    exact ih (h.remove_buddy hmem) ⟨by omega, hlt⟩ hm
  | case2 A a k hlt hmem =>
    rw [ListedBuddy.merge_of_not_mem fun _ => hmem] at hm
    cases hm
    exact ⟨h, rfl, hk, fun _ => hmem⟩
  | case3 A a k hge =>
    rw [ListedBuddy.merge_of_not_mem fun hlt => absurd hlt hge] at hm
    cases hm
    exact ⟨h, rfl, hk, fun hlt => absurd hlt hge⟩

/-- Freeing a block of the rest adds it to the free blocks. -/
theorem dealloc {k p : Nat} {layout : Layout} (h : Parts A (blockSpan k p :: rest) lo hi)
    (horder : orderForSize (max layout.size layout.align) = some k) (hk : k ≤ A.maxOrder) :
    Parts (A.dealloc p layout) rest lo hi ∧ (A.dealloc p layout).maxOrder = A.maxOrder := by
  have hmin := (orderForSize_spec horder).1
  simp only [ListedBuddy.dealloc, horder]
  rcases hm : A.merge p k with ⟨a', k', B⟩
  obtain ⟨hparts, hmax, hk', _⟩ := h.merge ⟨hmin, hk⟩ hm
  exact ⟨hparts.push ⟨hk'.1, hmax ▸ hk'.2⟩, hmax⟩

end Parts

/-! ## Seeding -/

/-- The seeding order is the largest order, up to the given one, whose block fits
the remaining size and the alignment of the address. -/
theorem seedOrder_spec {addr remaining order : Nat} (horder : minOrder ≤ order)
    (hremaining : 64 ≤ remaining) (haddr : 64 ∣ addr) :
    (minOrder ≤ seedOrder addr remaining order ∧ seedOrder addr remaining order ≤ order) ∧
      2 ^ seedOrder addr remaining order ≤ remaining ∧
      2 ^ seedOrder addr remaining order ∣ addr ∧
      ∀ j, seedOrder addr remaining order < j → j ≤ order → 2 ^ j ≤ remaining → ¬2 ^ j ∣ addr := by
  induction order with
  | zero => exact absurd horder (by decide)
  | succ order ih =>
    by_cases hgt : order + 1 > minOrder
    · by_cases hfit : blockSize (order + 1) ≤ remaining ∧ addr % blockSize (order + 1) = 0
      · have he : seedOrder addr remaining (order + 1) = order + 1 := by
          simp only [seedOrder, if_pos hgt, if_pos hfit]
        rw [he]
        rw [blockSize_eq] at hfit
        exact ⟨⟨horder, Nat.le_refl _⟩, hfit.1, Nat.dvd_of_mod_eq_zero hfit.2,
          fun j h1 h2 => by omega⟩
      · have he : seedOrder addr remaining (order + 1) = seedOrder addr remaining order := by
          simp only [seedOrder, if_pos hgt, if_neg hfit]
        rw [he]
        obtain ⟨⟨h1, h2⟩, h3, h4, h5⟩ := ih (by omega)
        refine ⟨⟨h1, by omega⟩, h3, h4, fun j hj hjle hsize hdvd => ?_⟩
        rcases Nat.eq_or_lt_of_le hjle with rfl | hlt
        · rw [blockSize_eq] at hfit
          exact hfit ⟨hsize, Nat.mod_eq_zero_of_dvd hdvd⟩
        · exact h5 j hj (by omega) hsize hdvd
    · have he : seedOrder addr remaining (order + 1) = minOrder := by
        simp only [seedOrder, if_neg hgt]
        omega
      rw [he]
      exact ⟨⟨Nat.le_refl _, horder⟩, hremaining, haddr, fun j h1 h2 => by omega⟩

private theorem largestOrderLoop_spec {size order : Nat} (hle : order ≤ maxOrder)
    (hsize : 2 ^ order ≤ size) :
    order ≤ largestOrderLoop size order ∧ largestOrderLoop size order ≤ maxOrder ∧
      2 ^ largestOrderLoop size order ≤ size ∧
      (largestOrderLoop size order < maxOrder → size < 2 ^ (largestOrderLoop size order + 1)) := by
  induction order using largestOrderLoop.induct size with
  | case1 order hlt ih =>
    rw [largestOrderLoop, if_pos hlt]
    obtain ⟨h1, h2⟩ := ih (by omega) (by simpa only [blockSize_eq] using hlt.2)
    exact ⟨by omega, h2⟩
  | case2 order hge =>
    rw [largestOrderLoop, if_neg hge]
    refine ⟨Nat.le_refl _, hle, hsize, fun hlt => ?_⟩
    simp only [blockSize_eq, not_and, Nat.not_le] at hge
    exact hge hlt

/-- The largest order of a heap: its block fits, and the next one does not unless
it is unsupported. -/
theorem largestOrderFor_spec {size : Nat} (hsize : 64 ≤ size) :
    minOrder ≤ largestOrderFor size ∧ largestOrderFor size ≤ maxOrder ∧
      2 ^ largestOrderFor size ≤ size ∧
      (largestOrderFor size < maxOrder → size < 2 ^ (largestOrderFor size + 1)) :=
  largestOrderLoop_spec (by decide) hsize

/-- The largest order of a heap range, as `init` stores it. -/
def HeapRange.maxOrder (R : HeapRange) : Nat := min (largestOrderFor R.size) Buddy.maxOrder

/-- The free lists right after `init`. -/
def HeapRange.seeded (R : HeapRange) : ListedBuddy :=
  ListedBuddy.seed ⟨R.start, R.maxOrder, fun _ => []⟩ R.start R.size

/-- The largest order of a heap is one of the allocator. -/
theorem HeapRange.maxOrder_bounds (R : HeapRange) :
    minOrder ≤ R.maxOrder ∧ R.maxOrder ≤ Buddy.maxOrder := by
  have h := largestOrderFor_spec R.size_ge
  exact ⟨Nat.le_min.mpr ⟨h.1, by decide⟩, Nat.min_le_right _ _⟩

/-- Each pass of the seeding loop pushes one block. -/
theorem ListedBuddy.seed_step {A : ListedBuddy} {addr remaining : Nat}
    (hmax : minOrder ≤ A.maxOrder) (hremaining : 64 ≤ remaining) (haddr : 64 ∣ addr) :
    A.seed addr remaining =
      (A.push addr (seedOrder addr remaining A.maxOrder)).seed
        (addr + 2 ^ seedOrder addr remaining A.maxOrder)
        (remaining - 2 ^ seedOrder addr remaining A.maxOrder) := by
  obtain ⟨_, hsize, hdvd, _⟩ := seedOrder_spec hmax hremaining haddr
  have hguard : ¬(2 ^ seedOrder addr remaining A.maxOrder > remaining ∨
      addr % 2 ^ seedOrder addr remaining A.maxOrder ≠ 0) := by
    rintro (hgt | hne)
    · omega
    · exact hne (Nat.mod_eq_zero_of_dvd hdvd)
  rw [seed, if_pos hremaining, if_neg hguard]

/-- A remainder below the minimum block size is left alone. -/
theorem ListedBuddy.seed_done {A : ListedBuddy} {addr remaining : Nat} (h : remaining < 64) :
    A.seed addr remaining = A := by
  rw [seed, if_neg (by omega)]

/-- Blocks are multiples of the smallest one. -/
theorem dvd_two_pow_of_minOrder {k : Nat} (h : minOrder ≤ k) : 64 ∣ 2 ^ k :=
  Nat.pow_dvd_pow 2 h

/-- One pass of the seeding loop cuts a block off the front of the remainder. -/
theorem Parts.cut_seed {A : ListedBuddy} {addr remaining k lo hi : Nat}
    (h : Parts A [⟨addr, 64 * (remaining / 64)⟩] lo hi) (hk : minOrder ≤ k)
    (hsize : 2 ^ k ≤ remaining) (haddr : 64 ∣ addr) :
    Parts A [blockSpan k addr, ⟨addr + 2 ^ k, 64 * ((remaining - 2 ^ k) / 64)⟩] lo hi ∧
      64 ∣ addr + 2 ^ k := by
  have hdvd := dvd_two_pow_of_minOrder hk
  refine ⟨?_, Nat.dvd_add haddr hdvd⟩
  obtain ⟨q, hq⟩ := hdvd
  have hcut : 64 * (remaining / 64) = 2 ^ k + 64 * ((remaining - 2 ^ k) / 64) := by omega
  rw [hcut] at h
  exact h.split

/-- Seeding cuts the blocks off the front of what is left of the heap. -/
theorem Parts.seed {A : ListedBuddy} {addr remaining lo hi : Nat}
    (h : Parts A [⟨addr, 64 * (remaining / 64)⟩] lo hi) (hmax : minOrder ≤ A.maxOrder)
    (haddr : 64 ∣ addr) :
    Parts (A.seed addr remaining) [] lo hi ∧ (A.seed addr remaining).maxOrder = A.maxOrder := by
  induction remaining using Nat.strong_induction_on generalizing A addr with
  | _ remaining ih =>
    by_cases hremaining : 64 ≤ remaining
    · rw [A.seed_step hmax hremaining haddr]
      obtain ⟨hk, hsize, _, _⟩ := seedOrder_spec hmax hremaining haddr
      generalize seedOrder addr remaining A.maxOrder = k at hk hsize ⊢
      have hpos : 0 < 2 ^ k := Nat.two_pow_pos k
      obtain ⟨hcut, hdvd⟩ := h.cut_seed hk.1 hsize haddr
      exact ih _ (by omega) (hcut.push hk) hmax hdvd
    · rw [ListedBuddy.seed_done (by omega)]
      refine ⟨h.of_cover_eq fun x => ?_, rfl⟩
      rw [cover_cons, if_neg, cover_nil]
      simp only [Span.mem_iff]
      omega

/-- Before seeding, the whole minimum blocks of the range are not free yet. -/
theorem HeapRange.empty_parts (R : HeapRange) :
    Parts ⟨R.start, R.maxOrder, fun _ => []⟩ [⟨R.start, 64 * (R.size / 64)⟩] R.start R.stop := by
  refine ⟨rfl, R.maxOrder_bounds.2, fun k hk => absurd rfl hk, fun x => ?_⟩
  have hfree : freeSpans (fun _ => []) = [] := by simp [freeSpans]
  rw [hfree, List.nil_append, cover_cons, cover_nil]
  rfl

/-- After `init` the free blocks tile the whole minimum blocks of the range. -/
theorem HeapRange.seeded_parts (R : HeapRange) :
    Parts R.seeded [] R.start R.stop ∧ R.seeded.maxOrder = R.maxOrder :=
  R.empty_parts.seed R.maxOrder_bounds.1 (Nat.dvd_of_mod_eq_zero R.aligned)

end SillOS.Buddy

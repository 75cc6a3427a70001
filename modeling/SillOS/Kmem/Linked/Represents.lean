import SillOS.Core.TwoPow
import SillOS.Kmem.Linked.Regions

/-!
# The free list in memory

Memory represents a list of free regions when following the links from the head
visits exactly their starts and every node holds the size of its region. Every
call of the allocator has the effect of first fit on that list, and leaves alone
whatever is neither free nor the block in hand.
-/

namespace SillOS.Linked

open ByteMemory IntrusiveList Tiling

/-- The allocator's memory holds this free list. -/
structure Represents (s : ListState) (free : List Span) : Prop where
  /-- The list is a null-terminated chain of exactly these regions. -/
  chain : Chain s.nextOf (s.nextOf 0) (free.map Span.start)
  /-- Every node holds the size of its region. -/
  sizes : ∀ r ∈ free, (readNode s.mem r.start).size = r.size

/-- A change of state that leaves the flag and every byte of these spans alone. -/
structure Frame (bs : List Span) (s t : ListState) : Prop where
  /-- The allocator does not forget that it is initialized. -/
  initialized_eq : t.initialized = s.initialized
  /-- No byte of the spans has changed. -/
  bytes : ∀ b ∈ bs, ∀ x, x ∈ b → t.mem x = s.mem x

/-! ## Nodes -/

section Nodes

variable {s : ListState} {m m' : ByteMemory} {a b c : Nat} {node : ListNode}

/-- A node is read from its own bytes. -/
theorem readNode_congr (h : ∀ x, a ≤ x → x < a + 16 → m' x = m x) :
    readNode m' a = readNode m a := by
  have hsize : load64 m' a = load64 m a := loadLE_congr fun x h1 h2 => h x h1 (by omega)
  have hnext : load64 m' (a + 8) = load64 m (a + 8) :=
    loadLE_congr fun x h1 h2 => h x (by omega) (by omega)
  rw [readNode, readNode, hsize, hnext]

private theorem readNode_size_congr (h : ∀ x, a ≤ x → x < a + 8 → m' x = m x) :
    (readNode m' a).size = (readNode m a).size := loadLE_congr h

/-- A node reads back as it was written. -/
theorem readNode_writeNode (hsize : node.size < 2 ^ 64) (hnext : node.next < 2 ^ 64) :
    readNode (writeNode m a node) a = node := by
  rw [readNode, writeNode, load64_store64 hnext,
    load64_store64_of_disjoint (Or.inr (Nat.le_refl _)), load64_store64 hsize]

/-- A node leaves the bytes around it. -/
theorem writeNode_of_not_mem {x : Nat} (hx : ¬(a ≤ x ∧ x < a + 16)) :
    writeNode m a node x = m x := by
  rw [writeNode, store64_of_not_mem (by omega), store64_of_not_mem (by omega)]

/-- The list starts at the head. -/
theorem nextOf_zero (s : ListState) : s.nextOf 0 = s.head.next := if_pos rfl

/-- The next node is stored in a node. -/
theorem nextOf_of_ne (h : a ≠ 0) : s.nextOf a = (readNode s.mem a).next := if_neg h

/-- A stored link is a word. -/
theorem nextOf_lt (h : a ≠ 0) : s.nextOf a < 2 ^ 64 := by
  rw [nextOf_of_ne h]
  exact load64_lt _ _

/-- A link that is set is read back. -/
theorem setNext_nextOf_self (h : b < 2 ^ 64) : (s.setNext a b).nextOf a = b := by
  by_cases ha : a = 0
  · simp only [ListState.nextOf, ListState.setNext, if_pos ha]
  · simp only [ListState.nextOf, ListState.setNext, if_neg ha]
    exact load64_store64 h

/-- It changes its own word only. -/
theorem setNext_mem {x : Nat} (h : a = 0 ∨ ¬(a + 8 ≤ x ∧ x < a + 16)) :
    (s.setNext a b).mem x = s.mem x := by
  by_cases ha : a = 0
  · rw [ListState.setNext, if_pos ha]
  · rw [ListState.setNext, if_neg ha]
    exact store64_of_not_mem (by omega)

/-- A link in memory leaves the head. -/
theorem setNext_head (h : a ≠ 0) : (s.setNext a b).head = s.head := by
  rw [ListState.setNext, if_neg h]

/-- No link changes the flag. -/
theorem setNext_initialized : (s.setNext a b).initialized = s.initialized := by
  unfold ListState.setNext
  split <;> rfl

end Nodes

/-! ## Replacing a region -/

/-- The start of the last of these regions, or the node in front of the list. -/
def lastStart (pre : List Span) : Nat :=
  (0 :: pre.map Span.start).getLast (List.cons_ne_nil 0 (pre.map Span.start))

/-- The node before the rest of a list is the head or one of the list. -/
theorem lastStart_cases (pre : List Span) :
    lastStart pre = 0 ∨ ∃ c ∈ pre, c.start = lastStart pre := by
  have hmem : lastStart pre ∈ 0 :: pre.map Span.start := List.getLast_mem _
  rcases List.mem_cons.mp hmem with h | h
  · exact Or.inl h
  · exact Or.inr (List.mem_map.mp h)

namespace Represents

variable {s t : ListState} {free rest mid pre post : List Span} {r b : Span} {lo hi : Nat}

/-- A free list is shorter than the address space. -/
theorem length_lt (hp : Parts free rest lo hi) (hhi : hi ≤ 2 ^ 63) :
    (free.map Span.start).length < 2 ^ 64 := by
  have hle := hp.length_le
  rw [List.length_map]
  omega

/-- Walking the list through memory finds the regions. -/
theorem freeRegions (h : Represents s free) (hp : Parts free rest lo hi) (hhi : hi ≤ 2 ^ 63) :
    s.freeRegions = some free := by
  have hsame : ∀ r ∈ free, (⟨r.start, (readNode s.mem r.start).size⟩ : Span) = r :=
    fun r hr => by rw [h.sizes r hr]
  rw [ListState.freeRegions, h.chain.walk_eq (Nat.le_of_lt (length_lt hp hhi)), Option.map_some,
    List.map_map]
  exact congrArg some ((List.map_congr_left hsame).trans (List.map_id free))

/-- The regions behind a region follow its link. -/
theorem chain_behind (h : Represents s (pre ++ r :: post)) :
    Chain s.nextOf (s.nextOf r.start) (post.map Span.start) := by
  have hchain := h.chain
  rw [List.map_append, List.map_cons] at hchain
  obtain ⟨q, rfl, -, hq⟩ := hchain.suffix
  exact hq

/-- A step that writes inside one region and redirects the link that leads to it. -/
structure Redirects (pre : List Span) (r : Span) (s t : ListState) : Prop where
  /-- Only the region and the link of its predecessor are written. -/
  mem_eq : ∀ x, x ∉ r →
    lastStart pre = 0 ∨ ¬(lastStart pre + 8 ≤ x ∧ x < lastStart pre + 16) → t.mem x = s.mem x
  /-- The head changes only if it leads to the region. -/
  head_eq : lastStart pre ≠ 0 → t.head = s.head

private theorem mem_around (hb : b ∈ pre ++ post) : b ∈ pre ++ r :: post :=
  List.perm_middle.mem_iff.mpr (List.mem_cons_of_mem r hb)

/-- The nodes outside the region and its predecessor are as before. -/
private theorem Redirects.node_eq (h : Redirects pre r s t)
    (hp : Parts (pre ++ r :: post) rest lo hi) (hb : b ∈ pre ++ post)
    (hne : b.start ≠ lastStart pre) : readNode t.mem b.start = readNode s.mem b.start := by
  have hpair := hp.free_pairwise.perm List.perm_middle Span.Disjoint.symm
  obtain ⟨hr, hothers⟩ := List.pairwise_cons.mp hpair
  have hnode : 16 ≤ b.size := hp.node_le b (mem_around hb)
  refine readNode_congr fun x hlo hhi => h.mem_eq x (fun hxr => ?_) ?_
  · exact hr b hb x hxr ⟨hlo, by omega⟩
  · rcases lastStart_cases pre with hzero | ⟨c, hc, hlast⟩
    · exact Or.inl hzero
    · refine Or.inr fun hx => ?_
      have hc' : c ∈ pre ++ post := List.mem_append_left post hc
      have hcb : c ≠ b := fun he => hne (he ▸ hlast)
      have hcnode : 16 ≤ c.size := hp.node_le c (mem_around hc')
      exact disjoint_of_mem hothers hc' hb hcb x ⟨by omega, by omega⟩ ⟨hlo, by omega⟩

private theorem Redirects.size_eq (h : Redirects pre r s t)
    (hp : Parts (pre ++ r :: post) rest lo hi) (hb : b ∈ pre ++ post) :
    (readNode t.mem b.start).size = (readNode s.mem b.start).size := by
  by_cases hne : b.start = lastStart pre
  · have hpair := hp.free_pairwise.perm List.perm_middle Span.Disjoint.symm
    have hnode : 16 ≤ b.size := hp.node_le b (mem_around hb)
    refine readNode_size_congr fun x hlo hhi => h.mem_eq x (fun hxr => ?_) (Or.inr (by omega))
    exact (List.pairwise_cons.mp hpair).1 b hb x hxr ⟨hlo, by omega⟩
  · rw [h.node_eq hp hb hne]

/-- The links behind them are as before. -/
private theorem Redirects.nextOf_eq (h : Redirects pre r s t)
    (hp : Parts (pre ++ r :: post) rest lo hi) (hlo : 0 < lo) (hb : b ∈ pre ++ post)
    (hne : b.start ≠ lastStart pre) : t.nextOf b.start = s.nextOf b.start := by
  have hb0 : b.start ≠ 0 := by
    have := (hp.bounds (mem_around hb)).1
    omega
  rw [nextOf_of_ne hb0, nextOf_of_ne hb0, h.node_eq hp hb hne]

/-- No region behind another one is its predecessor. -/
private theorem start_ne_lastStart (hp : Parts (pre ++ r :: post) rest lo hi) (hlo : 0 < lo)
    (hb : b ∈ post) : b.start ≠ lastStart pre := by
  intro he
  have hmem : b ∈ r :: post := List.mem_cons_of_mem r hb
  rcases lastStart_cases pre with hzero | ⟨c, hc, hlast⟩
  · have := (hp.bounds (List.mem_append_right pre hmem)).1
    omega
  · have hnodup := hp.starts_nodup
    rw [List.map_append] at hnodup
    exact (List.nodup_append.mp hnodup).2.2 c.start (List.mem_map_of_mem hc) b.start
      (List.mem_map_of_mem hmem) (hlast.trans he.symm)

/-- Other regions take the place of one region: the link that led to it leads to them, and from
the last of them on to what followed it. -/
theorem replace (h : Represents s (pre ++ r :: post)) (hp : Parts (pre ++ r :: post) rest lo hi)
    (hlo : 0 < lo) (hred : Redirects pre r s t)
    (hmid : ∀ tail, Chain t.nextOf (s.nextOf r.start) tail →
      Chain t.nextOf (t.nextOf (lastStart pre)) (mid.map Span.start ++ tail))
    (hsizes : ∀ b ∈ mid, (readNode t.mem b.start).size = b.size) :
    Represents t (pre ++ mid ++ post) := by
  constructor
  · have hpost : Chain t.nextOf (s.nextOf r.start) (post.map Span.start) := by
      refine h.chain_behind.congr fun a ha => ?_
      obtain ⟨b, hb, rfl⟩ := List.mem_map.mp ha
      exact hred.nextOf_eq hp hlo (List.mem_append_right pre hb) (start_ne_lastStart hp hlo hb)
    have hchain := h.chain
    rw [List.map_append] at hchain
    rw [List.append_assoc, List.map_append, List.map_append]
    refine Chain.redirect ?_ hchain (fun c hc hne => ?_) (hmid _ hpost)
    · have hnodup := hp.starts_nodup
      rw [List.map_append] at hnodup
      refine List.nodup_cons.mpr ⟨fun hzero => ?_, (List.nodup_append.mp hnodup).1⟩
      obtain ⟨b, hb, hb0⟩ := List.mem_map.mp hzero
      have := (hp.bounds (List.mem_append_left (r :: post) hb)).1
      omega
    · rcases List.mem_cons.mp hc with rfl | hc
      · rw [nextOf_zero, nextOf_zero, hred.head_eq (Ne.symm hne)]
      · obtain ⟨b, hb, rfl⟩ := List.mem_map.mp hc
        exact hred.nextOf_eq hp hlo (List.mem_append_left post hb) hne
  · intro b hb
    rw [List.append_assoc, List.mem_append, List.mem_append] at hb
    have hold : b ∈ pre ++ post → (readNode t.mem b.start).size = b.size := fun hb => by
      rw [hred.size_eq hp hb]
      exact h.sizes b (mem_around hb)
    rcases hb with hb | hb | hb
    · exact hold (List.mem_append_left post hb)
    · exact hsizes b hb
    · exact hold (List.mem_append_right pre hb)

/-- What is neither the region nor another free region is not written. -/
theorem Redirects.frame (h : Redirects pre r s t) (hinit : t.initialized = s.initialized)
    (hp : Parts (pre ++ r :: post) rest lo hi) : Frame rest s t where
  initialized_eq := hinit
  bytes b hb x hx := by
    refine h.mem_eq x (fun hxr => ?_) ?_
    · exact hp.disjoint_rest (List.mem_append_right pre List.mem_cons_self) hb hxr hx
    · rcases lastStart_cases pre with hzero | ⟨c, hc, hlast⟩
      · exact Or.inl hzero
      · have hc' : c ∈ pre ++ r :: post := List.mem_append_left _ hc
        have hnode : 16 ≤ c.size := hp.node_le c hc'
        exact Or.inr fun hxc => hp.disjoint_rest hc' hb ⟨by omega, by omega⟩ hx

end Represents

end SillOS.Linked

import SillOS.Kmem.Buddy.Safety
import SillOS.Kmem.Frame.Usable

/-!
# Backing the kernel heap

The kernel maps every page of its heap to a fresh frame and then hands the range to
the buddy allocator. The mapper draws further frames for its page tables from the
same frame allocator while the loop runs. Next to the mapper and the allocators the
state keeps what has been mapped and which frames have become page tables.
-/

namespace SillOS.Kmem

open Buddy SillOS.Frame SillOS.Frame.BootInfoFrameAllocator Generator Tiling

/-- Why mapping a page fails. -/
inductive MapToError where
  | FrameAllocationFailed
  | ParentEntryHugePage
  | PageAlreadyMapped (frame : UInt64)
  deriving DecidableEq

/-- What the kernel uses of the paging library. Pages are given by their first address,
and `σ` is the state of the mapper. -/
structure Paging (σ : Type) where
  /-- `VirtAddr::new`, which panics on addresses that are not canonical. -/
  virtAddrNew : Nat → Option Nat
  /-- `Page::containing_address`. -/
  containingAddress : Nat → Nat
  /-- `Page::range_inclusive`. -/
  rangeInclusive : Nat → Nat → List Nat
  /-- `PageTableFlags::PRESENT`. -/
  present : UInt64
  /-- `PageTableFlags::WRITABLE`. -/
  writable : UInt64
  /-- `Mapper::map_to`, which may draw frames for page tables. -/
  mapTo : σ → Nat → UInt64 → UInt64 → Client UInt64 (σ × Except MapToError Unit)
  /-- The frame that a page is mapped to. -/
  translatePage : σ → Nat → Option UInt64

/-- The documented behaviour of the paging library: addresses of the lower half are
canonical, the page containing an address is aligned and contains it, an inclusive range
counts up page by page, and a page that is mapped successfully is mapped to the given
frame while the other pages stay as they were. -/
structure Paging.Documented {σ : Type} (X : Paging σ) : Prop where
  virtAddrNew_eq : ∀ a < 2 ^ 47, X.virtAddrNew a = some a
  page_dvd : ∀ a, 4096 ∣ X.containingAddress a
  page_le : ∀ a, X.containingAddress a ≤ a
  lt_page : ∀ a, a < X.containingAddress a + 4096
  rangeInclusive_eq : ∀ first last, 4096 ∣ first → 4096 ∣ last →
    X.rangeInclusive first last = framesBetween first (last + 4096)
  mapTo_ok : ∀ s page frame flags t, (X.mapTo s page frame flags).Ends (t, .ok ()) →
    X.translatePage t page = some frame ∧
      ∀ other, other ≠ page → X.translatePage t other = X.translatePage s other

/-- The mapper and the frame allocator while the heap is mapped. -/
structure Mapping (σ : Type) where
  mapper : σ
  frameAllocator : BootInfoFrameAllocator
  /-- The pages mapped so far, each with its frame. -/
  mapped : List (Nat × UInt64)
  /-- The frames that the mapper has drawn. -/
  tables : List UInt64

section InitHeap

variable {σ : Type} (X : Paging σ) (P : Platform)

/-- Map one page to a new frame; `none` is a panic. -/
def mapPage (m : Mapping σ) (page : Nat) : Option (Mapping σ × Except MapToError Unit) :=
  (allocateFrame P m.frameAllocator).bind fun (frame, frameAllocator) =>
    match frame with
    | none =>
      some ({ m with frameAllocator := frameAllocator }, .error .FrameAllocationFailed)
    | some frame =>
      let flags := X.present ||| X.writable
      ((X.mapTo m.mapper page frame flags).run (allocateFrame P) frameAllocator).map
        fun ((mapper, result), drawn, frameAllocator) =>
          let mapped := match result with
            | .ok () => m.mapped ++ [(page, frame)]
            | .error _ => m.mapped
          (⟨mapper, frameAllocator, mapped, m.tables ++ drawn⟩, result)

/-- Map the pages in order, up to the first error. -/
def mapPages (m : Mapping σ) : List Nat → Option (Mapping σ × Except MapToError Unit)
  | [] => some (m, .ok ())
  | page :: pages =>
    (mapPage X P m page).bind fun (m, result) =>
      match result with
      | .ok () => mapPages m pages
      | .error e => some (m, .error e)

/-- Initialize the kernel heap. -/
def initHeap (m : Mapping σ) (allocator : BuddyState) :
    Option (Mapping σ × BuddyState × Except MapToError Unit) := do
  let start ← X.virtAddrNew heapStart
  let past ← X.virtAddrNew (start + heapSize)
  let last ← X.virtAddrNew (past - 1)
  let startPage := X.containingAddress start
  let endPage := X.containingAddress last
  let (m, result) ← mapPages X P m (X.rangeInclusive startPage endPage)
  match result with
  | .ok () => do
    let allocator ← allocator.init heapStart heapSize
    return (m, allocator, .ok ())
  | .error e => return (m, allocator, .error e)

end InitHeap

/-! ## Mapping pages -/

section Backing

variable {σ : Type} {X : Paging σ} {P : Platform} {map : List Entry} {start : List Nat}
  {m : Mapping σ}

/-- The frames behind mapped pages and page tables. -/
def Mapping.frames (m : Mapping σ) : List UInt64 := m.mapped.map Prod.snd ++ m.tables

/-- Mapped pages translate to their frames, and the frames in use together with those
still pending are those that were pending at the start. -/
structure Backed (X : Paging σ) (P : Platform) (map : List Entry) (start : List Nat)
    (m : Mapping σ) : Prop where
  at_map : At map m.frameAllocator
  perm : (m.frames.map UInt64.toNat ++ pending P m.frameAllocator).Perm start
  translates : ∀ p ∈ m.mapped, X.translatePage m.mapper p.1 = some p.2

/-- Usable entries end within the physical addresses. -/
def Bounded (P : Platform) (map : List Entry) : Prop :=
  ∀ e ∈ map, e.type_ = P.memmapUsable → e.base.toNat + e.length.toNat ≤ 2 ^ 52

/-- One more page and the page tables drawn for it. -/
theorem Backed.mapPage (hX : X.Documented) (hP : P.Documented) (hbound : Bounded P map)
    (h : Backed X P map start m) {page : Nat} (hpage : page ∉ m.mapped.map Prod.fst) :
    ∃ m' result, mapPage X P m page = some (m', result) ∧ (result = .ok () →
      Backed X P map start m' ∧ m'.mapped.map Prod.fst = m.mapped.map Prod.fst ++ [page]) := by
  obtain ⟨r, fa, hcall, hat, hhead, htail⟩ := allocateFrame_spec hP hbound h.at_map
  unfold Kmem.mapPage
  rw [hcall, Option.bind_some]
  cases r with
  | none =>
    refine ⟨_, _, rfl, fun hok => ?_⟩
    cases hok
  | some frame =>
    obtain ⟨⟨mapper, result⟩, drawn, fa', hrun, hat', hends, hpending⟩ :=
      Client.run_of_pending (fun s hs => allocateFrame_spec hP hbound hs)
        (X.mapTo m.mapper page frame (X.present ||| X.writable)) hat
    dsimp only
    rw [hrun, Option.map_some]
    refine ⟨_, _, rfl, ?_⟩
    rintro rfl
    obtain ⟨hnew, hold⟩ := hX.mapTo_ok _ _ _ _ _ hends
    have hfirst : pending P m.frameAllocator = frame.toNat :: pending P fa := by
      rw [Option.map_some, eq_comm, List.head?_eq_some_iff] at hhead
      obtain ⟨rest, hrest⟩ := hhead
      rw [htail, hrest, List.tail_cons]
    refine ⟨⟨hat', ?_, ?_⟩, by simp⟩
    · refine List.Perm.trans ?_ h.perm
      rw [hfirst, hpending]
      simp only [Mapping.frames, List.map_append, List.map_cons, List.map_nil, List.append_assoc,
        List.cons_append, List.nil_append]
      exact List.perm_middle.symm.append_left _
    · intro p hp
      obtain hp | hp := List.mem_append.mp hp
      · have hne : p.1 ≠ page := fun heq => hpage (heq ▸ List.mem_map_of_mem hp)
        exact (hold p.1 hne).trans (h.translates p hp)
      · obtain rfl := List.mem_singleton.mp hp
        exact hnew

/-- All pages, unless there is an error. -/
theorem Backed.mapPages (hX : X.Documented) (hP : P.Documented) (hbound : Bounded P map)
    {pages : List Nat} (h : Backed X P map start m)
    (hpages : (m.mapped.map Prod.fst ++ pages).Nodup) :
    ∃ m' result, mapPages X P m pages = some (m', result) ∧ (result = .ok () →
      Backed X P map start m' ∧ m'.mapped.map Prod.fst = m.mapped.map Prod.fst ++ pages) := by
  induction pages generalizing m with
  | nil => exact ⟨m, .ok (), rfl, fun _ => ⟨h, (List.append_nil _).symm⟩⟩
  | cons page pages ih =>
    have hpage : page ∉ m.mapped.map Prod.fst := fun hmem =>
      (List.nodup_append.mp hpages).2.2 page hmem page List.mem_cons_self rfl
    obtain ⟨m', result, hcall, hok⟩ := h.mapPage hX hP hbound hpage
    rw [Kmem.mapPages, hcall, Option.bind_some]
    cases result with
    | error e =>
      refine ⟨m', .error e, rfl, fun hcontra => ?_⟩
      cases hcontra
    | ok _ =>
      obtain ⟨hbacked, hmapped⟩ := hok rfl
      obtain ⟨m'', result, hrest, hok'⟩ := ih hbacked (by rwa [hmapped, List.append_assoc])
      refine ⟨m'', result, hrest, fun hresult => ?_⟩
      obtain ⟨hbacked', hmapped'⟩ := hok' hresult
      exact ⟨hbacked', by rw [hmapped', hmapped, List.append_assoc]; rfl⟩

/-! ## Backed heaps -/

/-- The frames in use are distinct, and none of them is still pending. -/
theorem Backed.nodup (h : Backed X P map start m) (hstart : start.Nodup) :
    m.frames.Nodup ∧ ∀ f ∈ m.frames, f.toNat ∉ pending P m.frameAllocator := by
  have hall := h.perm.nodup_iff.mpr hstart
  rw [List.nodup_append] at hall
  obtain ⟨hframes, -, hpending⟩ := hall
  refine ⟨hframes.of_map _, fun f hf hmem => ?_⟩
  exact hpending _ (List.mem_map_of_mem hf) _ hmem rfl

/-- Every drawn frame was pending at the start. -/
theorem Backed.mem_start (h : Backed X P map start m) {f : UInt64} (hf : f ∈ m.frames) :
    f.toNat ∈ start :=
  h.perm.subset (List.mem_append_left _ (List.mem_map_of_mem hf))

/-- No later call of the frame allocator yields a frame in use. -/
theorem Backed.not_mem_later (hP : P.Documented) (hbound : Bounded P map)
    (h : Backed X P map start m) (hstart : start.Nodup) {k : Nat} {later : List (Option UInt64)}
    {fa : BootInfoFrameAllocator}
    (hcalls : calls (allocateFrame P) k m.frameAllocator = some (later, fa)) {f : UInt64}
    (hf : f ∈ m.frames) : some f ∉ later := by
  intro hmem
  obtain ⟨-, -, hlater⟩ :=
    pending_calls (fun s hs => allocateFrame_spec hP hbound hs) h.at_map hcalls
  have hview : some f.toNat ∈ (List.range k).map fun i => (pending P m.frameAllocator)[i]? := by
    rw [← hlater]
    exact List.mem_map_of_mem (f := Option.map UInt64.toNat) hmem
  obtain ⟨i, -, hi⟩ := List.mem_map.mp hview
  exact (h.nodup hstart).2 f hf (List.mem_of_getElem? hi)

/-- A mapped page for every address between two page boundaries. -/
theorem Backed.page_of_address (h : Backed X P map start m) {lo hi x : Nat} (hlo : 4096 ∣ lo)
    (hhi : 4096 ∣ hi) (hpages : m.mapped.map Prod.fst = framesBetween lo hi) (hle : lo ≤ x)
    (hlt : x < hi) :
    ∃ p ∈ m.mapped, p.1 = x / 4096 * 4096 ∧ X.translatePage m.mapper p.1 = some p.2 := by
  have hmem : x / 4096 * 4096 ∈ m.mapped.map Prod.fst := by
    rw [hpages, mem_framesBetween hlo hhi]
    omega
  obtain ⟨p, hp, hpage⟩ := List.mem_map.mp hmem
  exact ⟨p, hp, hpage, h.translates p hp⟩

end Backing

/-! ## The buddy allocator -/

/-- Whatever an uninitialized allocator holds, it is initialized like a new one. -/
theorem init_eq_new {s : BuddyState} (h : s.initialized = false) (start size : Nat) :
    s.init start size = (BuddyState.new s.mem).init start size := by
  obtain ⟨⟨_, _, _, _, initialized⟩, mem⟩ := s
  obtain rfl : initialized = false := h
  rfl

/-- Its free blocks lie in the heap. -/
theorem init_kernelHeap {s : BuddyState} (h : s.initialized = false) :
    ∃ t, s.init heapStart heapSize = some t ∧ ∃ free : Nat → List Nat,
      (∀ k ∈ orders, t.freeList k = some (free k)) ∧
        ∀ b ∈ freeSpans free, ∀ x ∈ b, heapStart ≤ x ∧ x < heapStart + heapSize := by
  obtain ⟨c, hc, href⟩ := Refines.boot kernelHeap s.mem
  obtain ⟨t, ht, rfl⟩ := Option.map_eq_some_iff.mp hc
  refine ⟨t, (init_eq_new h _ _).trans ht, kernelHeap.bootListed.heap.lists,
    fun k hk => href.freeList hk, fun b hb x hx => ?_⟩
  exact (href.partition.2 x).mp ⟨b, List.mem_append_left _ hb, hx⟩

/-- An uninitialized allocator does nothing. -/
theorem alloc_of_uninitialized {s : BuddyState} (h : s.initialized = false) (layout : Layout) :
    s.alloc layout = (0, s) := by
  simp only [BuddyState.alloc, h, Bool.not_false, if_true]

private theorem dealloc_of_uninitialized {s : BuddyState} (h : s.initialized = false) (ptr : Nat)
    (layout : Layout) : s.dealloc ptr layout = some s := by
  simp only [BuddyState.dealloc, h, Bool.not_false, or_true, if_true]

/-- It stays uninitialized over all calls and all writes to memory. -/
theorem run_of_uninitialized {m : Machine} (h : m.heap.initialized = false)
    (acts : List Action) :
    ∃ t, Transition.run Machine.act m acts = some t ∧ t.heap.initialized = false := by
  refine ⟨_, Transition.run_total (f := fun (m : Machine) a => (m.act a).getD m)
    (P := fun m => m.heap.initialized = false) (fun s a _ hs => ?_) h⟩
  cases a with
  | alloc layout =>
    have halloc := alloc_of_uninitialized hs layout
    simp only [Machine.act, halloc, Option.getD_some, hs, and_self]
  | dealloc ptr layout =>
    have hdealloc := dealloc_of_uninitialized hs ptr layout
    simp only [Machine.act, hdealloc, Option.map_some, Option.getD_some, hs, and_self]
  | write addr byte =>
    simp only [Machine.act, Option.getD_some, hs, and_self]

/-! ## The whole initialization -/

section Whole

variable {σ : Type} {X : Paging σ}

/-- The pages of the heap. -/
theorem heap_pages (hX : X.Documented) :
    X.virtAddrNew heapStart = some heapStart ∧
      X.virtAddrNew (heapStart + heapSize) = some (heapStart + heapSize) ∧
      X.virtAddrNew (heapStart + heapSize - 1) = some (heapStart + heapSize - 1) ∧
      X.rangeInclusive (X.containingAddress heapStart)
        (X.containingAddress (heapStart + heapSize - 1)) =
          framesBetween heapStart (heapStart + heapSize) := by
  have hstart : heapStart = 0x444444440000 := rfl
  have hsize : heapSize = 0x6400000 := rfl
  have hfirst : X.containingAddress heapStart = heapStart := by
    have hdvd := hX.page_dvd heapStart
    have hle := hX.page_le heapStart
    have hlt := hX.lt_page heapStart
    omega
  have hlast : X.containingAddress (heapStart + heapSize - 1) = heapStart + heapSize - 4096 := by
    have hdvd := hX.page_dvd (heapStart + heapSize - 1)
    have hle := hX.page_le (heapStart + heapSize - 1)
    have hlt := hX.lt_page (heapStart + heapSize - 1)
    omega
  refine ⟨hX.virtAddrNew_eq _ ?_, hX.virtAddrNew_eq _ ?_, hX.virtAddrNew_eq _ ?_, ?_⟩
  · omega
  · omega
  · omega
  · rw [hfirst, hlast, hX.rangeInclusive_eq _ _ (by omega) (by omega)]
    congr 1

/-- The initialization maps these pages and then initializes the buddy allocator. -/
theorem initHeap_eq (hX : X.Documented) (P : Platform) (m : Mapping σ) (allocator : BuddyState) :
    initHeap X P m allocator =
      (mapPages X P m (framesBetween heapStart (heapStart + heapSize))).bind fun (m, result) =>
        match result with
        | .ok () => (allocator.init heapStart heapSize).map fun allocator => (m, allocator, .ok ())
        | .error e => some (m, allocator, .error e) := by
  obtain ⟨haddr, haddr', haddr'', hrange⟩ := heap_pages hX
  unfold initHeap
  simp only [haddr, haddr', haddr'', hrange, Option.bind_eq_bind, Option.bind_some]
  rfl

/-- Its result is that of mapping the pages. -/
theorem mapPages_of_initHeap {P : Platform} (hX : X.Documented) {m m' : Mapping σ}
    {allocator allocator' : BuddyState} {result : Except MapToError Unit}
    (h : initHeap X P m allocator = some (m', allocator', result)) :
    mapPages X P m (framesBetween heapStart (heapStart + heapSize)) = some (m', result) := by
  rw [initHeap_eq hX] at h
  obtain ⟨⟨t, r⟩, hmap, h⟩ := Option.bind_eq_some_iff.mp h
  rw [hmap]
  cases r with
  | error e =>
    cases h
    rfl
  | ok _ =>
    obtain ⟨_, -, h⟩ := Option.map_eq_some_iff.mp h
    cases h
    rfl

/-- Initializing the heap does not panic. If it succeeds, every page of the heap is mapped,
the frames behind pages and page tables are distinct frames of usable entries that are
never handed out again, and every block that the buddy allocator has been seeded with
lies in mapped pages. If it fails, the buddy allocator is untouched and uninitialized, and
`alloc` returns null after any calls of it and any writes to memory. -/
theorem initHeap_backed (X : Paging σ) (hX : X.Documented) (P : Platform) (hP : P.Documented)
    (map : List Entry)
    (hdisjoint : (map.filter fun e => e.type_ = P.memmapUsable).Pairwise Entry.Disjoint)
    (hbound : ∀ e ∈ map, e.type_ = P.memmapUsable → e.base.toNat + e.length.toNat ≤ 2 ^ 52)
    (n : Nat) (results : List (Option UInt64)) (frameAllocator : BootInfoFrameAllocator)
    (hcalls : calls (allocateFrame P) n (new map) = some (results, frameAllocator))
    (mapper : σ) (allocator : BuddyState) (hnew : allocator.initialized = false) :
    ∃ m allocator' result,
      initHeap X P ⟨mapper, frameAllocator, [], []⟩ allocator = some (m, allocator', result) ∧
      (result = .ok () →
        (∀ page, 4096 ∣ page → heapStart ≤ page → page < heapStart + heapSize →
          ∃ frame, (page, frame) ∈ m.mapped ∧ X.translatePage m.mapper page = some frame) ∧
        m.frames.Nodup ∧
        (∀ f ∈ m.frames, 4096 ∣ f.toNat ∧ ∃ e ∈ map, e.type_ = P.memmapUsable ∧
          e.base.toNat ≤ f.toNat ∧ f.toNat + 4096 ≤ e.base.toNat + e.length.toNat) ∧
        (∀ k later fa, calls (allocateFrame P) k m.frameAllocator = some (later, fa) →
          ∀ f ∈ m.frames, some f ∉ later) ∧
        ∃ free : Nat → List Nat, (∀ k ∈ orders, allocator'.freeList k = some (free k)) ∧
          ∀ b ∈ freeSpans free, ∀ x ∈ b, ∃ p ∈ m.mapped, p.1 ≤ x ∧ x < p.1 + 4096 ∧
            X.translatePage m.mapper p.1 = some p.2) ∧
      ∀ e, result = .error e → allocator' = allocator ∧ allocator'.initialized = false ∧
        ∀ live acts, ∃ t, Transition.run Machine.act ⟨allocator', live⟩ acts = some t ∧
          t.heap.initialized = false ∧ ∀ layout, (t.heap.alloc layout).1 = 0 := by
  obtain ⟨hat, hpending, -⟩ := pending_calls (fun s hs => allocateFrame_spec hP hbound hs)
    (s := new map) ⟨rfl, Nat.dvd_zero _⟩ hcalls
  rw [pending_new] at hpending
  have hstart : (pending P frameAllocator).Nodup :=
    hpending ▸ (usableFrames_nodup hdisjoint).sublist (List.drop_sublist n _)
  have husable : ∀ f ∈ pending P frameAllocator, f ∈ usableFrames P map := fun f hf =>
    List.mem_of_mem_drop (hpending ▸ hf)
  have hbacked : Backed X P map (pending P frameAllocator) ⟨mapper, frameAllocator, [], []⟩ :=
    ⟨hat, List.Perm.refl _, fun p hp => absurd hp List.not_mem_nil⟩
  have hpages : (([] : List (Nat × UInt64)).map Prod.fst ++
      framesBetween heapStart (heapStart + heapSize)).Nodup := by
    rw [List.map_nil, List.nil_append]
    exact (List.pairwise_lt_range' 4096 (by decide)).imp Nat.ne_of_lt
  obtain ⟨m, result, hmap, hok⟩ := hbacked.mapPages hX hP hbound hpages
  have hlo : 4096 ∣ heapStart := by decide
  have hhi : 4096 ∣ heapStart + heapSize := by decide
  rw [initHeap_eq hX, hmap, Option.bind_some]
  cases result with
  | error e =>
    refine ⟨m, allocator, .error e, rfl, fun hcontra => ?_,
      fun e' _ => ⟨rfl, hnew, fun live acts => ?_⟩⟩
    · cases hcontra
    · obtain ⟨t, hrun, hinit⟩ := run_of_uninitialized (m := ⟨allocator, live⟩) hnew acts
      exact ⟨t, hrun, hinit, fun layout => congrArg Prod.fst (alloc_of_uninitialized hinit layout)⟩
  | ok _ =>
    obtain ⟨hdone, hmapped⟩ := hok rfl
    rw [List.map_nil, List.nil_append] at hmapped
    obtain ⟨t, ht, free, hfree, hblocks⟩ := init_kernelHeap hnew
    rw [ht]
    refine ⟨m, t, .ok (), rfl, fun _ => ⟨fun page hdvd hle hlt => ?_, (hdone.nodup hstart).1,
      fun f hf => mem_usableFrames.mp (husable _ (hdone.mem_start hf)),
      fun k later fa hlater f hf => hdone.not_mem_later hP hbound hstart hlater hf,
      free, hfree, fun b hb x hx => ?_⟩, fun e hcontra => ?_⟩
    · obtain ⟨p, hp, hpage, htranslate⟩ := hdone.page_of_address hlo hhi hmapped hle hlt
      have hself : p.1 = page := by omega
      subst hself
      exact ⟨p.2, hp, htranslate⟩
    · obtain ⟨hle, hlt⟩ := hblocks b hb x hx
      obtain ⟨p, hp, hpage, htranslate⟩ := hdone.page_of_address hlo hhi hmapped hle hlt
      exact ⟨p, hp, by omega, by omega, htranslate⟩
    · cases hcontra

/-- A mapper that keeps one table, which it draws a frame for at every page. -/
def flatPaging : Paging (Nat → Option UInt64) where
  virtAddrNew a := if a < 2 ^ 47 then some a else none
  containingAddress a := a / 4096 * 4096
  rangeInclusive first last := framesBetween first (last + 4096)
  present := 1
  writable := 2
  mapTo s page frame _ := .draw fun table =>
    match table with
    | none => .done (s, .error .FrameAllocationFailed)
    | some _ => .done (Function.update s page (some frame), .ok ())
  translatePage s page := s page

/-- Such a mapper is one that the code relies on. -/
theorem flatPaging_documented : flatPaging.Documented where
  virtAddrNew_eq a ha := if_pos ha
  page_dvd a := Nat.dvd_mul_left _ _
  page_le a := Nat.div_mul_le_self _ _
  lt_page a := by
    simp only [flatPaging]
    omega
  rangeInclusive_eq first last _ _ := rfl
  mapTo_ok s page frame flags t h := by
    obtain ⟨table, hend⟩ := h
    cases table with
    | none => cases hend
    | some _ =>
      obtain rfl := congrArg Prod.fst hend
      exact ⟨Function.update_self .., fun other hne => Function.update_of_ne hne ..⟩

/-- It maps any pages for which two frames each are pending. -/
theorem mapPages_flatPaging {P : Platform} (hP : P.Documented) {map : List Entry}
    (hbound : Bounded P map) {m : Mapping (Nat → Option UInt64)} (hat : At map m.frameAllocator)
    {pages : List Nat} (hlength : 2 * pages.length ≤ (pending P m.frameAllocator).length) :
    ∃ m', mapPages flatPaging P m pages = some (m', .ok ()) := by
  induction pages generalizing m with
  | nil => exact ⟨m, rfl⟩
  | cons page pages ih =>
    obtain ⟨r, fa, hcall, hat', hhead, htail⟩ := allocateFrame_spec hP hbound hat
    obtain ⟨r', fa', hcall', hat'', hhead', htail'⟩ := allocateFrame_spec hP hbound hat'
    rw [htail] at hhead' htail'
    match hpending : pending P m.frameAllocator with
    | [] | [_] =>
      rw [hpending] at hlength
      simp only [List.length_cons, List.length_nil] at hlength
      omega
    | f :: f' :: fs =>
      rw [hpending] at hlength hhead hhead' htail'
      obtain ⟨frame, rfl, -⟩ := Option.map_eq_some_iff.mp hhead
      obtain ⟨table, rfl, -⟩ := Option.map_eq_some_iff.mp hhead'
      have hpage : mapPage flatPaging P m page = some (⟨Function.update m.mapper page (some frame),
          fa', m.mapped ++ [(page, frame)], m.tables ++ [table]⟩, .ok ()) := by
        unfold mapPage
        rw [hcall, Option.bind_some]
        simp only [flatPaging, Client.run, hcall', Option.bind_some, Option.map_some]
        rfl
      rw [mapPages, hpage, Option.bind_some]
      refine ih hat'' ?_
      simp only [htail', List.length_cons, List.tail_cons] at hlength ⊢
      omega

/-- One usable entry of a gigabyte. -/
def gigabyteMap : List Entry := [⟨0x100000, 0x40000000, 0⟩]

/-- The entry ends within the physical addresses. -/
theorem bounded_gigabyteMap : Bounded pagedPlatform gigabyteMap := by
  unfold Bounded
  decide

/-- It has enough frames to map the heap with a table for each page. -/
theorem gigabyteMap_enough : 2 * (framesBetween heapStart (heapStart + heapSize)).length ≤
    (pending pagedPlatform (new gigabyteMap)).length := by
  have hneeded : (framesBetween heapStart (heapStart + heapSize)).length = 25600 := by
    rw [framesBetween, List.length_range', Nat.add_sub_cancel_left]
    rfl
  have husable : (regionPending pagedPlatform 0 ⟨0x100000, 0x40000000, 0⟩).length = 0x40000 := by
    simp [regionPending, pagedPlatform, framesBetween, List.length_range']
  rw [pending_new, gigabyteMap, usableFrames_cons, List.length_append, hneeded, husable]
  omega

/-- Initializing the heap over it succeeds. -/
theorem initHeap_gigabyteMap :
    ∃ m allocator, initHeap flatPaging pagedPlatform
        ⟨fun _ => none, new gigabyteMap, [], []⟩ (BuddyState.new fun _ => 0) =
          some (m, allocator, .ok ()) ∧ m.frames.Nodup := by
  obtain ⟨m, allocator, result, hcall, hok, -⟩ := initHeap_backed flatPaging
    flatPaging_documented pagedPlatform pagedPlatform_documented gigabyteMap
    ((List.pairwise_singleton _ _).sublist List.filter_sublist) bounded_gigabyteMap 0 []
    (new gigabyteMap) rfl (fun _ => none) (BuddyState.new fun _ => 0) rfl
  obtain ⟨m', hpages⟩ := mapPages_flatPaging pagedPlatform_documented bounded_gigabyteMap
    (m := ⟨fun _ => none, new gigabyteMap, [], []⟩) ⟨rfl, Nat.dvd_zero _⟩ gigabyteMap_enough
  obtain rfl : result = .ok () := by
    have hresult := mapPages_of_initHeap flatPaging_documented hcall
    rw [hpages] at hresult
    exact (congrArg Prod.snd (Option.some.inj hresult)).symm
  exact ⟨m, allocator, hcall, (hok rfl).2.1⟩

end Whole

end SillOS.Kmem

import SillOS.Kmem.Buddy.Confluence
import SillOS.Kmem.InitHeap

/-!
# Live blocks in physical memory

The frame allocator, the mapper and the buddy allocator put together: where the
bytes of the live blocks of the kernel heap are in physical memory, and that no
two of them, and nothing else that was given a frame, are in the same place.
-/

namespace SillOS.Kmem

open Buddy SillOS.Frame SillOS.Frame.BootInfoFrameAllocator Generator Tiling

/-- The physical address of a byte whose page is mapped. -/
def Paging.physical {σ : Type} (X : Paging σ) (mapper : σ) (x : Nat) : Option Nat :=
  (X.translatePage mapper (X.containingAddress x)).map fun frame =>
    frame.toNat + (x - X.containingAddress x)

/-- The physical address lies in the frame. -/
def Within (p : Nat) (frame : UInt64) : Prop := frame.toNat ≤ p ∧ p < frame.toNat + 4096

/-- Aligned frames that share an address are one. -/
theorem Within.unique {p : Nat} {f g : UInt64} (hf : Within p f) (hg : Within p g)
    (hdvd : 4096 ∣ f.toNat) (hdvd' : 4096 ∣ g.toNat) : f = g := by
  obtain ⟨hlo, hhi⟩ := hf
  obtain ⟨hlo', hhi'⟩ := hg
  exact UInt64.toNat_inj.mp (by omega)

section Physical

variable {σ : Type} {X : Paging σ} {P : Platform} {map : List Entry} {start : List Nat}
  {m : Mapping σ}

/-- The page that contains an address starts at the page boundary below it. -/
theorem Paging.Documented.containingAddress_eq (h : X.Documented) (x : Nat) :
    X.containingAddress x = x / 4096 * 4096 := by
  have hdvd := h.page_dvd x
  have hle := h.page_le x
  have hlt := h.lt_page x
  omega

/-- Every heap address has a page, whose frame holds the physical address. -/
theorem Backed.physical_of_heap (h : Backed X P map start m) (hX : X.Documented)
    (hpages : m.mapped.map Prod.fst = framesBetween heapStart (heapStart + heapSize)) {x : Nat}
    (hle : heapStart ≤ x) (hlt : x < heapStart + heapSize) :
    ∃ q ∈ m.mapped, q.1 = x / 4096 * 4096 ∧
      X.physical m.mapper x = some (q.2.toNat + x % 4096) ∧ Within (q.2.toNat + x % 4096) q.2 := by
  obtain ⟨q, hq, hpage, htranslate⟩ :=
    h.page_of_address (by decide) (by decide) hpages hle hlt
  refine ⟨q, hq, hpage, ?_, ?_⟩
  · have hoffset : x - x / 4096 * 4096 = x % 4096 := by omega
    rw [Paging.physical, hX.containingAddress_eq, ← hpage, htranslate, Option.map_some, hpage,
      hoffset]
  · unfold Within
    omega

/-- Different pages have different frames. -/
theorem Backed.frame_injective (h : Backed X P map start m) (hstart : start.Nodup)
    {q q' : Nat × UInt64} (hq : q ∈ m.mapped) (hq' : q' ∈ m.mapped) (heq : q.2 = q'.2) :
    q = q' := by
  have hnodup : (m.mapped.map Prod.snd).Nodup :=
    ((h.nodup hstart).1).sublist (List.sublist_append_left _ _)
  exact List.inj_on_of_nodup_map hnodup hq hq' heq

/-- Different heap addresses are at different physical addresses. -/
theorem Backed.physical_injective (h : Backed X P map start m) (hX : X.Documented)
    (hstart : start.Nodup) (hdvd : ∀ f ∈ start, 4096 ∣ f)
    (hpages : m.mapped.map Prod.fst = framesBetween heapStart (heapStart + heapSize)) {x y : Nat}
    (hx : heapStart ≤ x ∧ x < heapStart + heapSize) (hy : heapStart ≤ y ∧ y < heapStart + heapSize)
    (heq : X.physical m.mapper x = X.physical m.mapper y) : x = y := by
  obtain ⟨q, hq, hpage, hphysical, hwithin⟩ := h.physical_of_heap hX hpages hx.1 hx.2
  obtain ⟨q', hq', hpage', hphysical', hwithin'⟩ := h.physical_of_heap hX hpages hy.1 hy.2
  have haligned : ∀ q ∈ m.mapped, 4096 ∣ q.2.toNat := fun q hq =>
    hdvd _ (h.mem_start (List.mem_append_left _ (List.mem_map_of_mem hq)))
  rw [hphysical, hphysical', Option.some_inj] at heq
  have hframe : q.2 = q'.2 :=
    hwithin.unique (heq ▸ hwithin') (haligned q hq) (haligned q' hq')
  obtain rfl := h.frame_injective hstart hq hq' hframe
  omega

/-- A physical address in the frame of a mapped page lies in no page table and in no
frame that is drawn later. -/
theorem Backed.within_unique (h : Backed X P map start m) (hP : P.Documented)
    (hbound : Bounded P map) (hstart : start.Nodup) (hdvd : ∀ f ∈ start, 4096 ∣ f)
    {q : Nat × UInt64} (hq : q ∈ m.mapped) {p : Nat} (hp : Within p q.2) :
    (∀ f ∈ m.tables, ¬Within p f) ∧
    ∀ k later fa, calls (allocateFrame P) k m.frameAllocator = some (later, fa) →
      ∀ f, some f ∈ later → ¬Within p f := by
  have hmem : q.2 ∈ m.frames := List.mem_append_left _ (List.mem_map_of_mem hq)
  have haligned : 4096 ∣ q.2.toNat := hdvd _ (h.mem_start hmem)
  constructor
  · intro f hf hpf
    have hdvd' : 4096 ∣ f.toNat := hdvd _ (h.mem_start (List.mem_append_right _ hf))
    obtain rfl := hp.unique hpf haligned hdvd'
    exact (List.nodup_append.mp (h.nodup hstart).1).2.2 _ (List.mem_map_of_mem hq) _ hf rfl
  · intro k later fa hcalls f hf hpf
    have hpending := mem_take_of_calls (fun s hs => allocateFrame_spec hP hbound hs) h.at_map
      hcalls hf
    have hdvd' : 4096 ∣ f.toNat :=
      hdvd _ (h.perm.subset (List.mem_append_right _ (List.mem_of_mem_take hpending)))
    obtain rfl := hp.unique hpf haligned hdvd'
    exact h.not_mem_later hP hbound hstart hcalls hmem hf

end Physical

/-! ## Runs of the allocator on the mapped heap -/

section Whole

variable {σ : Type} {X : Paging σ} {P : Platform} {map : List Entry}

/-- What a successful initialization leaves behind. -/
theorem backed_of_initHeap (hX : X.Documented) (hP : P.Documented) (hbound : Bounded P map)
    {frameAllocator : BootInfoFrameAllocator} (hat : At map frameAllocator) {mapper : σ}
    {allocator allocator' : BuddyState} {m : Mapping σ}
    (h : initHeap X P ⟨mapper, frameAllocator, [], []⟩ allocator = some (m, allocator', .ok ())) :
    Backed X P map (pending P frameAllocator) m ∧
      m.mapped.map Prod.fst = framesBetween heapStart (heapStart + heapSize) ∧
      allocator.init heapStart heapSize = some allocator' := by
  have hbacked : Backed X P map (pending P frameAllocator) ⟨mapper, frameAllocator, [], []⟩ :=
    ⟨hat, List.Perm.refl _, fun p hp => absurd hp List.not_mem_nil⟩
  have hpages : (([] : List (Nat × UInt64)).map Prod.fst ++
      framesBetween heapStart (heapStart + heapSize)).Nodup := by
    rw [List.map_nil, List.nil_append]
    exact (List.pairwise_lt_range' 4096 (by decide)).imp Nat.ne_of_lt
  obtain ⟨m', result, hmap, hok⟩ := hbacked.mapPages hX hP hbound hpages
  rw [initHeap_eq hX, hmap, Option.bind_some] at h
  cases result with
  | error e => cases h
  | ok _ =>
    obtain ⟨t, ht, h⟩ := Option.map_eq_some_iff.mp h
    cases h
    obtain ⟨hdone, hmapped⟩ := hok rfl
    rw [List.map_nil, List.nil_append] at hmapped
    exact ⟨hdone, hmapped, ht⟩

/-- Live blocks of a run that starts from an initialized kernel heap lie in the heap,
and each has its own bytes. -/
theorem live_of_run {allocator allocator' : BuddyState} (hnew : allocator.initialized = false)
    (hinit : allocator.init heapStart heapSize = some allocator') {acts : List Action}
    {c : Machine} (hrun : Machine.run ⟨allocator', []⟩ acts = some c) :
    (∀ b ∈ c.live, ∀ x ∈ liveSpan b, heapStart ≤ x ∧ x < heapStart + heapSize) ∧
      ∀ b ∈ c.live, ∀ b' ∈ c.live, ∀ x ∈ liveSpan b, x ∈ liveSpan b' → b = b' := by
  obtain ⟨c₀, hboot, href₀⟩ := Refines.boot kernelHeap allocator.mem
  obtain ⟨t, ht, rfl⟩ := Option.map_eq_some_iff.mp hboot
  obtain rfl : t = allocator' := by
    rw [init_eq_new hnew] at hinit
    exact Option.some.inj (ht.symm.trans hinit)
  obtain ⟨l, _, href⟩ := href₀.run hrun
  refine ⟨fun b hb x hx => ?_, fun b hb b' hb' x hx hx' => ?_⟩
  · exact (href.partition.2 x).mp ⟨_, List.mem_append_right _ (List.mem_map_of_mem hb), hx⟩
  · by_contra hne
    rw [href.live_eq] at hb hb'
    exact href.inv.live_disjoint hb hb' hne x hx hx'

/-- After the kernel heap has been initialized and over every run of its allocator,
every byte of every live block is at a physical address in a usable entry of the memory
map. That address lies in no frame drawn before, in no page table and in no frame drawn
later, and two bytes are at one address only if they are the same byte of the same
block. -/
theorem live_bytes_physical (X : Paging σ) (hX : X.Documented) (P : Platform)
    (hP : P.Documented) (map : List Entry)
    (hdisjoint : (map.filter fun e => e.type_ = P.memmapUsable).Pairwise Entry.Disjoint)
    (hbound : ∀ e ∈ map, e.type_ = P.memmapUsable → e.base.toNat + e.length.toNat ≤ 2 ^ 52)
    (n : Nat) (results : List (Option UInt64)) (frameAllocator : BootInfoFrameAllocator)
    (hcalls : calls (allocateFrame P) n (new map) = some (results, frameAllocator))
    (mapper : σ) (allocator : BuddyState) (hnew : allocator.initialized = false)
    (m : Mapping σ) (allocator' : BuddyState)
    (hinit : initHeap X P ⟨mapper, frameAllocator, [], []⟩ allocator =
      some (m, allocator', .ok ()))
    (acts : List Action) (c : Machine) (hrun : Machine.run ⟨allocator', []⟩ acts = some c) :
    (∀ b ∈ c.live, ∀ x ∈ liveSpan b, ∃ p, X.physical m.mapper x = some p ∧
      (∃ e ∈ map, e.type_ = P.memmapUsable ∧ e.base.toNat ≤ p ∧
        p < e.base.toNat + e.length.toNat) ∧
      (∀ f, some f ∈ results → ¬Within p f) ∧ (∀ f ∈ m.tables, ¬Within p f) ∧
      ∀ k later fa, calls (allocateFrame P) k m.frameAllocator = some (later, fa) →
        ∀ f, some f ∈ later → ¬Within p f) ∧
    ∀ b ∈ c.live, ∀ b' ∈ c.live, ∀ x ∈ liveSpan b, ∀ y ∈ liveSpan b',
      X.physical m.mapper x = X.physical m.mapper y → b = b' ∧ x = y := by
  have hnext := fun s hs => allocateFrame_spec (P := P) (s := s) hP hbound hs
  have hnewmap : At map (new map) := ⟨rfl, Nat.dvd_zero _⟩
  obtain ⟨hat, hpending, -⟩ := pending_calls hnext hnewmap hcalls
  obtain ⟨hbacked, hpages, hseeded⟩ := backed_of_initHeap hX hP hbound hat hinit
  obtain ⟨hheap, hown⟩ := live_of_run hnew hseeded hrun
  rw [pending_new] at hpending
  have hall := usableFrames_nodup hdisjoint
  have hstart : (pending P frameAllocator).Nodup := hpending ▸ hall.sublist (List.drop_sublist n _)
  have husable : ∀ f ∈ pending P frameAllocator, f ∈ usableFrames P map := fun f hf =>
    List.mem_of_mem_drop (hpending ▸ hf)
  have hdvd : ∀ f ∈ pending P frameAllocator, 4096 ∣ f := fun f hf =>
    (mem_usableFrames.mp (husable f hf)).1
  refine ⟨fun b hb x hx => ?_, fun b hb b' hb' x hx y hy heq => ?_⟩
  · obtain ⟨hlo, hhi⟩ := hheap b hb x hx
    obtain ⟨q, hq, -, hphysical, hwithin⟩ := hbacked.physical_of_heap hX hpages hlo hhi
    have hmem := hbacked.mem_start (List.mem_append_left _ (List.mem_map_of_mem hq))
    obtain ⟨htables, hlater⟩ := hbacked.within_unique hP hbound hstart hdvd hq hwithin
    refine ⟨_, hphysical, ?_, fun f hf hpf => ?_, htables, hlater⟩
    · obtain ⟨-, e, he, htype, hbase, hend⟩ := mem_usableFrames.mp (husable _ hmem)
      unfold Within at hwithin
      exact ⟨e, he, htype, by omega, by omega⟩
    · -- What was drawn before is among the first frames, what is mapped among the rest.
      have hfirst := mem_take_of_calls hnext hnewmap hcalls hf
      rw [pending_new] at hfirst
      have hdvd' := (mem_usableFrames.mp (List.mem_of_mem_take hfirst)).1
      obtain rfl := hwithin.unique hpf (hdvd _ hmem) hdvd'
      rw [hpending] at hmem
      exact List.disjoint_take_drop hall (Nat.le_refl n) hfirst hmem
  · obtain rfl := hbacked.physical_injective hX hstart hdvd hpages (hheap b hb x hx)
      (hheap b' hb' y hy) heq
    exact ⟨hown b hb b' hb' x hx hy, rfl⟩

/-- A gigabyte is enough to initialize the heap. -/
theorem initHeap_flatPaging :
    ∃ m allocator, initHeap flatPaging pagedPlatform ⟨fun _ => none, new gigabyteMap, [], []⟩
      (BuddyState.new fun _ => 0) = some (m, allocator, .ok ()) := by
  obtain ⟨m, hpages⟩ := mapPages_flatPaging pagedPlatform_documented bounded_gigabyteMap
    (m := ⟨fun _ => none, new gigabyteMap, [], []⟩) ⟨rfl, Nat.dvd_zero _⟩ gigabyteMap_enough
  obtain ⟨t, ht, -⟩ := init_kernelHeap (s := BuddyState.new fun _ => 0) rfl
  refine ⟨m, t, ?_⟩
  rw [initHeap_eq flatPaging_documented, hpages, Option.bind_some]
  dsimp only
  rw [ht]
  rfl

/-- A word of the kernel heap, backed by a frame of a gigabyte of memory. -/
theorem live_bytes_physical_word :
    ∃ m allocator c, initHeap flatPaging pagedPlatform
        ⟨fun _ => none, new gigabyteMap, [], []⟩ (BuddyState.new fun _ => 0) =
          some (m, allocator, .ok ()) ∧
      Machine.run ⟨allocator, []⟩ [.alloc .word] = some c ∧
      c.live = [(0x44444a800000, .word)] ∧
      ∃ p, flatPaging.physical m.mapper 0x44444a800000 = some p ∧ 0x100000 ≤ p ∧ p < 0x40100000 ∧
        ∀ f ∈ m.tables, ¬Within p f := by
  have hbound := bounded_gigabyteMap
  obtain ⟨m, allocator, hinit⟩ := initHeap_flatPaging
  have hafter : (kernelHeap.after [.alloc .word]).map Machine.live =
      some [(0x44444a800000, .word)] := by decide +kernel
  obtain ⟨c, hc, hlive⟩ := Option.map_eq_some_iff.mp hafter
  obtain ⟨c₀, hboot, hrun⟩ := HeapRange.after_eq_some.mp hc
  obtain ⟨t, ht, rfl⟩ := Option.map_eq_some_iff.mp hboot
  obtain ⟨-, -, hseeded⟩ := backed_of_initHeap flatPaging_documented pagedPlatform_documented
    hbound ⟨rfl, Nat.dvd_zero _⟩ hinit
  obtain rfl : t = allocator := Option.some.inj (ht.symm.trans hseeded)
  obtain ⟨hbytes, -⟩ := live_bytes_physical flatPaging flatPaging_documented pagedPlatform
    pagedPlatform_documented gigabyteMap
    ((List.pairwise_singleton _ _).sublist List.filter_sublist) hbound 0 [] (new gigabyteMap)
    rfl (fun _ => none) (BuddyState.new fun _ => 0) rfl m t hinit [.alloc .word] c hrun
  obtain ⟨p, hp, ⟨e, he, -, hbase, hend⟩, -, htables, -⟩ :=
    hbytes _ (by rw [hlive]; exact List.mem_cons_self) 0x44444a800000 (Parts.start_mem _ _)
  obtain rfl := List.mem_singleton.mp he
  exact ⟨m, t, c, hinit, hrun, hlive, p, hp, hbase, hend, htables⟩

end Whole

end SillOS.Kmem

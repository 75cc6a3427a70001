import Mathlib.Data.List.Perm.Subperm
import SillOS.Fb.Framebuffer
import SillOS.Kmem.Frame.Usable

/-!
# The memory report

What the kernel adds up over the bootloader's memory map. The sums saturate; on the
maps that the bootloader documents they are exact, and the usable memory bounds the
memory that the frame allocator can hand out.
-/

namespace SillOS.Frame

open Fb (saturatingAdd)

/-- The largest 64-bit word. -/
def u64Max : Nat := 2 ^ 64 - 1

/-- The types of memory that the report tells apart. -/
structure MemoryTypes where
  usable : UInt64
  reserved : UInt64
  acpiReclaimable : UInt64
  bootloaderReclaimable : UInt64
  executableAndModules : UInt64
  framebuffer : UInt64
  badMemory : UInt64

/-- The running sums of the report, in bytes. -/
structure Tally where
  totalMemory : Nat
  usableMemory : Nat
  reservedMemory : Nat
  reclaimableMemory : Nat
  bootloaderMemory : Nat
  kernelMemory : Nat
  framebufferMemory : Nat
  badMemory : Nat
  otherMemory : Nat
  usableRegions : Nat
  firstUsableBase : Option Nat
  lastUsableEnd : Option Nat
  deriving DecidableEq, Repr

namespace Tally

def zero : Tally := ⟨0, 0, 0, 0, 0, 0, 0, 0, 0, 0, none, none⟩

/-- Count an entry. -/
def count (T : MemoryTypes) (t : Tally) (entry : Entry) : Tally :=
  let base := entry.base.toNat
  let length := entry.length.toNat
  let last := saturatingAdd base length
  let t := { t with totalMemory := saturatingAdd t.totalMemory length }
  if entry.type_ = T.usable then
    { t with
      usableMemory := saturatingAdd t.usableMemory length
      usableRegions := t.usableRegions + 1
      firstUsableBase := if t.firstUsableBase.isNone then some base else t.firstUsableBase
      lastUsableEnd := some (max (t.lastUsableEnd.getD 0) last) }
  else if entry.type_ = T.reserved then
    { t with reservedMemory := saturatingAdd t.reservedMemory length }
  else if entry.type_ = T.acpiReclaimable then
    { t with reclaimableMemory := saturatingAdd t.reclaimableMemory length }
  else if entry.type_ = T.bootloaderReclaimable then
    { t with bootloaderMemory := saturatingAdd t.bootloaderMemory length }
  else if entry.type_ = T.executableAndModules then
    { t with kernelMemory := saturatingAdd t.kernelMemory length }
  else if entry.type_ = T.framebuffer then
    { t with framebufferMemory := saturatingAdd t.framebufferMemory length }
  else if entry.type_ = T.badMemory then
    { t with badMemory := saturatingAdd t.badMemory length }
  else { t with otherMemory := saturatingAdd t.otherMemory length }

/-- Count all entries. -/
def ofEntries (T : MemoryTypes) (entries : List Entry) : Tally := entries.foldl (count T) zero

/-- The number of frames that the report derives from the usable memory. -/
def frameCount (t : Tally) : Nat := t.usableMemory / 4096

end Tally

/-- The lowest and the highest address of the entries. -/
def addressRange (entries : List Entry) : Nat × Nat :=
  entries.foldl (fun (lowest, highest) entry =>
    (min lowest entry.base.toNat,
      max highest (saturatingAdd entry.base.toNat entry.length.toNat))) (u64Max, 0)

/-! ## What the sums are -/

/-- The kinds of memory that have a sum of their own. -/
inductive Category where
  | usable | reserved | reclaimable | bootloader | kernel | framebuffer | bad | other
  deriving DecidableEq

/-- The kind that an entry is counted under. -/
def MemoryTypes.category (T : MemoryTypes) (entry : Entry) : Category :=
  if entry.type_ = T.usable then .usable
  else if entry.type_ = T.reserved then .reserved
  else if entry.type_ = T.acpiReclaimable then .reclaimable
  else if entry.type_ = T.bootloaderReclaimable then .bootloader
  else if entry.type_ = T.executableAndModules then .kernel
  else if entry.type_ = T.framebuffer then .framebuffer
  else if entry.type_ = T.badMemory then .bad
  else .other

/-- The bytes of the entries that meet a condition. -/
def bytesOf (p : Entry → Bool) (entries : List Entry) : Nat :=
  ((entries.filter p).map fun entry => entry.length.toNat).sum

private theorem bytesOf_cons (p : Entry → Bool) (entry : Entry) (entries : List Entry) :
    bytesOf p (entry :: entries) =
      (if p entry then entry.length.toNat else 0) + bytesOf p entries := by
  unfold bytesOf
  cases hp : p entry with
  | true => simp [List.filter_cons_of_pos hp]
  | false => simp [List.filter_cons_of_neg (by simp [hp] : ¬p entry = true)]

namespace Tally

variable {T : MemoryTypes} {t : Tally} {entry : Entry} {entries : List Entry}

/-- The sum of a kind. -/
def memory (t : Tally) : Category → Nat
  | .usable => t.usableMemory
  | .reserved => t.reservedMemory
  | .reclaimable => t.reclaimableMemory
  | .bootloader => t.bootloaderMemory
  | .kernel => t.kernelMemory
  | .framebuffer => t.framebufferMemory
  | .bad => t.badMemory
  | .other => t.otherMemory

/-- An entry is added to the sum of its kind and to no other. -/
theorem memory_count (T : MemoryTypes) (t : Tally) (entry : Entry) (c : Category) :
    (t.count T entry).memory c = if T.category entry = c then
      saturatingAdd (t.memory c) entry.length.toNat else t.memory c := by
  unfold count MemoryTypes.category
  split_ifs <;> cases c <;> first | rfl | contradiction

private theorem usableRegions_count (T : MemoryTypes) (t : Tally) (entry : Entry) :
    (t.count T entry).usableRegions =
      (if entry.type_ = T.usable then 1 else 0) + t.usableRegions := by
  unfold count
  split_ifs <;> first | rfl | exact Nat.add_comm .. | exact (Nat.zero_add _).symm

private theorem lastUsableEnd_count (T : MemoryTypes) (t : Tally) (entry : Entry) :
    (t.count T entry).lastUsableEnd = if entry.type_ = T.usable then
      some (max (t.lastUsableEnd.getD 0) (saturatingAdd entry.base.toNat entry.length.toNat))
    else t.lastUsableEnd := by
  unfold count
  split_ifs <;> rfl

/-- A saturated sum with one more summand. -/
theorem saturatingAdd_min (a b c : Nat) :
    min (saturatingAdd a b + c) u64Max = min (a + (b + c)) u64Max := by
  unfold saturatingAdd u64Max
  omega

/-- The sum of a kind is that of the lengths of its entries, or saturated. -/
theorem memory_foldl (T : MemoryTypes) (t : Tally) (entries : List Entry) (c : Category)
    (ht : t.memory c ≤ u64Max) :
    (entries.foldl (count T) t).memory c =
      min (t.memory c + bytesOf (fun entry => T.category entry = c) entries) u64Max := by
  induction entries generalizing t with
  | nil => exact (Nat.min_eq_left ht).symm
  | cons entry entries ih =>
    have hcount := memory_count T t entry c
    have hle : (t.count T entry).memory c ≤ u64Max := by
      rw [hcount]
      split_ifs
      · exact Nat.min_le_right _ _
      · exact ht
    rw [List.foldl_cons, ih _ hle, hcount, bytesOf_cons]
    simp only [decide_eq_true_eq]
    split_ifs
    · exact saturatingAdd_min _ _ _
    · rw [Nat.zero_add]

/-- Every sum of the report, exactly. -/
theorem memory_ofEntries (T : MemoryTypes) (entries : List Entry) (c : Category) :
    (ofEntries T entries).memory c =
      min (bytesOf (fun entry => T.category entry = c) entries) u64Max := by
  have hzero : zero.memory c = 0 := by cases c <;> rfl
  rw [ofEntries, memory_foldl T zero entries c (hzero ▸ Nat.zero_le _), hzero, Nat.zero_add]

private theorem usableRegions_ofEntries (T : MemoryTypes) (entries : List Entry) :
    (ofEntries T entries).usableRegions =
      (entries.filter fun entry => entry.type_ = T.usable).length := by
  have hfoldl : ∀ t, (entries.foldl (count T) t).usableRegions =
      (entries.filter fun entry => entry.type_ = T.usable).length + t.usableRegions := by
    induction entries with
    | nil => exact fun t => (Nat.zero_add _).symm
    | cons entry entries ih =>
      intro t
      rw [List.foldl_cons, ih, usableRegions_count, List.filter_cons]
      simp only [decide_eq_true_eq]
      split_ifs
      · rw [List.length_cons, Nat.add_assoc]
      · rw [Nat.zero_add]
  exact hfoldl zero

/-- The end of the report lies behind every usable entry. -/
theorem le_lastUsableEnd (T : MemoryTypes) {entries : List Entry} {e : Entry} (he : e ∈ entries)
    (husable : e.type_ = T.usable) : ∃ last, (ofEntries T entries).lastUsableEnd = some last ∧
      saturatingAdd e.base.toNat e.length.toNat ≤ last := by
  have hkeep : ∀ (entries : List Entry) (t : Tally) (n : Nat),
      (∃ last, t.lastUsableEnd = some last ∧ n ≤ last) →
        ∃ last, (entries.foldl (count T) t).lastUsableEnd = some last ∧ n ≤ last := by
    intro entries t n ht
    refine List.foldlRecOn
      (motive := fun t : Tally => ∃ last, t.lastUsableEnd = some last ∧ n ≤ last)
      entries _ ht fun u hu entry _ => ?_
    obtain ⟨last, hlast, hle⟩ := hu
    rw [lastUsableEnd_count, hlast]
    split_ifs
    · exact ⟨_, rfl, Nat.le_trans hle (Nat.le_max_left _ _)⟩
    · exact ⟨last, rfl, hle⟩
  obtain ⟨pre, post, rfl⟩ := List.append_of_mem he
  have hhere := lastUsableEnd_count T (pre.foldl (count T) zero) e
  rw [if_pos husable] at hhere
  rw [ofEntries, List.foldl_append, List.foldl_cons]
  exact hkeep _ _ _ ⟨_, hhere, Nat.le_max_right _ _⟩

end Tally

/-! ## What the frame allocator can hand out -/

/-- An entry is larger than its frames, by less than two of them. -/
theorem frames_length (e : Entry) :
    4096 * e.frames.length ≤ e.length.toNat ∧ e.length.toNat ≤ 4096 * e.frames.length + 8190 := by
  rw [Entry.frames, framesBetween, List.length_range']
  omega

/-- So are all usable entries together. -/
theorem usableFrames_length (P : Platform) (map : List Entry) :
    4096 * (usableFrames P map).length ≤
        bytesOf (fun e => e.type_ = P.memmapUsable) map ∧
      bytesOf (fun e => e.type_ = P.memmapUsable) map ≤ 4096 * (usableFrames P map).length +
        8190 * (map.filter fun e => e.type_ = P.memmapUsable).length := by
  rw [usableFrames, bytesOf]
  generalize map.filter (fun e => e.type_ = P.memmapUsable) = entries
  induction entries with
  | nil => exact ⟨Nat.le_refl _, Nat.le_refl _⟩
  | cons e entries ih =>
    have hframes := frames_length e
    rw [List.flatMap_cons, List.length_append, List.map_cons, List.sum_cons, List.length_cons]
    omega

/-- There are fewer frames than a 64-bit word can count bytes of. -/
theorem usableFrames_length_le {P : Platform} {map : List Entry}
    (hdisjoint : (map.filter fun e => e.type_ = P.memmapUsable).Pairwise Entry.Disjoint)
    (hbound : ∀ e ∈ map, e.type_ = P.memmapUsable → e.base.toNat + e.length.toNat ≤ 2 ^ 52) :
    4096 * (usableFrames P map).length ≤ u64Max := by
  have hsub : (usableFrames P map).map (· / 4096) ⊆ List.range (2 ^ 40) := by
    intro q hq
    obtain ⟨f, hf, rfl⟩ := List.mem_map.mp hq
    obtain ⟨-, e, he, htype, -, hend⟩ := mem_usableFrames.mp hf
    have := hbound e he htype
    exact List.mem_range.mpr (by omega)
  have hnodup : ((usableFrames P map).map (· / 4096)).Nodup := by
    refine (usableFrames_nodup hdisjoint).map_on fun f hf g hg heq => ?_
    have hdvd := (mem_usableFrames.mp hf).1
    have hdvd' := (mem_usableFrames.mp hg).1
    omega
  have hle := (List.Nodup.subperm hnodup hsub).length_le
  rw [List.length_map, List.length_range] at hle
  unfold u64Max
  omega

open BootInfoFrameAllocator Generator

/-- The report and the frame allocator on one memory map: the allocator never hands out
more frames than the report counts, nor memory behind the end that it prints, and once it
has been asked often enough it has handed out all but at most two frames for each usable
entry. -/
theorem report_bounds_frames (P : Platform) (hP : P.Documented) (T : MemoryTypes)
    (husable : T.usable = P.memmapUsable) (map : List Entry)
    (hdisjoint : (map.filter fun e => e.type_ = P.memmapUsable).Pairwise Entry.Disjoint)
    (hbound : ∀ e ∈ map, e.type_ = P.memmapUsable → e.base.toNat + e.length.toNat ≤ 2 ^ 52) :
    (∀ n results s, calls (allocateFrame P) n (new map) = some (results, s) →
      (results.filterMap id).length ≤ (Tally.ofEntries T map).frameCount ∧
      ∀ f, some f ∈ results → ∃ last, (Tally.ofEntries T map).lastUsableEnd = some last ∧
        f.toNat + 4096 ≤ last) ∧
    ∃ n results s, calls (allocateFrame P) n (new map) = some (results, s) ∧
      (Tally.ofEntries T map).frameCount ≤
        (results.filterMap id).length + 2 * (Tally.ofEntries T map).usableRegions := by
  have hnext := fun s hs => allocateFrame_spec (P := P) (s := s) hP hbound hs
  have hyield : ∀ n results s, calls (allocateFrame P) n (new map) = some (results, s) →
      (results.filterMap id).length = min n (usableFrames P map).length := by
    intro n results s hcalls
    have hall := filterMap_calls hnext ⟨rfl, Nat.dvd_zero _⟩ hcalls
    rw [pending_new] at hall
    rw [← List.length_take, ← hall, List.length_map]
  have hmemory : (Tally.ofEntries T map).usableMemory =
      min (bytesOf (fun e => e.type_ = P.memmapUsable) map) u64Max := by
    have hcategory : ∀ e, T.category e = .usable ↔ e.type_ = P.memmapUsable := by
      intro e
      rw [← husable, MemoryTypes.category]
      split_ifs with h <;> simp [h]
    have hsum := Tally.memory_ofEntries T map .usable
    simp only [hcategory] at hsum
    exact hsum
  have hregions := Tally.usableRegions_ofEntries T map
  rw [husable] at hregions
  have hframes := usableFrames_length P map
  have hle := usableFrames_length_le hdisjoint hbound
  obtain ⟨all, t, hall, -⟩ := calls_of_pending hnext (usableFrames P map).length
    (s := new map) ⟨rfl, Nat.dvd_zero _⟩
  refine ⟨fun n results s hcalls => ⟨?_, fun f hf => ?_⟩,
    (usableFrames P map).length, all, t, hall, ?_⟩
  · rw [hyield n results s hcalls, Tally.frameCount, hmemory]
    omega
  · have hmem := mem_take_of_calls hnext ⟨rfl, Nat.dvd_zero _⟩ hcalls hf
    rw [pending_new] at hmem
    obtain ⟨-, e, he, htype, -, hend⟩ := mem_usableFrames.mp (List.mem_of_mem_take hmem)
    obtain ⟨last, hlast, hlast'⟩ := Tally.le_lastUsableEnd T he (husable ▸ htype)
    have := hbound e he htype
    refine ⟨last, hlast, ?_⟩
    unfold saturatingAdd at hlast'
    omega
  · rw [hyield _ all t hall, Tally.frameCount, hmemory, hregions]
    omega

/-- The types of the bootloader protocol. -/
def bootloaderTypes : MemoryTypes := ⟨0, 1, 2, 5, 6, 7, 4⟩

/-- An entry that starts and ends inside frames: of the two that the report counts, one
can be handed out. -/
theorem report_bounds_frames_ragged :
    (Tally.ofEntries bootloaderTypes [⟨0x1800, 0x2000, 0⟩]).frameCount = 2 ∧
      ∀ n results s, calls (allocateFrame pagedPlatform) n (new [⟨0x1800, 0x2000, 0⟩]) =
        some (results, s) → (results.filterMap id).length ≤ 2 := by
  have hcount : (Tally.ofEntries bootloaderTypes [⟨0x1800, 0x2000, 0⟩]).frameCount = 2 := by
    decide
  refine ⟨hcount, fun n results s hcalls => ?_⟩
  have hreport := (report_bounds_frames pagedPlatform pagedPlatform_documented bootloaderTypes rfl
    [⟨0x1800, 0x2000, 0⟩] ((List.pairwise_singleton _ _).sublist List.filter_sublist)
    (by decide)).1 n results s hcalls
  exact hcount ▸ hreport.1

end SillOS.Frame

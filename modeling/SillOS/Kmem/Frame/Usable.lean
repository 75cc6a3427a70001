import Mathlib.Data.List.Nodup
import SillOS.Core.Generator
import SillOS.Core.TwoPow
import SillOS.Kmem.Frame.Allocator

/-!
# Every usable frame is handed out once

The frames still to come are a list determined by the allocator's position. A
call yields the head of that list and leaves its tail, so the results of repeated
calls are the frames of the usable entries in order, followed by nothing.
-/

namespace SillOS.Frame

/-! ## Frames of an interval and of a memory map -/

/-- The addresses of the frames between two frame-aligned addresses, ascending. -/
def framesBetween (lo hi : Nat) : List Nat := List.range' lo ((hi - lo) / 4096) 4096

/-- The frames that lie wholly inside an entry. -/
def Entry.frames (e : Entry) : List Nat :=
  framesBetween ((e.base.toNat + 4095) / 4096 * 4096)
    ((e.base.toNat + e.length.toNat) / 4096 * 4096)

/-- The frames of the usable entries, in map order. -/
def usableFrames (P : Platform) (map : List Entry) : List Nat :=
  (map.filter fun e => e.type_ = P.memmapUsable).flatMap Entry.frames

private theorem framesBetween_nil {lo hi : Nat} (h : hi ≤ lo) : framesBetween lo hi = [] := by
  rw [framesBetween, Nat.sub_eq_zero_of_le h]
  rfl

private theorem framesBetween_cons {lo hi : Nat} (hlo : 4096 ∣ lo) (hhi : 4096 ∣ hi) (h : lo < hi) :
    framesBetween lo hi = lo :: framesBetween (lo + 4096) hi := by
  have hcount : (hi - lo) / 4096 = (hi - (lo + 4096)) / 4096 + 1 := by omega
  rw [framesBetween, hcount, List.range'_succ]
  rfl

/-- The frames between two of them. -/
theorem mem_framesBetween {lo hi f : Nat} (hlo : 4096 ∣ lo) (hhi : 4096 ∣ hi) :
    f ∈ framesBetween lo hi ↔ 4096 ∣ f ∧ lo ≤ f ∧ f + 4096 ≤ hi := by
  rw [framesBetween, List.mem_range']
  constructor
  · rintro ⟨i, hi, rfl⟩
    omega
  · rintro ⟨hf, hle, hend⟩
    exact ⟨(f - lo) / 4096, by omega, by omega⟩

/-- The frames of an entry are the aligned frames inside it. -/
theorem mem_frames {e : Entry} {f : Nat} :
    f ∈ e.frames ↔ 4096 ∣ f ∧ e.base.toNat ≤ f ∧ f + 4096 ≤ e.base.toNat + e.length.toNat := by
  rw [Entry.frames, mem_framesBetween (Nat.dvd_mul_left _ _) (Nat.dvd_mul_left _ _)]
  omega

/-- The frames of an entry are listed in ascending order. -/
theorem frames_sorted (e : Entry) : e.frames.Pairwise (· < ·) :=
  List.pairwise_lt_range' 4096 (by decide)

/-- Two entries without a common address. -/
def Entry.Disjoint (d e : Entry) : Prop :=
  ∀ x, d.base.toNat ≤ x → x < d.base.toNat + d.length.toNat →
    ¬(e.base.toNat ≤ x ∧ x < e.base.toNat + e.length.toNat)

/-- The usable frames are those that lie within a usable entry. -/
theorem mem_usableFrames {P : Platform} {map : List Entry} {f : Nat} :
    f ∈ usableFrames P map ↔ 4096 ∣ f ∧ ∃ e ∈ map, e.type_ = P.memmapUsable ∧
      e.base.toNat ≤ f ∧ f + 4096 ≤ e.base.toNat + e.length.toNat := by
  simp only [usableFrames, List.mem_flatMap, List.mem_filter, decide_eq_true_eq, mem_frames]
  constructor
  · rintro ⟨e, ⟨he, husable⟩, hf, hlo, hhi⟩
    exact ⟨hf, e, he, husable, hlo, hhi⟩
  · rintro ⟨hf, e, he, husable, hlo, hhi⟩
    exact ⟨e, ⟨he, husable⟩, hf, hlo, hhi⟩

/-- Disjoint usable entries share no frame. -/
theorem usableFrames_nodup {P : Platform} {map : List Entry}
    (h : (map.filter fun e => e.type_ = P.memmapUsable).Pairwise Entry.Disjoint) :
    (usableFrames P map).Nodup := by
  rw [usableFrames, List.nodup_flatMap]
  refine ⟨fun e _ => (frames_sorted e).imp Nat.ne_of_lt, h.imp fun {d e} hde f hfd hfe => ?_⟩
  have hd := mem_frames.mp hfd
  have he := mem_frames.mp hfe
  exact hde f hd.2.1 (by omega) ⟨he.2.1, by omega⟩

/-! ## Address arithmetic -/

private theorem frameSize_toNat : frameSize.toNat = 4096 := rfl

private theorem alignDown_toNat (a : UInt64) :
    (alignDown a frameSize).toNat = a.toNat / 4096 * 4096 := by
  rw [alignDown, UInt64.toNat_and, UInt64.toNat_not]
  exact TwoPow.and_compl_mask (w := 64) (k := 12) a.toNat_lt (by decide)

/-- Rounding up does not overflow on physical addresses. -/
theorem alignUp_toNat {a : UInt64} (h : a.toNat ≤ 2 ^ 52) :
    (alignUp a frameSize).toNat = (a.toNat + 4095) / 4096 * 4096 := by
  have hsum : (a + frameSize - 1).toNat = a.toNat + 4095 := by
    rw [UInt64.toNat_sub_of_le, UInt64.toNat_add]
    · simp [frameSize]
      omega
    · rw [UInt64.le_iff_toNat_le, UInt64.toNat_add]
      simp [frameSize]
      omega
  change (alignDown (a + frameSize - 1) frameSize).toNat = _
  rw [alignDown_toNat, hsum]

private theorem checkedAdd_eq {a b : UInt64} (h : a.toNat + b.toNat ≤ 2 ^ 52) :
    ∃ c, checkedAdd a b = some c ∧ c.toNat = a.toNat + b.toNat := by
  refine ⟨a + b, if_pos (by omega), ?_⟩
  rw [UInt64.toNat_add]
  exact Nat.mod_eq_of_lt (by omega)

/-- The frame of an aligned address starts there. -/
theorem Platform.Documented.containingAddress_toNat {P : Platform} (h : P.Documented) {a : UInt64}
    (ha : 4096 ∣ a.toNat) : (P.containingAddress a).toNat = a.toNat := by
  have hdvd := h.frame_dvd a
  have hle := h.frame_le a
  have hlt := h.lt_frame a
  omega

namespace BootInfoFrameAllocator

variable {P : Platform} {s t : BootInfoFrameAllocator} {region : Entry}

/-- The frames that the current entry still has. -/
def regionPending (P : Platform) (nextFrame : UInt64) (e : Entry) : List Nat :=
  if e.type_ = P.memmapUsable then
    framesBetween
      (if nextFrame = 0 then (e.base.toNat + 4095) / 4096 * 4096 else nextFrame.toNat)
      ((e.base.toNat + e.length.toNat) / 4096 * 4096)
  else []

/-- The frames that have not been handed out. -/
def pending (P : Platform) (s : BootInfoFrameAllocator) : List Nat :=
  match s.memoryMap[s.currentRegion]? with
  | none => []
  | some e =>
    regionPending P s.nextFrame e ++ usableFrames P (s.memoryMap.drop (s.currentRegion + 1))

/-- The frames of one more entry come first. -/
theorem usableFrames_cons (P : Platform) (e : Entry) (es : List Entry) :
    usableFrames P (e :: es) = regionPending P 0 e ++ usableFrames P es := by
  by_cases husable : e.type_ = P.memmapUsable
  · simp [usableFrames, regionPending, husable, Entry.frames]
  · simp [usableFrames, regionPending, husable]

/-- After moving on, the entries behind the current one are pending. -/
theorem pending_nextRegion (P : Platform) (s : BootInfoFrameAllocator) :
    pending P s.nextRegion = usableFrames P (s.memoryMap.drop (s.currentRegion + 1)) := by
  unfold pending nextRegion
  dsimp only
  cases hget : s.memoryMap[s.currentRegion + 1]? with
  | none =>
    rw [List.drop_eq_nil_of_le (List.getElem?_eq_none_iff.mp hget)]
    rfl
  | some e =>
    obtain ⟨hlt, rfl⟩ := List.getElem?_eq_some_iff.mp hget
    rw [List.drop_eq_getElem_cons hlt, usableFrames_cons]

/-- What every position reached on a map satisfies. -/
structure At (map : List Entry) (s : BootInfoFrameAllocator) : Prop where
  /-- The map does not change. -/
  map_eq : s.memoryMap = map
  /-- The position is frame-aligned. -/
  dvd : 4096 ∣ s.nextFrame.toNat

/-- Skipping an entry stays at the map. -/
theorem At.nextRegion {map : List Entry} (h : At map s) : At map s.nextRegion :=
  ⟨h.map_eq, Nat.dvd_zero _⟩

/-- Looking for a usable region skips no pending frame. -/
theorem nextUsableRegion_spec {map : List Entry} {r : Option Entry} (h : At map s)
    (hr : s.nextUsableRegion P = (r, t)) :
    At map t ∧ pending P t = pending P s ∧ (r = none → pending P s = []) ∧
      ∀ e, r = some e → e.type_ = P.memmapUsable ∧ map[t.currentRegion]? = some e := by
  induction s using nextUsableRegion.induct P with
  | case1 s hnone =>
    rw [nextUsableRegion_of_none hnone] at hr
    cases hr
    refine ⟨h, rfl, fun _ => ?_, fun e he => ?_⟩
    · simp only [pending, hnone]
    · cases he
  | case2 s e he husable =>
    rw [nextUsableRegion_of_usable he husable] at hr
    cases hr
    refine ⟨h, rfl, fun hr => ?_, fun e' he' => ?_⟩
    · cases hr
    · cases he'
      exact ⟨husable, h.map_eq ▸ he⟩
  | case3 s e he husable ih =>
    have hskip : pending P s.nextRegion = pending P s := by
      rw [pending_nextRegion]
      simp only [pending, he, regionPending, if_neg husable, List.nil_append]
    rw [nextUsableRegion_of_unusable he husable] at hr
    rw [← hskip]
    exact ih h.nextRegion hr

private theorem allocateFrame_of_none (h : s.nextUsableRegion P = (none, t)) :
    s.allocateFrame P = some (none, t) := by
  rw [allocateFrame]
  split <;> simp_all

private theorem allocateFrame_of_some {last : UInt64} (h : s.nextUsableRegion P = (some region, t))
    (hadd : checkedAdd region.base region.length = some last) :
    s.allocateFrame P =
      let nextFrame := if t.nextFrame = 0 then alignUp region.base frameSize else t.nextFrame
      if nextFrame < alignDown last frameSize then
        (P.physAddrNew nextFrame).bind fun addr =>
          some (some (P.containingAddress addr), { t with nextFrame := nextFrame + frameSize })
      else t.nextRegion.allocateFrame P := by
  rw [allocateFrame]
  split
  · simp_all
  · rename_i region' t' h'
    rw [h] at h'
    cases h'
    simp only [hadd]
    rfl

/-- The frames pending in a started region run from the next frame to its end. -/
private theorem pending_started {map : List Entry} {last next : UInt64} (h : At map t)
    (hget : map[t.currentRegion]? = some region) (husable : region.type_ = P.memmapUsable)
    (hbound : region.base.toNat + region.length.toNat ≤ 2 ^ 52)
    (hlast : last.toNat = region.base.toNat + region.length.toNat)
    (hnext : next = if t.nextFrame = 0 then alignUp region.base frameSize else t.nextFrame) :
    pending P t = framesBetween next.toNat (alignDown last frameSize).toNat ++
        usableFrames P (map.drop (t.currentRegion + 1)) ∧
      4096 ∣ next.toNat ∧ 4096 ∣ (alignDown last frameSize).toNat := by
  have hup := alignUp_toNat (a := region.base) (by omega)
  have hdown := alignDown_toNat last
  have hdvd := h.dvd
  rw [← h.map_eq] at hget ⊢
  simp only [pending, hget, regionPending, husable, if_true]
  by_cases hzero : t.nextFrame = 0
  · rw [if_pos hzero] at hnext ⊢
    rw [hnext, hup, hdown, hlast]
    exact ⟨rfl, Nat.dvd_mul_left _ _, Nat.dvd_mul_left _ _⟩
  · rw [if_neg hzero] at hnext ⊢
    rw [hnext, hdown, hlast]
    exact ⟨rfl, hdvd, Nat.dvd_mul_left _ _⟩

/-- A call yields the first pending frame and leaves the others. -/
theorem allocateFrame_spec (hP : P.Documented) {map : List Entry}
    (hbound : ∀ e ∈ map, e.type_ = P.memmapUsable → e.base.toNat + e.length.toNat ≤ 2 ^ 52)
    (h : At map s) :
    ∃ r t, s.allocateFrame P = some (r, t) ∧ At map t ∧
      r.map UInt64.toNat = (pending P s).head? ∧ pending P t = (pending P s).tail := by
  induction s using allocateFrame.induct P with
  | case1 s t hnone =>
    obtain ⟨hat, hpending, hnil, _⟩ := nextUsableRegion_spec h hnone
    refine ⟨none, t, allocateFrame_of_none hnone, hat, ?_, ?_⟩
    · rw [hnil rfl]
      rfl
    · rw [hpending, hnil rfl]
      rfl
  | case2 s region t hsome hadd =>
    obtain ⟨_, _, _, hregion⟩ := nextUsableRegion_spec h hsome
    obtain ⟨husable, hget⟩ := hregion region rfl
    obtain ⟨c, hc, _⟩ := checkedAdd_eq (hbound region (List.mem_of_getElem? hget) husable)
    rw [hadd] at hc
    cases hc
  | case3 s region t hsome start last hadd stop next hlt =>
    obtain ⟨hat, hpending, _, hregion⟩ := nextUsableRegion_spec h hsome
    obtain ⟨husable, hget⟩ := hregion region rfl
    have hle := hbound region (List.mem_of_getElem? hget) husable
    obtain ⟨c, hc, hlast⟩ := checkedAdd_eq hle
    rw [hadd] at hc
    cases hc
    have hnext : next = if t.nextFrame = 0 then alignUp region.base frameSize else t.nextFrame :=
      rfl
    have hstop : stop = alignDown last frameSize := rfl
    have hdown := alignDown_toNat last
    obtain ⟨hstarted, hdvd, hdvd'⟩ := pending_started hat hget husable hle hlast hnext
    have hcall := allocateFrame_of_some hsome hadd
    simp only [← hnext, ← hstop] at hcall
    rw [← hstop] at hstarted hdvd' hdown
    clear_value next stop
    have hlt' : next.toNat < stop.toNat := UInt64.lt_iff_toNat_lt.mp hlt
    have hsucc : (next + frameSize).toNat = next.toNat + 4096 := by
      rw [UInt64.toNat_add, frameSize_toNat]
      exact Nat.mod_eq_of_lt (by omega)
    have hne : next + frameSize ≠ 0 := by
      intro hzero
      rw [hzero] at hsucc
      simp at hsucc
    rw [if_pos hlt, hP.physAddrNew_eq next (by omega), Option.bind_some] at hcall
    rw [framesBetween_cons hdvd hdvd' hlt'] at hstarted
    rw [← hpending, hstarted]
    refine ⟨_, _, hcall, ⟨hat.map_eq, ?_⟩, ?_, ?_⟩
    · rw [hsucc]
      exact Nat.dvd_add_self_right.mpr hdvd
    · rw [Option.map_some, hP.containingAddress_toNat hdvd]
      rfl
    · rw [← hat.map_eq] at hget ⊢
      rw [hlast] at hdown
      rw [List.cons_append, List.tail_cons, pending]
      simp only [hget, regionPending, husable, if_true, if_neg hne, hsucc, ← hdown]
  | case4 s region t hsome start last hadd stop next hge ih =>
    obtain ⟨hat, hpending, _, hregion⟩ := nextUsableRegion_spec h hsome
    obtain ⟨husable, hget⟩ := hregion region rfl
    have hle := hbound region (List.mem_of_getElem? hget) husable
    obtain ⟨c, hc, hlast⟩ := checkedAdd_eq hle
    rw [hadd] at hc
    cases hc
    have hnext : next = if t.nextFrame = 0 then alignUp region.base frameSize else t.nextFrame :=
      rfl
    obtain ⟨hstarted, _, _⟩ := pending_started hat hget husable hle hlast hnext
    have hge' : stop.toNat ≤ next.toNat :=
      Nat.not_lt.mp fun hlt => hge (UInt64.lt_iff_toNat_lt.mpr hlt)
    have hsame : pending P t.nextRegion = pending P s := by
      rw [← hpending, hstarted, framesBetween_nil hge', pending_nextRegion, hat.map_eq]
      rfl
    obtain ⟨r, u, hu, hat', hhead, htail⟩ := ih hat.nextRegion
    rw [hsame] at hhead htail
    refine ⟨r, u, ?_, hat', hhead, htail⟩
    rw [allocateFrame_of_some hsome hadd]
    exact (if_neg hge).trans hu

/-- A fresh allocator has every usable frame pending. -/
theorem pending_new (P : Platform) (map : List Entry) :
    pending P (new map) = usableFrames P map := by
  cases map with
  | nil => rfl
  | cons e es => exact (usableFrames_cons P e es).symm

end BootInfoFrameAllocator

open BootInfoFrameAllocator in
/-- Any number of calls return the frames of the usable entries in map order,
ascending inside an entry, and then nothing. When usable entries are disjoint these
are the aligned frames inside some usable entry, each once. -/
theorem allocateFrame_exhaustive (P : Platform) (hP : P.Documented) (map : List Entry)
    (hdisjoint : (map.filter fun e => e.type_ = P.memmapUsable).Pairwise Entry.Disjoint)
    (hbound : ∀ e ∈ map, e.type_ = P.memmapUsable → e.base.toNat + e.length.toNat ≤ 2 ^ 52) :
    (∀ n, ∃ results t, Generator.calls (allocateFrame P) n (new map) = some (results, t) ∧
      results.map (Option.map UInt64.toNat) =
        (List.range n).map fun i => (usableFrames P map)[i]?) ∧
    (usableFrames P map).Nodup ∧
    (∀ f, f ∈ usableFrames P map ↔ 4096 ∣ f ∧ ∃ e ∈ map, e.type_ = P.memmapUsable ∧
      e.base.toNat ≤ f ∧ f + 4096 ≤ e.base.toNat + e.length.toNat) ∧
    ∀ e ∈ map, e.frames.Pairwise (· < ·) := by
  refine ⟨fun n => ?_, usableFrames_nodup hdisjoint, fun f => mem_usableFrames,
    fun e _ => frames_sorted e⟩
  have hnext : ∀ s, At map s → ∃ r t, allocateFrame P s = some (r, t) ∧ At map t ∧
      r.map UInt64.toNat = (pending P s).head? ∧ pending P t = (pending P s).tail :=
    fun s h => allocateFrame_spec hP hbound h
  obtain ⟨results, t, hcalls, _, hresults⟩ :=
    Generator.calls_of_pending hnext n (s := new map) ⟨rfl, Nat.dvd_zero _⟩
  rw [pending_new] at hresults
  exact ⟨results, t, hcalls, hresults⟩

/-- A paging library that behaves as documented. -/
def pagedPlatform : Platform where
  memmapUsable := 0
  physAddrNew a := if a.toNat < 2 ^ 52 then some a else none
  containingAddress a := alignDown a frameSize

/-- Such a platform is one that the code relies on. -/
theorem pagedPlatform_documented : pagedPlatform.Documented where
  physAddrNew_eq a ha := if_pos ha
  frame_dvd a := alignDown_toNat a ▸ Nat.dvd_mul_left _ _
  frame_le a := alignDown_toNat a ▸ Nat.div_mul_le_self _ _
  lt_frame a := by
    have hdown := alignDown_toNat a
    simp only [pagedPlatform]
    omega

/-- A map with an entry at address 0, a reserved, a short and an unaligned entry. -/
def mixedMap : List Entry :=
  [⟨0, 0x2000, 0⟩, ⟨0x2000, 0x1000, 1⟩, ⟨0x3001, 0x800, 0⟩, ⟨0x4100, 0x2000, 0⟩]

/-- Five calls on the mixed map return its three usable frames. -/
theorem allocateFrame_mixedMap :
    ∃ results t, Generator.calls (BootInfoFrameAllocator.allocateFrame pagedPlatform) 5
        (BootInfoFrameAllocator.new mixedMap) = some (results, t) ∧
      results.map (Option.map UInt64.toNat) =
        [some 0, some 0x1000, some 0x5000, none, none] := by
  have hdisjoint : (mixedMap.filter fun e => e.type_ = pagedPlatform.memmapUsable).Pairwise
      Entry.Disjoint := by
    have husable : (mixedMap.filter fun e => e.type_ = pagedPlatform.memmapUsable) =
        [⟨0, 0x2000, 0⟩, ⟨0x3001, 0x800, 0⟩, ⟨0x4100, 0x2000, 0⟩] := by decide
    simp only [husable, Entry.Disjoint, List.pairwise_cons, List.forall_mem_cons,
      UInt64.reduceToNat]
    refine ⟨⟨fun x => ?_, fun x => ?_, by simp⟩, ⟨fun x => ?_, by simp⟩, by simp⟩ <;> omega
  have hframes : usableFrames pagedPlatform mixedMap = [0, 0x1000, 0x5000] := by decide
  obtain ⟨results, t, hcalls, hresults⟩ := (allocateFrame_exhaustive pagedPlatform
    pagedPlatform_documented mixedMap hdisjoint (by decide)).1 5
  rw [hframes] at hresults
  exact ⟨results, t, hcalls, hresults⟩

end SillOS.Frame

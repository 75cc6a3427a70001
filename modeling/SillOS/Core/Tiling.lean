import Mathlib.Data.List.Pairwise
import Mathlib.Data.List.Perm.Basic
import Mathlib.Logic.Function.Basic

/-!
# Tilings of an interval, by counting

A list of half-open spans tiles an interval when every point of the interval
lies in exactly one span and no other point lies in any. Stated as a count, the
property is additive: splitting, joining and reordering spans are equations
between counts, and disjointness and coverage are read off at the end.
-/

namespace Tiling

/-- The half-open interval `[start, start + size)`. -/
structure Span where
  /-- First point of the span. -/
  start : Nat
  /-- Number of points of the span. -/
  size : Nat
  deriving DecidableEq, Repr

instance : Membership Nat Span := ⟨fun b x => b.start ≤ x ∧ x < b.start + b.size⟩

/-- A span holds the addresses from its start to before its end. -/
theorem Span.mem_iff {b : Span} {x : Nat} : x ∈ b ↔ b.start ≤ x ∧ x < b.start + b.size := Iff.rfl

instance (x : Nat) (b : Span) : Decidable (x ∈ b) :=
  inferInstanceAs (Decidable (b.start ≤ x ∧ x < b.start + b.size))

/-- Two spans without a common point. -/
def Span.Disjoint (b c : Span) : Prop := ∀ x, x ∈ b → x ∉ c

/-- Disjointness is symmetric. -/
theorem Span.Disjoint.symm {b c : Span} (h : b.Disjoint c) : c.Disjoint b :=
  fun x hc hb => h x hb hc

instance : Std.Symm Span.Disjoint := ⟨fun _ _ h => h.symm⟩

/-- Two different spans of a disjoint list. -/
theorem disjoint_of_mem {bs : List Span} (h : bs.Pairwise Span.Disjoint) {b c : Span}
    (hb : b ∈ bs) (hc : c ∈ bs) (hne : b ≠ c) : b.Disjoint c := h.forall hb hc hne

/-- The number of spans of the list that contain `x`. -/
def cover (bs : List Span) (x : Nat) : Nat := bs.countP fun b => decide (x ∈ b)

/-- No spans cover nothing. -/
@[simp] theorem cover_nil (x : Nat) : cover [] x = 0 := rfl

/-- One more span covers its addresses once more. -/
theorem cover_cons (b : Span) (bs : List Span) (x : Nat) :
    cover (b :: bs) x = (if x ∈ b then 1 else 0) + cover bs x := by
  simp only [cover, List.countP_cons, decide_eq_true_eq]
  exact Nat.add_comm _ _

/-- Covers add up. -/
@[simp] theorem cover_append (bs cs : List Span) (x : Nat) :
    cover (bs ++ cs) x = cover bs x + cover cs x := List.countP_append

/-- The order of the spans does not matter. -/
theorem cover_perm {bs cs : List Span} (h : bs.Perm cs) (x : Nat) : cover bs x = cover cs x :=
  h.countP_eq _

/-- What is covered lies in a span. -/
theorem cover_pos_iff {bs : List Span} {x : Nat} : 0 < cover bs x ↔ ∃ b ∈ bs, x ∈ b := by
  simp only [cover, List.countP_pos_iff, decide_eq_true_eq]

/-- A span is covered like its two parts. -/
theorem cover_split (a n m x : Nat) :
    cover [⟨a, n + m⟩] x = cover [⟨a, n⟩, ⟨a + n, m⟩] x := by
  simp only [cover_cons, cover_nil, Span.mem_iff]
  split <;> split <;> split <;> omega

private theorem cover_flatMap_congr {ι : Type*} {f g : ι → List Span} {ks : List ι}
    (h : ∀ k ∈ ks, g k = f k) (x : Nat) : cover (ks.flatMap g) x = cover (ks.flatMap f) x := by
  rw [List.flatMap_congr h]

/-- Exchanging the spans filed under one key changes the count by just these spans. -/
theorem cover_flatMap_update {ι : Type*} [DecidableEq ι] (f : ι → List Span) {ks : List ι}
    (hnodup : ks.Nodup) {k : ι} (hk : k ∈ ks) (bs : List Span) (x : Nat) :
    cover (ks.flatMap (Function.update f k bs)) x + cover (f k) x =
      cover (ks.flatMap f) x + cover bs x := by
  induction ks with
  | nil => simp at hk
  | cons i ks ih =>
    obtain ⟨hi, hks⟩ := List.nodup_cons.mp hnodup
    simp only [List.flatMap_cons, cover_append]
    rcases List.mem_cons.mp hk with rfl | hk
    · have hrest : cover (ks.flatMap (Function.update f k bs)) x = cover (ks.flatMap f) x :=
        cover_flatMap_congr (fun j hj => Function.update_of_ne (ne_of_mem_of_not_mem hj hi) _ _) x
      rw [Function.update_self, hrest]
      omega
    · have hik : i ≠ k := (ne_of_mem_of_not_mem hk hi).symm
      have hrest := ih hks hk
      rw [Function.update_of_ne hik]
      omega

/-- Spans are pairwise disjoint exactly when no point is covered twice. -/
theorem pairwise_disjoint_iff {bs : List Span} :
    bs.Pairwise Span.Disjoint ↔ ∀ x, cover bs x ≤ 1 := by
  induction bs with
  | nil => simp
  | cons b bs ih =>
    rw [List.pairwise_cons, ih]
    constructor
    · rintro ⟨hb, hbs⟩ x
      rw [cover_cons]
      by_cases hx : x ∈ b
      · have hz : cover bs x = 0 := by
          by_contra hne
          obtain ⟨c, hc, hxc⟩ := cover_pos_iff.mp (Nat.pos_of_ne_zero hne)
          exact hb c hc x hx hxc
        simp [hx, hz]
      · simpa [hx] using hbs x
    · intro h
      refine ⟨fun c hc x hxb hxc => ?_, fun x => ?_⟩
      · have hx := h x
        rw [cover_cons, if_pos hxb] at hx
        have hpos : 0 < cover bs x := cover_pos_iff.mpr ⟨c, hc, hxc⟩
        omega
      · have hx := h x
        rw [cover_cons] at hx
        omega

/-- Every point of `[lo, hi)` lies in exactly one span, every other point in none. -/
def Tiles (bs : List Span) (lo hi : Nat) : Prop :=
  ∀ x, cover bs x = if lo ≤ x ∧ x < hi then 1 else 0

/-- Tiling is disjointness together with exact coverage. -/
theorem tiles_iff {bs : List Span} {lo hi : Nat} :
    Tiles bs lo hi ↔
      bs.Pairwise Span.Disjoint ∧ ∀ x, (∃ b ∈ bs, x ∈ b) ↔ lo ≤ x ∧ x < hi := by
  rw [pairwise_disjoint_iff]
  constructor
  · intro h
    refine ⟨fun x => ?_, fun x => ?_⟩
    · rw [h x]
      split <;> omega
    · rw [← cover_pos_iff, h x]
      split <;> simp_all
  · rintro ⟨hle, hcov⟩ x
    have hx := hle x
    have hpos := cover_pos_iff.trans (hcov x)
    split <;> omega

section Consequences

variable {bs : List Span} {lo hi : Nat}

/-- Only the counts matter. -/
theorem Tiles.of_cover_eq {cs : List Span} (h : Tiles bs lo hi)
    (hc : ∀ x, cover cs x = cover bs x) : Tiles cs lo hi :=
  fun x => (hc x).trans (h x)

/-- Tiles are disjoint. -/
theorem Tiles.disjoint (h : Tiles bs lo hi) : bs.Pairwise Span.Disjoint := (tiles_iff.mp h).1

/-- A span of a tiling stays inside the tiled interval. -/
theorem Tiles.bounds (h : Tiles bs lo hi) {b : Span} (hb : b ∈ bs) {x : Nat} (hx : x ∈ b) :
    lo ≤ x ∧ x < hi := ((tiles_iff.mp h).2 x).mp ⟨b, hb, hx⟩

/-- Every point of the tiled interval lies in some span. -/
theorem Tiles.exists_mem (h : Tiles bs lo hi) {x : Nat} (hlo : lo ≤ x) (hhi : x < hi) :
    ∃ b ∈ bs, x ∈ b := ((tiles_iff.mp h).2 x).mpr ⟨hlo, hhi⟩

/-- Two listed spans with a common point are the same span. -/
theorem Tiles.eq_of_mem (h : Tiles bs lo hi) {b c : Span} (hb : b ∈ bs) (hc : c ∈ bs) {x : Nat}
    (hxb : x ∈ b) (hxc : x ∈ c) : b = c := by
  by_contra hne
  have hce : c ∈ bs.erase b := (List.mem_erase_of_ne (Ne.symm hne)).mpr hc
  have hpos : 0 < cover (bs.erase b) x := cover_pos_iff.mpr ⟨c, hce, hxc⟩
  have hle := pairwise_disjoint_iff.mp h.disjoint x
  rw [cover_perm (List.perm_cons_erase hb), cover_cons, if_pos hxb] at hle
  omega

/-- Nonempty spans are listed once. -/
theorem Tiles.nodup (h : Tiles bs lo hi) (hpos : ∀ b ∈ bs, 0 < b.size) : bs.Nodup := by
  refine h.disjoint.imp_of_mem fun {b c} hb _ hd he => ?_
  have hmem : b.start ∈ b := ⟨Nat.le_refl _, Nat.lt_add_of_pos_right (hpos b hb)⟩
  exact hd b.start hmem (he ▸ hmem)

end Consequences

end Tiling

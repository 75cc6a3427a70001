import SillOS.Core.Tiling

/-!
# Packings of an interval

A list of spans packs an interval when no point lies in two of them and none of them
leaves the interval. Unlike a tiling, a packing may have gaps: spans can be dropped or
cut down. How much is missing is measured by the total size.
-/

namespace Tiling

variable {bs cs : List Span} {lo hi : Nat}

/-- Every point of `[lo, hi)` lies in at most one span, every other point in none. -/
def Packs (bs : List Span) (lo hi : Nat) : Prop :=
  ∀ x, cover bs x ≤ if lo ≤ x ∧ x < hi then 1 else 0

/-- Packing is disjointness inside the interval. -/
theorem packs_iff :
    Packs bs lo hi ↔ bs.Pairwise Span.Disjoint ∧ ∀ b ∈ bs, ∀ x ∈ b, lo ≤ x ∧ x < hi := by
  rw [pairwise_disjoint_iff]
  constructor
  · intro h
    refine ⟨fun x => ?_, fun b hb x hx => ?_⟩
    · have hle := h x
      split at hle <;> omega
    · have hpos : 0 < cover bs x := cover_pos_iff.mpr ⟨b, hb, hx⟩
      have hle := h x
      by_contra hout
      rw [if_neg hout] at hle
      omega
  · rintro ⟨hle, hin⟩ x
    split
    · exact hle x
    · rename_i hout
      by_contra hpos
      obtain ⟨b, hb, hx⟩ := cover_pos_iff.mp (Nat.lt_of_not_le hpos)
      exact hout (hin b hb x hx)

/-- Covering less keeps a packing. -/
theorem Packs.mono (h : Packs bs lo hi) (hc : ∀ x, cover cs x ≤ cover bs x) : Packs cs lo hi :=
  fun x => Nat.le_trans (hc x) (h x)

/-- The order of the pieces does not matter. -/
theorem Packs.perm (h : Packs bs lo hi) (hp : cs.Perm bs) : Packs cs lo hi :=
  h.mono fun x => Nat.le_of_eq (cover_perm hp x)

/-- Two spans at different places of a packing share no point. -/
theorem Packs.not_mem {b c : Span} {x : Nat} (h : Packs (b :: bs) lo hi) (hx : x ∈ b)
    (hc : c ∈ bs) : x ∉ c :=
  (List.pairwise_cons.mp (packs_iff.mp h).1).1 c hc x hx

/-- A piece lies within the bounds. -/
theorem Packs.bounds {b : Span} (h : Packs bs lo hi) (hb : b ∈ bs) (hpos : 0 < b.size) :
    lo ≤ b.start ∧ b.start + b.size ≤ hi := by
  have hin := (packs_iff.mp h).2 b hb
  have hfirst := hin b.start ⟨Nat.le_refl _, by omega⟩
  have hlast := hin (b.start + b.size - 1) ⟨by omega, by omega⟩
  omega

/-- Two adjacent spans inside a span cover less than it. -/
theorem cover_inside_le {r : Span} {a n m : Nat} (hlo : r.start ≤ a)
    (hhi : a + n + m ≤ r.start + r.size) (x : Nat) :
    cover [⟨a, n⟩, ⟨a + n, m⟩] x ≤ cover [r] x := by
  simp only [cover_cons, cover_nil, Span.mem_iff]
  split_ifs <;> omega

/-! ## Cutting spans into pieces -/

/-- The span lies in the other. -/
def Span.Inside (b c : Span) : Prop := c.start ≤ b.start ∧ b.start + b.size ≤ c.start + c.size

/-- Every span lies in a single one of the others. -/
def Finer (bs cs : List Span) : Prop := ∀ b ∈ bs, ∃ c ∈ cs, b.Inside c

/-- Pieces are as fine as themselves. -/
theorem Finer.refl (bs : List Span) : Finer bs bs :=
  fun b hb => ⟨b, hb, Nat.le_refl _, Nat.le_refl _⟩

/-- Finer than finer is finer. -/
theorem Finer.trans {ds : List Span} (h : Finer bs cs) (h' : Finer cs ds) : Finer bs ds := by
  intro b hb
  obtain ⟨c, hc, hbc⟩ := h b hb
  obtain ⟨d, hd, hcd⟩ := h' c hc
  exact ⟨d, hd, Nat.le_trans hcd.1 hbc.1, Nat.le_trans hbc.2 hcd.2⟩

/-- The order of the pieces does not matter. -/
theorem Finer.of_perm (h : bs.Perm cs) : Finer bs cs :=
  fun b hb => ⟨b, h.subset hb, Nat.le_refl _, Nat.le_refl _⟩

/-- No piece is larger than the largest span that was cut. -/
theorem Finer.size_lt (h : Finer bs cs) {n : Nat} (hn : ∀ c ∈ cs, c.size < n) :
    ∀ b ∈ bs, b.size < n := by
  intro b hb
  obtain ⟨c, hc, hlo, hhi⟩ := h b hb
  have := hn c hc
  omega

/-! ## Sizes -/

/-- The sum of the sizes. -/
def total : List Span → Nat
  | [] => 0
  | b :: bs => b.size + total bs

/-- No spans have no size. -/
@[simp] theorem total_nil : total [] = 0 := rfl

/-- One more span adds its size. -/
@[simp] theorem total_cons (b : Span) (bs : List Span) : total (b :: bs) = b.size + total bs := rfl

/-- Totals add up. -/
@[simp] theorem total_append (bs cs : List Span) : total (bs ++ cs) = total bs + total cs := by
  induction bs with
  | nil => exact (Nat.zero_add _).symm
  | cons b bs ih => rw [List.cons_append, total_cons, total_cons, ih, Nat.add_assoc]

/-- Nor does it for the total. -/
theorem total_perm (h : bs.Perm cs) : total bs = total cs := by
  induction h with
  | nil => rfl
  | cons b _ ih => rw [total_cons, total_cons, ih]
  | swap b c l => exact Nat.add_left_comm _ _ _
  | trans _ _ ih ih' => exact ih.trans ih'

end Tiling

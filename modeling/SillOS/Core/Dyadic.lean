import Mathlib.Data.Set.Basic
import SillOS.Core.TwoPow

/-!
# Families of aligned ranges without complete pairs

A family of disjoint ranges `[b, b + 2 ^ j)`, each aligned to its size or to
`2 ^ d`, that never holds both halves of a pair below `d`. What such a family
covers determines its members below `d`: they are the largest aligned ranges
that are covered.
-/

namespace TwoPow

/-- A family of disjoint aligned ranges of orders up to `top`, without complete
pairs below order `d`. -/
structure Coalesced (S : Nat → Nat → Prop) (d top : Nat) : Prop where
  /-- No range is larger than the top order. -/
  order_le : ∀ {j b}, S j b → j ≤ top
  /-- Ranges are aligned to their size or to `2 ^ d`. -/
  dvd : ∀ {j b}, S j b → 2 ^ min j d ∣ b
  /-- Ranges that meet are one. -/
  unique : ∀ {i j b c x}, S i b → S j c → b ≤ x → x < b + 2 ^ i → c ≤ x → x < c + 2 ^ j →
    i = j ∧ b = c
  /-- Below order `d` at most one half of a pair is in the family. -/
  single : ∀ {j b}, S j b → j < d → j < top → ¬S j (b ^^^ 2 ^ j)

/-- Every number in the range of order `k` from `a` is in a range of the family. -/
def Covered (S : Nat → Nat → Prop) (k a : Nat) : Prop :=
  ∀ x, a ≤ x → x < a + 2 ^ k → ∃ j b, S j b ∧ b ≤ x ∧ x < b + 2 ^ j

/-- An aligned range that meets a union of such ranges lies in it. -/
theorem inside_of_dvd {a b k j x : Nat} (ha : 2 ^ k ∣ a) (hb : 2 ^ k ∣ b) (hkj : k ≤ j)
    (hxa : a ≤ x ∧ x < a + 2 ^ k) (hxb : b ≤ x ∧ x < b + 2 ^ j) :
    b ≤ a ∧ a + 2 ^ k ≤ b + 2 ^ j := by
  obtain ⟨d, rfl⟩ := Nat.exists_eq_add_of_le hkj
  obtain ⟨q, rfl⟩ := ha
  obtain ⟨r, rfl⟩ := hb
  rw [pow_add] at *
  have hlo : r ≤ q := by
    by_contra hlt
    have := Nat.mul_le_mul_left (2 ^ k) (Nat.not_le.mp hlt)
    rw [Nat.mul_succ] at this
    omega
  have hhi : q + 1 ≤ r + 2 ^ d := by
    by_contra hlt
    have := Nat.mul_le_mul_left (2 ^ k) (Nat.le_of_lt_succ (Nat.not_le.mp hlt))
    rw [Nat.mul_add] at this
    omega
  have h1 := Nat.mul_le_mul_left (2 ^ k) hlo
  have h2 := Nat.mul_le_mul_left (2 ^ k) hhi
  rw [Nat.mul_add, Nat.mul_add, Nat.mul_one] at h2
  exact ⟨h1, h2⟩

/-- Two halves that are covered cover their pair. -/
theorem covered_pair {S : Nat → Nat → Prop} {k a : Nat} (ha : Covered S k a)
    (hb : Covered S k (a ^^^ 2 ^ k)) : Covered S (k + 1) (min a (a ^^^ 2 ^ k)) := by
  have hadjacent := (xor_cases a k).imp And.right And.right
  generalize a ^^^ 2 ^ k = b at hb hadjacent
  intro x hlo hhi
  rw [pow_succ] at hhi
  by_cases hx : a ≤ x ∧ x < a + 2 ^ k
  · exact ha x hx.1 hx.2
  · exact hb x (by omega) (by omega)

namespace Coalesced

variable {S : Nat → Nat → Prop} {d top k a : Nat}

/-- An aligned range that is covered lies in a single range of the family. -/
theorem exists_single (h : Coalesced S d top) (hkd : k ≤ d) (hk : k ≤ top) (ha : 2 ^ k ∣ a)
    (hcover : Covered S k a) : ∃ j b, k ≤ j ∧ S j b ∧ b ≤ a ∧ a + 2 ^ k ≤ b + 2 ^ j := by
  by_contra hno
  have hsmall : ∀ x, a ≤ x → x < a + 2 ^ k →
      ∃ j b, S j b ∧ j < k ∧ 2 ^ j ∣ b ∧ b ≤ x ∧ x < b + 2 ^ j := by
    intro x hlo hhi
    obtain ⟨j, b, hb, hbx, hxb⟩ := hcover x hlo hhi
    have hdvd := h.dvd hb
    have hjk : j < k := by
      by_contra hge
      have hkj : k ≤ j := Nat.not_lt.mp hge
      have hb' : 2 ^ k ∣ b := Nat.dvd_trans (Nat.pow_dvd_pow 2 (by omega)) hdvd
      exact hno ⟨j, b, hkj, hb, inside_of_dvd ha hb' hkj ⟨hlo, hhi⟩ ⟨hbx, hxb⟩⟩
    rw [Nat.min_eq_left (by omega)] at hdvd
    exact ⟨j, b, hb, hjk, hdvd, hbx, hxb⟩
  obtain ⟨j, b, hjk, hb, hb'⟩ := exists_buddies ha hsmall h.unique
  exact h.single hb (by omega) (by omega) hb'

/-- The members of an order are the aligned ranges that are covered while their
other half is not. -/
theorem mem_iff (h : Coalesced S d top) (hk : k ≤ top) (hd : min (k + 1) top ≤ d) :
    S k a ↔ 2 ^ k ∣ a ∧ Covered S k a ∧ (k < top → ¬Covered S k (a ^^^ 2 ^ k)) := by
  have hkd : k ≤ d := by omega
  have hpos : 0 < 2 ^ k := Nat.two_pow_pos k
  constructor
  · intro ha
    have hdvd := h.dvd ha
    rw [Nat.min_eq_left hkd] at hdvd
    have hcover : Covered S k a := fun x hlo hhi => ⟨k, a, ha, hlo, hhi⟩
    refine ⟨hdvd, hcover, fun hlt hother => ?_⟩
    obtain ⟨j, b, hkj, hb, hlo, hhi⟩ :=
      h.exists_single (by omega) hlt (dvd_min_xor hdvd) (covered_pair hcover hother)
    -- The range around the pair would meet the member that is one half of it.
    rw [pow_succ] at hhi
    have hadjacent := (xor_cases a k).imp And.right And.right
    have hsame := h.unique ha hb (Nat.le_refl a) (by omega) (by omega) (by omega)
    omega
  · rintro ⟨hdvd, hcover, hmax⟩
    obtain ⟨j, b, hkj, hb, hlo, hhi⟩ := h.exists_single hkd hk hdvd hcover
    rcases Nat.eq_or_lt_of_le hkj with rfl | hlt
    · obtain rfl : b = a := by omega
      exact hb
    · -- A larger range around the range would cover its pair.
      have htop := h.order_le hb
      have hpair := dvd_min_xor hdvd
      have hb' : 2 ^ (k + 1) ∣ b := Nat.dvd_trans (Nat.pow_dvd_pow 2 (by omega)) (h.dvd hb)
      have hadjacent := (xor_cases a k).imp And.right And.right
      have hinside := inside_of_dvd hpair hb' hlt (x := a) (by rw [pow_succ]; omega) (by omega)
      rw [pow_succ] at hinside
      refine absurd (fun x hx hx' => ?_) (hmax (by omega))
      exact ⟨j, b, hb, by omega, by omega⟩

end Coalesced

end TwoPow

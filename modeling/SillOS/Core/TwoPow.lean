import Mathlib.Data.Nat.Bitwise

/-!
# Flipping one bit, and aligned power-of-two ranges

Flipping bit `k` of a number moves it by exactly `2 ^ k`, up or down. For a
multiple of `2 ^ k` this pairs the two halves of an aligned range of twice the
size, whatever aligned larger range that pair lies in.
-/

namespace TwoPow

/-- Flipping a bit adds its value when it is clear and subtracts it when it is set. -/
theorem xor_eq (n k : Nat) :
    n ^^^ 2 ^ k = if n / 2 ^ k % 2 = 1 then n - 2 ^ k else n + 2 ^ k := by
  have hpos : 0 < 2 ^ k := Nat.two_pow_pos k
  have hdiv : (n ^^^ 2 ^ k) / 2 ^ k = n / 2 ^ k ^^^ 1 := by
    rw [Nat.xor_div_two_pow, Nat.div_self hpos]
  have hmod : (n ^^^ 2 ^ k) % 2 ^ k = n % 2 ^ k := by
    rw [Nat.xor_mod_two_pow, Nat.mod_self, Nat.xor_zero]
  have hl := Nat.div_add_mod (n ^^^ 2 ^ k) (2 ^ k)
  have hr := Nat.div_add_mod n (2 ^ k)
  rw [hdiv, hmod] at hl
  split
  · rename_i h
    rw [Nat.xor_one_of_odd (Nat.odd_iff.mpr h), Nat.mul_sub, Nat.mul_one] at hl
    have hq : 0 < n / 2 ^ k := Nat.pos_of_ne_zero fun h0 => by simp [h0] at h
    have hle : 2 ^ k ≤ 2 ^ k * (n / 2 ^ k) := Nat.le_mul_of_pos_right _ hq
    omega
  · rename_i h
    have heven := (Nat.mod_two_eq_zero_or_one _).resolve_right h
    rw [Nat.xor_one_of_even (Nat.even_iff.mpr heven), Nat.mul_add, Nat.mul_one] at hl
    omega

/-- The two possible effects of flipping a bit, with the guard of the subtraction. -/
theorem xor_cases (n k : Nat) :
    n / 2 ^ k % 2 = 0 ∧ n ^^^ 2 ^ k = n + 2 ^ k ∨
      n / 2 ^ k % 2 = 1 ∧ 2 ^ k ≤ n ∧ n ^^^ 2 ^ k = n - 2 ^ k := by
  rw [xor_eq]
  by_cases h : n / 2 ^ k % 2 = 1
  · have hdiv : 0 < n / 2 ^ k := Nat.pos_of_ne_zero fun h0 => by simp [h0] at h
    exact Or.inr ⟨h, (Nat.div_pos_iff.mp hdiv).2, if_pos h⟩
  · exact Or.inl ⟨(Nat.mod_two_eq_zero_or_one _).resolve_right h, if_neg h⟩

/-- The bit of an aligned number decides whether it is aligned once more. -/
theorem dvd_succ_iff {a k : Nat} (ha : 2 ^ k ∣ a) : 2 ^ (k + 1) ∣ a ↔ a / 2 ^ k % 2 = 0 := by
  obtain ⟨q, rfl⟩ := ha
  rw [Nat.mul_div_cancel_left q (Nat.two_pow_pos k), pow_succ,
    Nat.mul_dvd_mul_iff_left (Nat.two_pow_pos k), Nat.dvd_iff_mod_eq_zero]

/-- The lower of two halves paired by a bit flip is aligned to the pair. -/
theorem dvd_min_xor {a k : Nat} (ha : 2 ^ k ∣ a) : 2 ^ (k + 1) ∣ min a (a ^^^ 2 ^ k) := by
  rcases xor_cases a k with ⟨h, he⟩ | ⟨h, hle, he⟩
  · rw [he, Nat.min_eq_left (Nat.le_add_right _ _)]
    exact (dvd_succ_iff ha).mpr h
  · rw [he, Nat.min_eq_right (Nat.sub_le _ _)]
    obtain ⟨q, rfl⟩ := ha
    rw [Nat.mul_div_cancel_left q (Nat.two_pow_pos k)] at h
    obtain ⟨r, rfl⟩ : ∃ r, q = 2 * r + 1 := ⟨q / 2, by omega⟩
    exact ⟨r, by rw [pow_succ, Nat.mul_add, Nat.mul_one, Nat.add_sub_cancel, Nat.mul_assoc]⟩

/-- Flipping a bit keeps a number aligned up to that bit. -/
theorem dvd_xor {a j k : Nat} (hjk : j ≤ k) (ha : 2 ^ j ∣ a) : 2 ^ j ∣ a ^^^ 2 ^ k := by
  have hk : 2 ^ j ∣ 2 ^ k := Nat.pow_dvd_pow 2 hjk
  rcases xor_cases a k with ⟨_, he⟩ | ⟨_, _, he⟩
  · exact he ▸ Nat.dvd_add ha hk
  · exact he ▸ Nat.dvd_sub ha hk

/-- Flipping a bit of the offset from a base aligned beyond that bit is flipping
the bit itself. -/
theorem add_xor_sub {h a k : Nat} (hh : 2 ^ (k + 1) ∣ h) (ha : h ≤ a) :
    h + ((a - h) ^^^ 2 ^ k) = a ^^^ 2 ^ k := by
  obtain ⟨q, rfl⟩ := hh
  obtain ⟨o, rfl⟩ := Nat.exists_eq_add_of_le ha
  have hpos : 0 < 2 ^ k := Nat.two_pow_pos k
  have hbit : (2 ^ (k + 1) * q + o) / 2 ^ k % 2 = o / 2 ^ k % 2 := by
    rw [pow_succ, Nat.mul_assoc, Nat.mul_add_div hpos]
    omega
  rw [Nat.add_sub_cancel_left]
  rcases xor_cases o k with ⟨h1, he⟩ | ⟨h1, hle, he⟩ <;>
    rcases xor_cases (2 ^ (k + 1) * q + o) k with ⟨h2, he'⟩ | ⟨h2, hle', he'⟩ <;>
    rw [he, he'] <;> omega

/-- Between a power that divides and one that does not lies the last that does. -/
theorem exists_last_dvd {a m n : Nat} (hm : 2 ^ m ∣ a) (hn : ¬2 ^ n ∣ a) :
    ∃ t, m ≤ t ∧ t < n ∧ 2 ^ t ∣ a ∧ ¬2 ^ (t + 1) ∣ a := by
  induction n with
  | zero => exact absurd (Nat.one_dvd a) hn
  | succ n ih =>
    by_cases hdvd : 2 ^ n ∣ a
    · refine ⟨n, ?_, Nat.lt_succ_self n, hdvd, hn⟩
      by_contra hlt
      exact hn (Nat.dvd_trans (Nat.pow_dvd_pow 2 (Nat.not_le.mp hlt)) hm)
    · obtain ⟨t, h1, h2, h3⟩ := ih hdvd
      exact ⟨t, h1, by omega, h3⟩

/-- The next multiple of a doubled power after an odd multiple of the power. -/
theorem dvd_succ_add {a k : Nat} (ha : 2 ^ k ∣ a) (hno : ¬2 ^ (k + 1) ∣ a) :
    2 ^ (k + 1) ∣ a + 2 ^ k := by
  obtain ⟨q, rfl⟩ := ha
  rw [pow_succ, Nat.mul_dvd_mul_iff_left (Nat.two_pow_pos k)] at hno
  have hsum : 2 ^ k * q + 2 ^ k = 2 ^ k * (q + 1) := by rw [Nat.mul_add, Nat.mul_one]
  rw [hsum, pow_succ, Nat.mul_dvd_mul_iff_left (Nat.two_pow_pos k)]
  omega

/-- Aligned ranges that meet are nested. -/
theorem nested {a b j k x : Nat} (ha : 2 ^ k ∣ a) (hb : 2 ^ j ∣ b) (hjk : j ≤ k)
    (hxa : a ≤ x ∧ x < a + 2 ^ k) (hxb : b ≤ x ∧ x < b + 2 ^ j) :
    a ≤ b ∧ b + 2 ^ j ≤ a + 2 ^ k := by
  obtain ⟨d, rfl⟩ := Nat.exists_eq_add_of_le hjk
  obtain ⟨q, rfl⟩ := ha
  obtain ⟨r, rfl⟩ := hb
  rw [pow_add] at *
  have hpos : 0 < 2 ^ j := Nat.two_pow_pos j
  have h1 : 2 ^ d * q ≤ r := by
    by_contra hlt
    have : 2 ^ j * (r + 1) ≤ 2 ^ j * (2 ^ d * q) := Nat.mul_le_mul_left _ (by omega)
    rw [Nat.mul_add, ← Nat.mul_assoc] at this
    omega
  have h2 : r + 1 ≤ 2 ^ d * q + 2 ^ d := by
    by_contra hlt
    have : 2 ^ j * (2 ^ d * q + 2 ^ d) ≤ 2 ^ j * r := Nat.mul_le_mul_left _ (by omega)
    rw [Nat.mul_add, ← Nat.mul_assoc] at this
    omega
  constructor
  · have := Nat.mul_le_mul_left (2 ^ j) h1
    rwa [← Nat.mul_assoc] at this
  · have := Nat.mul_le_mul_left (2 ^ j) h2
    rw [Nat.mul_add, Nat.mul_add, ← Nat.mul_assoc] at this
    omega

/-- An aligned range that is covered by smaller disjoint aligned ranges is covered
in part by two that are halves of one pair. -/
theorem exists_buddies {S : Nat → Nat → Prop} {k a : Nat} (ha : 2 ^ k ∣ a)
    (hcover : ∀ x, a ≤ x → x < a + 2 ^ k →
      ∃ j b, S j b ∧ j < k ∧ 2 ^ j ∣ b ∧ b ≤ x ∧ x < b + 2 ^ j)
    (hunique : ∀ {i j b c x}, S i b → S j c → b ≤ x → x < b + 2 ^ i → c ≤ x → x < c + 2 ^ j →
      i = j ∧ b = c) :
    ∃ j b, j < k ∧ S j b ∧ S j (b ^^^ 2 ^ j) := by
  -- From any block in the range, look at what covers the other half of its pair.
  have hstep : ∀ j b, S j b → j < k → 2 ^ j ∣ b → a ≤ b → b + 2 ^ j ≤ a + 2 ^ k →
      ∃ j b, j < k ∧ S j b ∧ S j (b ^^^ 2 ^ j) := by
    intro j
    induction j using Nat.strong_induction_on with
    | _ j ih =>
      intro b hb hjk hdvd hlo hhi
      have hpos : 0 < 2 ^ j := Nat.two_pow_pos j
      have hpair : 2 ^ (j + 1) ∣ min b (b ^^^ 2 ^ j) := dvd_min_xor hdvd
      have hadj : b ^^^ 2 ^ j = b + 2 ^ j ∨ 2 ^ j ≤ b ∧ b ^^^ 2 ^ j = b - 2 ^ j :=
        (xor_cases b j).imp And.right And.right
      have hdvd' : 2 ^ j ∣ b ^^^ 2 ^ j := dvd_xor (Nat.le_refl j) hdvd
      generalize hb' : b ^^^ 2 ^ j = b' at hpair hadj hdvd'
      obtain ⟨hlo', hhi'⟩ := nested ha hpair (by omega : j + 1 ≤ k) (x := b) (by omega)
        (by rw [pow_succ]; omega)
      rw [pow_succ] at hhi'
      obtain ⟨i, c, hc, hik, hdvdc, hcb, hbc⟩ := hcover b' (by omega) (by omega)
      rcases Nat.lt_trichotomy i j with hij | rfl | hij
      · obtain ⟨hloc, hhic⟩ := nested ha hdvdc (Nat.le_of_lt hik) (x := b') (by omega) ⟨hcb, hbc⟩
        exact ih i hij c hc hik hdvdc hloc hhic
      · have hcb' := nested hdvdc hdvd' (Nat.le_refl i) ⟨hcb, hbc⟩ (x := b') (by omega)
        obtain rfl : c = b' := by omega
        exact ⟨i, b, hjk, hb, hb' ▸ hc⟩
      · -- A larger block around the other half would contain the first half too.
        obtain ⟨hloc, hhic⟩ := nested hdvdc hpair hij (x := b') ⟨hcb, hbc⟩
          (by rw [pow_succ]; omega)
        rw [pow_succ] at hhic
        have hsame := hunique hb hc (Nat.le_refl b) (by omega) (by omega) (by omega)
        omega
  have hpos : 0 < 2 ^ k := Nat.two_pow_pos k
  obtain ⟨j, b, hb, hjk, hdvd, hlo, hhi⟩ := hcover a (Nat.le_refl a) (by omega)
  obtain ⟨hlo', hhi'⟩ := nested ha hdvd (Nat.le_of_lt hjk) (x := a) (by omega) ⟨hlo, hhi⟩
  exact hstep j b hb hjk hdvd hlo' hhi'

/-- Clearing the low bits rounds down to a multiple of the power. -/
theorem and_compl_mask {x w k : Nat} (hx : x < 2 ^ w) (hk : k ≤ w) :
    x &&& (2 ^ w - 1 - (2 ^ k - 1)) = x / 2 ^ k * 2 ^ k := by
  have hpos : 0 < 2 ^ k := Nat.two_pow_pos k
  have hle : 2 ^ k ≤ 2 ^ w := Nat.pow_le_pow_right Nat.two_pos hk
  have hmask : 2 ^ w - 1 - (2 ^ k - 1) = 2 ^ w - ((2 ^ k - 1) + 1) := by omega
  apply Nat.eq_of_testBit_eq
  intro i
  rw [hmask, Nat.testBit_and, Nat.testBit_two_pow_sub_succ (by omega), Nat.testBit_two_pow_sub_one,
    Nat.testBit_mul_two_pow, Nat.testBit_div_two_pow]
  by_cases hik : i < k
  · simp [hik, Nat.not_le.mpr hik]
  · have hki : k ≤ i := Nat.not_lt.mp hik
    by_cases hiw : i < w
    · simp [hik, hki, hiw]
    · have hpow : 2 ^ w ≤ 2 ^ i := Nat.pow_le_pow_right Nat.two_pos (Nat.not_lt.mp hiw)
      have hzero : x.testBit i = false := Nat.testBit_lt_two_pow (Nat.lt_of_lt_of_le hx hpow)
      simp [hki, hzero]

end TwoPow

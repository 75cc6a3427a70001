import Mathlib.Data.Nat.Basic

/-!
# Printed numbers

Numbers printed in a base of at most sixteen, most significant digit first, and read
back into a word of bounded size. Reading accepts digits of either case and one plus
sign in front of them.
-/

namespace Numerals

/-- The value of a digit of either case. -/
def digitValue (c : Char) : Option Nat :=
  if '0' ≤ c ∧ c ≤ '9' then some (c.toNat - '0'.toNat)
  else if 'a' ≤ c ∧ c ≤ 'z' then some (c.toNat - 'a'.toNat + 10)
  else if 'A' ≤ c ∧ c ≤ 'Z' then some (c.toNat - 'A'.toNat + 10)
  else none

/-- Append digits to a number; `none` if one is not a digit of the base, or the number
leaves the bound. -/
def parseDigits (base bound : Nat) (acc : Nat) : List Char → Option Nat
  | [] => some acc
  | c :: cs =>
    match digitValue c with
    | none => none
    | some d =>
      if d < base ∧ acc * base + d < bound then parseDigits base bound (acc * base + d) cs
      else none

/-- Read a number below the bound. -/
def parse (base bound : Nat) : List Char → Option Nat
  | [] => none
  | ['+'] => none
  | '+' :: cs => parseDigits base bound 0 cs
  | cs => parseDigits base bound 0 cs

variable {base bound n : Nat}

/-- A printed digit reads back. -/
theorem digitValue_digitChar {d : Nat} (h : d < 16) : digitValue d.digitChar = some d := by
  match d, h with
  | 0, _ | 1, _ | 2, _ | 3, _ | 4, _ | 5, _ | 6, _ | 7, _ | 8, _ | 9, _ | 10, _ | 11, _ | 12, _
  | 13, _ | 14, _ | 15, _ => rfl
  | _ + 16, h => exact absurd h (by omega)

/-- Every printed character is a digit of the base. -/
theorem digitValue_of_mem_toDigits (hb : 1 < base) (hbase : base ≤ 16) {c : Char}
    (hc : c ∈ Nat.toDigits base n) : ∃ d < base, digitValue c = some d := by
  induction n using Nat.strong_induction_on with
  | _ n ih =>
    rw [Nat.toDigits_eq_if hb] at hc
    split at hc
    · rename_i hlt
      rw [List.mem_singleton.mp hc]
      exact ⟨n, hlt, digitValue_digitChar (by omega)⟩
    · rename_i hge
      have hmod := Nat.mod_lt n (Nat.zero_lt_of_lt hb)
      rcases List.mem_append.mp hc with hc | hc
      · exact ih (n / base) (Nat.div_lt_self (by omega) hb) hc
      · rw [List.mem_singleton.mp hc]
        exact ⟨n % base, hmod, digitValue_digitChar (by omega)⟩

/-- Digits are found between the digit zero and the letter z. -/
theorem toNat_of_digitValue {c : Char} {d : Nat} (h : digitValue c = some d) :
    48 ≤ c.toNat ∧ c.toNat ≤ 122 := by
  simp only [digitValue, Char.le_def, UInt32.le_iff_toNat_le] at h
  have hzero : '0'.val.toNat = 48 := rfl
  have hnine : '9'.val.toNat = 57 := rfl
  have ha : 'a'.val.toNat = 97 := rfl
  have hz : 'z'.val.toNat = 122 := rfl
  have hA : 'A'.val.toNat = 65 := rfl
  have hZ : 'Z'.val.toNat = 90 := rfl
  have hc : c.toNat = c.val.toNat := rfl
  split_ifs at h <;> omega

private theorem parseDigits_append (acc : Nat) (xs ys : List Char) :
    parseDigits base bound acc (xs ++ ys) =
      (parseDigits base bound acc xs).bind fun acc => parseDigits base bound acc ys := by
  induction xs generalizing acc with
  | nil => rfl
  | cons c xs ih =>
    simp only [List.cons_append, parseDigits]
    cases digitValue c with
    | none => rfl
    | some d =>
      dsimp only
      split
      · exact ih _
      · rfl

/-- Digit by digit, a printed number reads back. -/
theorem parseDigits_toDigits (hb : 1 < base) (hbase : base ≤ 16) (hn : n < bound) :
    parseDigits base bound 0 (Nat.toDigits base n) = some n := by
  induction n using Nat.strong_induction_on with
  | _ n ih =>
    rw [Nat.toDigits_eq_if hb]
    split
    · rename_i hlt
      simp only [parseDigits, digitValue_digitChar (Nat.lt_of_lt_of_le hlt hbase), Nat.zero_mul,
        Nat.zero_add, hlt, hn, and_self, if_true]
    · rename_i hge
      have hmod := Nat.mod_lt n (Nat.zero_lt_of_lt hb)
      have hdiv : n / base < n := Nat.div_lt_self (by omega) hb
      have hsum : n / base * base + n % base = n := by
        rw [Nat.mul_comm]
        exact Nat.div_add_mod n base
      rw [parseDigits_append, ih (n / base) hdiv (Nat.lt_trans hdiv hn), Option.bind_some]
      simp only [parseDigits, digitValue_digitChar (Nat.lt_of_lt_of_le hmod hbase), hsum, hmod, hn,
        and_self, if_true]

/-- A text of digits is read as it is. -/
theorem parse_of_digits {cs : List Char} (hne : cs ≠ [])
    (hdigits : ∀ c ∈ cs, ∃ d, digitValue c = some d) :
    parse base bound cs = parseDigits base bound 0 cs := by
  cases cs with
  | nil => exact absurd rfl hne
  | cons c cs =>
    obtain ⟨d, hd⟩ := hdigits c List.mem_cons_self
    have hplus : c ≠ '+' := by
      rintro rfl
      cases hd
    unfold parse
    split
    · rename_i heq
      cases heq
    · rename_i heq
      exact absurd (List.cons.inj heq).1 hplus
    · rename_i heq
      exact absurd (List.cons.inj heq).1 hplus
    · rfl

/-- A printed number reads back. -/
theorem parse_toDigits (hb : 1 < base) (hbase : base ≤ 16) (hn : n < bound) :
    parse base bound (Nat.toDigits base n) = some n := by
  have hdigits : ∀ c ∈ Nat.toDigits base n, ∃ d, digitValue c = some d := fun c hc => by
    obtain ⟨d, -, hd⟩ := digitValue_of_mem_toDigits hb hbase hc
    exact ⟨d, hd⟩
  rw [parse_of_digits Nat.toDigits_ne_nil hdigits]
  exact parseDigits_toDigits hb hbase hn

end Numerals

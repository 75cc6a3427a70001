import Mathlib.Algebra.Order.Ring.Nat
import Mathlib.Tactic.Ring

/-!
# Little-endian words in a byte memory

Memory is a total map from addresses to bytes. A word of `n` bytes is loaded
and stored least significant byte first; the two laws are that a load returns
what was last stored at its address, and that a store changes no byte outside
the word it writes.
-/

/-- The contents of memory, byte by byte. -/
abbrev ByteMemory := Nat → UInt8

namespace ByteMemory

/-- The little-endian number in the `n` bytes from `a` on. -/
def loadLE (m : ByteMemory) (a : Nat) : Nat → Nat
  | 0 => 0
  | n + 1 => (m a).toNat + 256 * loadLE m (a + 1) n

/-- Write the low `n` bytes of `v`, least significant first, from `a` on. -/
def storeLE (m : ByteMemory) (a n v : Nat) : ByteMemory := fun x =>
  if a ≤ x ∧ x < a + n then UInt8.ofNat (v / 256 ^ (x - a)) else m x

/-- Write one byte. -/
def storeByte (m : ByteMemory) (a : Nat) (b : UInt8) : ByteMemory := fun x =>
  if x = a then b else m x

/-- A load reads only the bytes of its own word. -/
theorem loadLE_congr {m m' : ByteMemory} {a n : Nat}
    (h : ∀ x, a ≤ x → x < a + n → m' x = m x) : loadLE m' a n = loadLE m a n := by
  induction n generalizing a with
  | zero => rfl
  | succ n ih =>
    have hhead := h a (Nat.le_refl a) (by omega)
    have htail := ih (a := a + 1) fun x hx hlt => h x (by omega) (by omega)
    simp only [loadLE, hhead, htail]

/-- Bytes written as base-256 digits read back as the number they spell. -/
theorem loadLE_of_digits {m : ByteMemory} {a n v : Nat}
    (h : ∀ i, i < n → m (a + i) = UInt8.ofNat (v / 256 ^ i)) : loadLE m a n = v % 256 ^ n := by
  induction n generalizing a v with
  | zero => simp [loadLE, Nat.mod_one]
  | succ n ih =>
    have hhead : (m a).toNat = v % 256 := by
      have h0 := h 0 (Nat.succ_pos n)
      simp only [Nat.add_zero, Nat.pow_zero, Nat.div_one] at h0
      simp [h0]
    have htail : loadLE m (a + 1) n = v / 256 % 256 ^ n := by
      apply ih
      intro i hi
      have hs := h (i + 1) (by omega)
      rwa [show a + (i + 1) = a + 1 + i by omega, pow_succ', ← Nat.div_div_eq_div_mul] at hs
    rw [loadLE, hhead, htail, pow_succ', Nat.mod_mul]

/-- `n` bytes spell a number below `256 ^ n`. -/
theorem loadLE_lt (m : ByteMemory) (a n : Nat) : loadLE m a n < 256 ^ n := by
  induction n generalizing a with
  | zero => exact Nat.one_pos
  | succ n ih =>
    have hbyte := (m a).toNat_lt
    have htail := ih (a + 1)
    rw [loadLE, pow_succ']
    omega

/-- A store is visible inside the word it writes. -/
theorem storeLE_of_mem {m : ByteMemory} {a n v i : Nat} (hi : i < n) :
    storeLE m a n v (a + i) = UInt8.ofNat (v / 256 ^ i) := by
  simp only [storeLE, Nat.add_sub_cancel_left]
  rw [if_pos (by omega)]

/-- A store changes no byte outside the word it writes. -/
theorem storeLE_of_not_mem {m : ByteMemory} {a n v x : Nat} (hx : ¬(a ≤ x ∧ x < a + n)) :
    storeLE m a n v x = m x := if_neg hx

/-- A pointer-sized load. -/
def load64 (m : ByteMemory) (a : Nat) : Nat := loadLE m a 8

/-- A pointer-sized store. -/
def store64 (m : ByteMemory) (a v : Nat) : ByteMemory := storeLE m a 8 v

/-- A loaded pointer fits its word. -/
theorem load64_lt (m : ByteMemory) (a : Nat) : load64 m a < 2 ^ 64 := loadLE_lt m a 8

/-- A load returns what was stored at its address. -/
theorem load64_store64 {m : ByteMemory} {a v : Nat} (hv : v < 2 ^ 64) :
    load64 (store64 m a v) a = v := by
  have hload : loadLE (storeLE m a 8 v) a 8 = v % 256 ^ 8 :=
    loadLE_of_digits fun i hi => storeLE_of_mem hi
  exact hload.trans (Nat.mod_eq_of_lt hv)

/-- A store to a disjoint word does not change a load. -/
theorem load64_store64_of_disjoint {m : ByteMemory} {a b v : Nat} (h : a + 8 ≤ b ∨ b + 8 ≤ a) :
    load64 (store64 m a v) b = load64 m b :=
  loadLE_congr fun _ _ _ => storeLE_of_not_mem (by omega)

/-- A word leaves the bytes around it. -/
theorem store64_of_not_mem {m : ByteMemory} {a v x : Nat} (hx : ¬(a ≤ x ∧ x < a + 8)) :
    store64 m a v x = m x := storeLE_of_not_mem hx

/-- Writing one byte outside a word does not change its load. -/
theorem load64_storeByte_of_not_mem {m : ByteMemory} {a b : Nat} {v : UInt8}
    (h : ¬(b ≤ a ∧ a < b + 8)) : load64 (storeByte m a v) b = load64 m b :=
  loadLE_congr fun _ _ _ => if_neg (by omega)

/-! ## Runs of bytes -/

/-- The `n` bytes from `a` on. -/
def loadBytes (m : ByteMemory) (a n : Nat) : List UInt8 := (List.range n).map fun i => m (a + i)

/-- Write bytes one after the other, from `a` on. -/
def storeBytes (m : ByteMemory) (a : Nat) : List UInt8 → ByteMemory
  | [] => m
  | b :: bs => storeBytes (storeByte m a b) (a + 1) bs

/-- Bytes are written where they belong and nowhere else. -/
theorem storeBytes_apply (m : ByteMemory) (a : Nat) (bs : List UInt8) (x : Nat) :
    storeBytes m a bs x = if a ≤ x then bs[x - a]?.getD (m x) else m x := by
  induction bs generalizing m a with
  | nil => simp [storeBytes]
  | cons b bs ih =>
    rw [storeBytes, ih]
    rcases Nat.lt_trichotomy x a with hlt | rfl | hgt
    · rw [if_neg (by omega), if_neg (by omega)]
      exact if_neg (by omega)
    · rw [if_neg (by omega), if_pos (Nat.le_refl x), Nat.sub_self]
      exact if_pos rfl
    · have hindex : x - a = (x - (a + 1)) + 1 := by omega
      rw [if_pos (Nat.succ_le_of_lt hgt), if_pos (Nat.le_of_lt hgt), hindex,
        List.getElem?_cons_succ]
      exact congrArg _ (if_neg (by omega))

/-- So do several bytes. -/
theorem storeBytes_of_not_mem {m : ByteMemory} {a : Nat} {bs : List UInt8} {x : Nat}
    (hx : ¬(a ≤ x ∧ x < a + bs.length)) : storeBytes m a bs x = m x := by
  rw [storeBytes_apply]
  split_ifs with hle
  · rw [List.getElem?_eq_none (by omega), Option.getD_none]
  · rfl

/-- What has been loaded elsewhere is found where it was stored. -/
theorem storeBytes_loadBytes {m m' : ByteMemory} {a b n i : Nat} (hi : i < n) :
    storeBytes m a (loadBytes m' b n) (a + i) = m' (b + i) := by
  rw [storeBytes_apply, if_pos (Nat.le_add_right a i), Nat.add_sub_cancel_left, loadBytes,
    List.getElem?_map, List.getElem?_range hi]
  rfl

end ByteMemory

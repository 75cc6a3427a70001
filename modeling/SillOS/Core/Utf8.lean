import Mathlib.Data.List.Basic

/-!
# Text in bytes

The encoding of a text in UTF-8. Characters of seven bits are their own bytes, and all
other bytes are from 0x80 on, so a byte below comes from the character that it is.
-/

namespace Utf8

variable {c : Char} {b : UInt8} {text : List Char}

/-- The bytes of a text. -/
def encode (text : List Char) : List UInt8 := text.flatMap String.utf8EncodeChar

/-- The text of some bytes, if they are one. -/
def decode (bytes : List UInt8) : Option (List Char) :=
  bytes.toByteArray.utf8Decode?.map Array.toList

/-- A concatenation is encoded part by part. -/
@[simp] theorem encode_append (text text' : List Char) :
    encode (text ++ text') = encode text ++ encode text' := List.flatMap_append

/-- Encoded texts are decoded. -/
@[simp] theorem decode_encode (text : List Char) : decode (encode text) = some text := by
  have h : (encode text).toByteArray.utf8Decode? = some text.toArray := List.utf8Decode?_utf8Encode
  rw [decode, h, Option.map_some]

private theorem encodeChar_of_lt (h : c.toNat < 0x80) :
    String.utf8EncodeChar c = [UInt8.ofNat c.toNat] := by
  have hle : c.val.toNat ≤ 0x7f := Nat.le_of_lt_succ h
  simp only [String.utf8EncodeChar, if_pos hle]
  rfl

/-- A byte of a character is the character, or it is one of several. -/
theorem mem_encodeChar (h : b ∈ String.utf8EncodeChar c) :
    b.toNat = c.toNat ∨ 0x80 ≤ b.toNat := by
  by_cases hlt : c.toNat < 0x80
  · rw [encodeChar_of_lt hlt, List.mem_singleton] at h
    rw [h]
    exact Or.inl (Nat.mod_eq_of_lt (by omega))
  · have hle : ¬c.val.toNat ≤ 0x7f := fun hle => hlt (Nat.lt_succ_of_le hle)
    right
    simp only [String.utf8EncodeChar, if_neg hle] at h
    split_ifs at h <;> simp only [List.mem_cons, List.not_mem_nil, or_false] at h <;>
      rcases h with rfl | rfl | rfl | rfl <;> simp [UInt8.toNat_ofNat'] <;> omega

/-- A byte of seven bits in a text comes from a character. -/
theorem mem_of_mem_encode (h : b ∈ encode text) (hlt : b.toNat < 0x80) :
    ∃ c ∈ text, c.toNat = b.toNat := by
  obtain ⟨c, hc, hb⟩ := List.mem_flatMap.mp h
  obtain heq | hge := mem_encodeChar hb
  · exact ⟨c, hc, heq.symm⟩
  · omega

/-- The character of a byte has its number. -/
theorem toNat_ofUInt8 (b : UInt8) : (Char.ofUInt8 b).toNat = b.toNat := UInt8.toNat_toUInt32 b

/-- Bytes of seven bits are a text. -/
theorem encode_map_ofUInt8 {bytes : List UInt8} (h : ∀ b ∈ bytes, b.toNat < 0x80) :
    encode (bytes.map Char.ofUInt8) = bytes := by
  induction bytes with
  | nil => rfl
  | cons b bytes ih =>
    obtain ⟨hb, hbytes⟩ := List.forall_mem_cons.mp h
    have hchar : String.utf8EncodeChar (Char.ofUInt8 b) = [b] := by
      rw [encodeChar_of_lt (by rwa [toNat_ofUInt8]), toNat_ofUInt8, UInt8.ofNat_toNat]
    rw [List.map_cons, encode, List.flatMap_cons, hchar]
    exact congrArg (b :: ·) (ih hbytes)

end Utf8

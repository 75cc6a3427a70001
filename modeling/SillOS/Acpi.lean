import SillOS.Core.ByteMemory
import Mathlib.Algebra.BigOperators.Group.List.Basic

/-!
# The ACPI reset register

At start the kernel follows three tables, the root pointer, the XSDT and the FADT,
to the register and the value that reset the machine. The root pointer and the FADT
are summed over their declared lengths; the XSDT is not, and a root pointer may
declare a length that leaves its XSDT address out of the sum.
-/

namespace SillOS.Acpi

open ByteMemory

/-! ## Tables in memory -/

/-- Consecutive bytes. -/
def bytes (mem : ByteMemory) (address n : Nat) : List UInt8 :=
  (List.range n).map fun i => mem (address + i)

/-- `"RSD PTR "`. -/
def rsdpSignature : List UInt8 := [0x52, 0x53, 0x44, 0x20, 0x50, 0x54, 0x52, 0x20]

/-- `"XSDT"`. -/
def xsdtSignature : List UInt8 := [0x58, 0x53, 0x44, 0x54]

/-- `"FACP"`. -/
def fadtSignature : List UInt8 := [0x46, 0x41, 0x43, 0x50]

namespace RsdpV1

def signature (mem : ByteMemory) (rsdp : Nat) : List UInt8 := bytes mem rsdp 8

def revision (mem : ByteMemory) (rsdp : Nat) : UInt8 := mem (rsdp + 15)

end RsdpV1

namespace RsdpV2

def length (mem : ByteMemory) (rsdp : Nat) : Nat := loadLE mem (rsdp + 20) 4

def xsdtAddress (mem : ByteMemory) (rsdp : Nat) : Nat := load64 mem (rsdp + 24)

end RsdpV2

namespace SdtHeader

/-- The size of the header of every table. -/
def size : Nat := 36

def signature (mem : ByteMemory) (table : Nat) : List UInt8 := bytes mem table 4

def length (mem : ByteMemory) (table : Nat) : Nat := loadLE mem (table + 4) 4

end SdtHeader

/-- Where and what to write to reset the machine. -/
structure ResetInfo where
  addressSpace : UInt8
  address : Nat
  value : UInt8
  deriving DecidableEq, Repr

def resetRegOffset : Nat := 0x70

def resetValueOffset : Nat := 0x7c

/-! ## Initialization -/

def checksumValid (mem : ByteMemory) (address length : Nat) : Bool :=
  (List.range length).foldl (fun sum i => sum + mem (address + i)) (0 : UInt8) == 0

/-- The reset information of an FADT. -/
def parseFadt (mem : ByteMemory) (address : Nat) : Option ResetInfo :=
  let length := SdtHeader.length mem address
  if !checksumValid mem address length then none
  else if length < resetValueOffset + 1 then none
  else
    let resetReg := address + resetRegOffset
    let addressSpace := mem resetReg
    let resetAddress := load64 mem (resetReg + 4)
    let resetValue := mem (address + resetValueOffset)
    if resetAddress = 0 then none else some ⟨addressSpace, resetAddress, resetValue⟩

/-- An entry of an XSDT. -/
def xsdtEntry (mem : ByteMemory) (xsdt i : Nat) : Nat := load64 mem (xsdt + SdtHeader.size + 8 * i)

/-- The first entry among the given number that is an FADT. -/
def fadtEntry (mem : ByteMemory) (xsdt entryCount : Nat) : Option Nat :=
  (List.range entryCount).find? fun i =>
    let table := xsdtEntry mem xsdt i
    table ≠ 0 ∧ SdtHeader.signature mem table = fadtSignature

/-- Follow the first entry of an XSDT that is an FADT. -/
def findFadt (mem : ByteMemory) (xsdt : Nat) : Option ResetInfo :=
  if SdtHeader.signature mem xsdt ≠ xsdtSignature then none
  else
    let length := SdtHeader.length mem xsdt
    if length < SdtHeader.size then none
    else
      let entryCount := (length - SdtHeader.size) / 8
      match fadtEntry mem xsdt entryCount with
      | some i => parseFadt mem (xsdtEntry mem xsdt i)
      | none => none

/-- What is stored as reset information, from the address of the root pointer that the
boot loader gives. -/
def init (mem : ByteMemory) (response : Option Nat) : Option ResetInfo :=
  match response with
  | none => none
  | some rsdp =>
    if RsdpV1.signature mem rsdp ≠ rsdpSignature then none
    else if !checksumValid mem rsdp 20 then none
    else if RsdpV1.revision mem rsdp ≥ 2 then
      let length := RsdpV2.length mem rsdp
      if !checksumValid mem rsdp length then none
      else findFadt mem (RsdpV2.xsdtAddress mem rsdp)
    else none

/-! ## Checksums -/

/-- The bytes of a range sum to zero modulo 256. -/
def SumsToZero (mem : ByteMemory) (address length : Nat) : Prop :=
  ((List.range length).map fun i => (mem (address + i)).toNat).sum % 256 = 0

/-- A wrapping sum of bytes is their sum modulo 256. -/
private theorem foldl_add_toNat (mem : ByteMemory) (address : Nat) (l : List Nat) (sum : UInt8) :
    (l.foldl (fun sum i => sum + mem (address + i)) sum).toNat =
      (sum.toNat + (l.map fun i => (mem (address + i)).toNat).sum) % 256 := by
  induction l generalizing sum with
  | nil => exact (Nat.mod_eq_of_lt sum.toNat_lt).symm
  | cons i l ih =>
    rw [List.foldl_cons, ih, UInt8.toNat_add, List.map_cons, List.sum_cons, ← Nat.add_assoc]
    exact Nat.mod_add_mod _ _ _

private theorem checksumValid_iff {mem : ByteMemory} {address length : Nat} :
    checksumValid mem address length ↔ SumsToZero mem address length := by
  rw [checksumValid, beq_iff_eq, ← UInt8.toNat_inj, foldl_add_toNat]
  simp only [UInt8.toNat_zero, Nat.zero_add, SumsToZero]

/-! ## What a success has checked -/

variable {mem : ByteMemory} {info : ResetInfo}

/-- The reset information of an FADT is read inside its checksummed bytes. -/
theorem parseFadt_eq_some {fadt : Nat} (h : parseFadt mem fadt = some info) :
    SumsToZero mem fadt (SdtHeader.length mem fadt) ∧
      resetValueOffset + 1 ≤ SdtHeader.length mem fadt ∧
      info = ⟨mem (fadt + resetRegOffset), load64 mem (fadt + resetRegOffset + 4),
        mem (fadt + resetValueOffset)⟩ := by
  unfold parseFadt at h
  dsimp only at h
  split_ifs at h with hsum hlength haddress
  rw [Bool.not_eq_true', Bool.not_eq_false] at hsum
  exact ⟨checksumValid_iff.mp hsum, Nat.le_of_not_lt hlength, (Option.some_inj.mp h).symm⟩

/-- The entry that is followed from an XSDT. -/
def Follows (mem : ByteMemory) (xsdt i : Nat) : Prop :=
  fadtEntry mem xsdt ((SdtHeader.length mem xsdt - SdtHeader.size) / 8) = some i

/-- The followed entry is inside the declared length of the XSDT. -/
theorem findFadt_eq_some {xsdt : Nat} (h : findFadt mem xsdt = some info) :
    ∃ i, Follows mem xsdt i ∧ SdtHeader.size + 8 * i + 8 ≤ SdtHeader.length mem xsdt ∧
      parseFadt mem (xsdtEntry mem xsdt i) = some info := by
  unfold findFadt at h
  dsimp only at h
  split_ifs at h with hsignature hlength
  split at h
  · rename_i i hi
    have hmem := List.mem_of_find?_eq_some hi
    rw [List.mem_range] at hmem
    exact ⟨i, hi, by omega, h⟩
  · cases h

/-- The root pointer is summed over the length that it declares. -/
theorem init_eq_some {rsdp : Nat} (h : init mem (some rsdp) = some info) :
    SumsToZero mem rsdp (RsdpV2.length mem rsdp) ∧
      findFadt mem (RsdpV2.xsdtAddress mem rsdp) = some info := by
  unfold init at h
  dsimp only at h
  split_ifs at h with hsignature hfirst hrevision hsum
  rw [Bool.not_eq_true', Bool.not_eq_false] at hsum
  exact ⟨checksumValid_iff.mp hsum, h⟩

/-! ## Trusted bytes -/

/-- The reset information comes from checksummed bytes: the root pointer declares a
length that covers its XSDT address and sums to zero, the XSDT sums to zero over a
length that covers the followed entry, and the FADT of that entry sums to zero over a
length that covers the reset register and value. -/
def Trusted (mem : ByteMemory) (rsdp : Nat) (info : ResetInfo) : Prop :=
  let xsdt := RsdpV2.xsdtAddress mem rsdp
  (36 ≤ RsdpV2.length mem rsdp ∧ SumsToZero mem rsdp (RsdpV2.length mem rsdp)) ∧
    ∃ i, Follows mem xsdt i ∧
      let fadt := xsdtEntry mem xsdt i
      (36 + 8 * i + 8 ≤ SdtHeader.length mem xsdt ∧
        SumsToZero mem xsdt (SdtHeader.length mem xsdt)) ∧
      (0x7d ≤ SdtHeader.length mem fadt ∧ SumsToZero mem fadt (SdtHeader.length mem fadt)) ∧
      info = ⟨mem (fadt + 0x70), load64 mem (fadt + 0x74), mem (fadt + 0x7c)⟩

/-- Reset information comes from checksummed bytes exactly if the root pointer declares at
least its full size and the bytes of the XSDT sum to zero: the code checks the rest. -/
theorem trusted_iff {rsdp : Nat} (h : init mem (some rsdp) = some info) :
    Trusted mem rsdp info ↔ 36 ≤ RsdpV2.length mem rsdp ∧
      SumsToZero mem (RsdpV2.xsdtAddress mem rsdp)
        (SdtHeader.length mem (RsdpV2.xsdtAddress mem rsdp)) := by
  obtain ⟨hrsdp, hfind⟩ := init_eq_some h
  obtain ⟨i, hfollows, hentry, hparse⟩ := findFadt_eq_some hfind
  obtain ⟨hsum, hlength, hinfo⟩ := parseFadt_eq_some hparse
  constructor
  · rintro ⟨⟨hfull, -⟩, j, -, ⟨-, hxsdt⟩, -⟩
    exact ⟨hfull, hxsdt⟩
  · rintro ⟨hfull, hxsdt⟩
    exact ⟨⟨hfull, hrsdp⟩, i, hfollows, ⟨hentry, hxsdt⟩, ⟨hlength, hsum⟩, hinfo⟩

/-! ## Images -/

/-- The address of the root pointer of the images. -/
def imageAddress : Nat := 0xe0000

/-- A root pointer that declares the given length, an XSDT 64 bytes behind it with the given
checksum byte and one entry, and an FADT at 128 that resets by writing 6 to port `0xcf9`. -/
def image (length checksum : UInt8) : ByteMemory := fun address =>
  let rsdp := rsdpSignature ++ [223, 0, 0, 0, 0, 0, 0, 2, 0, 0, 0, 0, length, 0, 0, 0, 64, 0, 14, 0,
    0, 0, 0, 0, 142]
  let xsdt := xsdtSignature ++ [44, 0, 0, 0, 0, checksum]
  let fadt := fadtSignature ++ [0x7d, 0, 0, 0, 0, 93]
  let resetReg := [1, 0, 0, 0, 0xf9, 0x0c, 0, 0, 0, 0, 0, 0, 6]
  let offset := address - imageAddress
  if address < imageAddress then 0
  else if offset < 64 then rsdp.getD offset 0
  else if offset < 100 then xsdt.getD (offset - 64) 0
  else if offset < 128 then [128, 0, 14].getD (offset - 100) 0
  else if offset < 240 then fadt.getD (offset - 128) 0
  else resetReg.getD (offset - 240) 0

/-- In an image with right checksums the reset information is trusted. -/
theorem trusted_image :
    init (image 36 3) (some imageAddress) = some ⟨1, 0xcf9, 6⟩ ∧
      Trusted (image 36 3) imageAddress ⟨1, 0xcf9, 6⟩ := by
  have hinit : init (image 36 3) (some imageAddress) = some ⟨1, 0xcf9, 6⟩ := by decide +kernel
  refine ⟨hinit, (trusted_iff hinit).mpr ⟨by decide +kernel, ?_⟩⟩
  rw [← checksumValid_iff]
  decide +kernel

/-- The reset information is taken from an XSDT that does not sum to zero, and by a root
pointer that declares no length. -/
theorem untrusted_images :
    (init (image 36 0) (some imageAddress) = some ⟨1, 0xcf9, 6⟩ ∧
      ¬Trusted (image 36 0) imageAddress ⟨1, 0xcf9, 6⟩) ∧
    init (image 0 3) (some imageAddress) = some ⟨1, 0xcf9, 6⟩ ∧
      ¬Trusted (image 0 3) imageAddress ⟨1, 0xcf9, 6⟩ := by
  refine ⟨⟨by decide +kernel, ?_⟩, by decide +kernel, ?_⟩
  · rintro ⟨-, i, -, ⟨-, hxsdt⟩, -⟩
    rw [← checksumValid_iff] at hxsdt
    revert hxsdt
    decide +kernel
  · rintro ⟨⟨hfull, -⟩, -⟩
    revert hfull
    decide +kernel

end SillOS.Acpi

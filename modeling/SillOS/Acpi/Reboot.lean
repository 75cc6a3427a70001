import SillOS.Acpi
import SillOS.Shell.Commands

/-!
# Resetting the machine

`reboot` never returns: it writes the value of the reset register to its port, then asks
the keyboard controller for a reset, once that is ready or has been asked for its status
often enough, and at last faults until the processor gives up. What it does is the list
of its accesses, up to the one that resets the machine.
-/

namespace SillOS.Acpi

open ByteMemory Shell

/-- What a reset does outside of the processor. -/
inductive Access where
  /-- Read a port, with the answer. -/
  | read (port : Nat) (value : UInt8)
  | write (port : Nat) (value : UInt8)
  /-- A line on the serial port. -/
  | serial (text : Text)
  /-- `int3` without an interrupt table. -/
  | tripleFault
  deriving DecidableEq

/-- The status port of the keyboard controller, which also takes its commands. -/
def statusPort : Nat := 0x64

/-- How often the status is read at most. -/
def maxPolls : Nat := 100000

/-- The controller has room for a command. -/
def inputEmpty (status : UInt8) : Bool := status &&& 0x02 == 0

/-- Read the status until there is room, at most so many times; `answer i` is the answer to
the read of this number. -/
def waitInputEmpty (answer : Nat → UInt8) : Nat → Nat → List Access
  | 0, _ => []
  | polls + 1, i =>
    .read statusPort (answer i) ::
      if inputEmpty (answer i) then [] else waitInputEmpty answer polls (i + 1)

/-- `fallback_reboot`. -/
def fallbackReboot (answer : Nat → UInt8) : List Access :=
  .serial "ACPI: attempting fallback reboot...".toList ::
    waitInputEmpty answer maxPolls 0 ++ [.write statusPort 0xfe, .tripleFault]

/-- `reboot`, with the reset information that `init` has stored. -/
def reboot (reset : Option ResetInfo) (answer : Nat → UInt8) : List Access :=
  .serial "ACPI: rebooting...".toList ::
    match reset with
    | none => .serial "ACPI: no reset mechanism available".toList :: fallbackReboot answer
    | some reset =>
      if reset.addressSpace = 1 then
        if 0xffff < reset.address then
          .serial "ACPI: RESET_REG I/O address is invalid".toList :: fallbackReboot answer
        else
          .write (reset.address % 2 ^ 16) reset.value ::
            .serial "ACPI: reset command returned".toList :: fallbackReboot answer
      else
        .serial ("ACPI: RESET_REG address space ".toList ++
          hexadecimal reset.addressSpace.toNat ++ " is not supported yet".toList) ::
          fallbackReboot answer

/-! ## Waiting for the controller -/

/-- The reads of a wait: the answers in order, none too many, all but the last of them busy,
and the last of them ready unless the reads have run out. -/
theorem waitInputEmpty_spec (answer : Nat → UInt8) (polls i : Nat) :
    ∃ n, n ≤ polls ∧
      waitInputEmpty answer polls i =
        (List.range n).map (fun j => .read statusPort (answer (i + j))) ∧
      (∀ j, j + 1 < n → inputEmpty (answer (i + j)) = false) ∧
      (n < polls → ∃ j, n = j + 1 ∧ inputEmpty (answer (i + j)) = true) := by
  induction polls generalizing i with
  | zero => exact ⟨0, Nat.le_refl 0, rfl, fun _ h => absurd h (Nat.not_lt_zero _), nofun⟩
  | succ polls ih =>
    cases hready : inputEmpty (answer i) with
    | true =>
      refine ⟨1, Nat.succ_le_succ (Nat.zero_le _), ?_, fun j hj => by omega, fun _ => ?_⟩
      · rw [waitInputEmpty, if_pos hready]
        rfl
      · exact ⟨0, rfl, hready⟩
    | false =>
      obtain ⟨n, hle, hreads, hbusy, hlast⟩ := ih (i + 1)
      refine ⟨n + 1, Nat.succ_le_succ hle, ?_, fun j hj => ?_, fun hn => ?_⟩
      · rw [waitInputEmpty, hready, if_neg Bool.false_ne_true, hreads, List.range_succ_eq_map,
          List.map_cons, List.map_map]
        refine congrArg _ (List.map_congr_left fun j _ => ?_)
        simp only [Function.comp_apply, Nat.succ_eq_add_one, Nat.add_comm j 1, ← Nat.add_assoc]
      · cases j with
        | zero => exact hready
        | succ j =>
          have hj' := hbusy j (Nat.lt_of_succ_lt_succ hj)
          rwa [show i + 1 + j = i + (j + 1) by omega] at hj'
      · obtain ⟨j, rfl, hj⟩ := hlast (Nat.lt_of_succ_lt_succ hn)
        exact ⟨j + 1, rfl, by rwa [show i + (j + 1) = i + 1 + j by omega]⟩

/-! ## The accesses of a reset -/

/-- Lines on the serial port are not accesses of the reset. -/
def Access.isSerial : Access → Bool
  | .serial _ => true
  | _ => false

/-- What a reset reads and writes, its lines on the serial port left out. -/
def accesses (trace : List Access) : List Access := trace.filter fun a => !a.isSerial

private theorem accesses_waitInputEmpty (answer : Nat → UInt8) (polls i : Nat) :
    accesses (waitInputEmpty answer polls i) = waitInputEmpty answer polls i := by
  obtain ⟨n, -, hreads, -⟩ := waitInputEmpty_spec answer polls i
  rw [hreads, accesses, List.filter_eq_self]
  intro a ha
  obtain ⟨j, -, rfl⟩ := List.mem_map.mp ha
  rfl

private theorem accesses_fallbackReboot (answer : Nat → UInt8) : accesses (fallbackReboot answer) =
    waitInputEmpty answer maxPolls 0 ++ [.write statusPort 0xfe, .tripleFault] := by
  rw [fallbackReboot, accesses, List.filter_append, List.filter_cons_of_neg (by decide)]
  exact congrArg (· ++ _) (accesses_waitInputEmpty answer maxPolls 0)

/-- The write to the reset register: there is one if the register is a port. -/
def resetWrite (reset : Option ResetInfo) : List Access :=
  match reset with
  | some ⟨1, address, value⟩ => if address ≤ 0xffff then [.write address value] else []
  | _ => []

private theorem accesses_reboot (reset : Option ResetInfo) (answer : Nat → UInt8) :
    accesses (reboot reset answer) = resetWrite reset ++
      (waitInputEmpty answer maxPolls 0 ++ [.write statusPort 0xfe, .tripleFault]) := by
  rw [← accesses_fallbackReboot]
  cases reset with
  | none => rfl
  | some reset =>
    obtain ⟨addressSpace, address, value⟩ := reset
    by_cases hspace : addressSpace = 1
    · subst hspace
      by_cases haddress : 0xffff < address
      · simp only [reboot, resetWrite, if_pos haddress, if_neg (Nat.not_le_of_lt haddress)]
        rfl
      · have hport : address % 2 ^ 16 = address := Nat.mod_eq_of_lt (by omega)
        simp only [reboot, resetWrite, if_neg haddress, if_pos (Nat.le_of_not_lt haddress), hport]
        rfl
    · simp only [reboot, resetWrite, if_neg hspace]
      split
      · rename_i heq
        cases heq
        exact absurd rfl hspace
      · rfl

/-! ## Where a reset writes -/

/-- The reset register and value of an FADT: a table with this signature whose bytes sum
to zero over a length that covers both, which the XSDT of the root pointer lists. -/
structure Registered (mem : ByteMemory) (response : Option Nat) (port : Nat) (value : UInt8) :
    Prop where
  port_pos : 0 < port
  port_le : port ≤ 0xffff
  fadt : ∃ rsdp i, response = some rsdp ∧
    RsdpV1.signature mem rsdp = rsdpSignature ∧
    SumsToZero mem rsdp (RsdpV2.length mem rsdp) ∧
    let xsdt := RsdpV2.xsdtAddress mem rsdp
    let fadt := xsdtEntry mem xsdt i
    SdtHeader.signature mem xsdt = xsdtSignature ∧
    SdtHeader.size + 8 * i + 8 ≤ SdtHeader.length mem xsdt ∧
    SdtHeader.signature mem fadt = fadtSignature ∧
    SumsToZero mem fadt (SdtHeader.length mem fadt) ∧
    resetValueOffset < SdtHeader.length mem fadt ∧
    mem (fadt + resetRegOffset) = 1 ∧
    load64 mem (fadt + resetRegOffset + 4) = port ∧ mem (fadt + resetValueOffset) = value

variable {mem : ByteMemory} {info : ResetInfo}

/-- Reset information is taken by way of tables with the right signatures. -/
theorem signatures_of_init {response : Option Nat} (h : init mem response = some info) :
    ∃ rsdp, response = some rsdp ∧ RsdpV1.signature mem rsdp = rsdpSignature ∧
      SdtHeader.signature mem (RsdpV2.xsdtAddress mem rsdp) = xsdtSignature := by
  cases response with
  | none => cases h
  | some rsdp =>
    obtain ⟨-, hfind⟩ := init_eq_some h
    refine ⟨rsdp, rfl, ?_, ?_⟩
    · unfold init at h
      dsimp only at h
      split_ifs at h with hsignature
      exact not_not.mp hsignature
    · unfold findFadt at hfind
      split_ifs at hfind with hsignature
      exact not_not.mp hsignature

private theorem address_pos_of_parseFadt {fadt : Nat} (h : parseFadt mem fadt = some info) :
    0 < info.address := by
  unfold parseFadt at h
  dsimp only at h
  split_ifs at h with hsum hlength haddress
  cases h
  exact Nat.pos_of_ne_zero haddress

/-- The entry that is followed has the signature of an FADT. -/
theorem Follows.signature {xsdt i : Nat} (h : Follows mem xsdt i) :
    SdtHeader.signature mem (xsdtEntry mem xsdt i) = fadtSignature := by
  have hentry := List.find?_some h
  exact (of_decide_eq_true hentry).2

/-- A reset register that is written to is one that the tables register. -/
theorem registered_of_init {response : Option Nat} {port : Nat} {value : UInt8}
    (h : init mem response = some ⟨1, port, value⟩) (hport : port ≤ 0xffff) :
    Registered mem response port value := by
  obtain ⟨rsdp, rfl, hrsdp, hxsdt⟩ := signatures_of_init h
  obtain ⟨hsum, hfind⟩ := init_eq_some h
  obtain ⟨i, hfollows, hentry, hparse⟩ := findFadt_eq_some hfind
  obtain ⟨hfadt, hlength, hinfo⟩ := parseFadt_eq_some hparse
  obtain ⟨hspace, haddress, hvalue⟩ := ResetInfo.mk.inj hinfo
  exact ⟨address_pos_of_parseFadt hparse, hport, rsdp, i, rfl, hrsdp, hsum, hxsdt, hentry,
    hfollows.signature, hfadt, hlength, hspace.symm, haddress.symm, hvalue.symm⟩

/-- Whatever the tables say and whatever the keyboard controller answers, a reset makes
these accesses and, apart from its lines on the serial port, which `accesses` leaves out, no
others: at most one write to a reset register, which is one that checksummed tables register
as a port; then reads of the controller's status, not more than 100000 and none after one that
shows room; then the command that resets, once, and the fault. The reset register is written
to whenever a port was stored. -/
theorem reboot_accesses (mem : ByteMemory) (response : Option Nat) (answer : Nat → UInt8) :
    ∃ first n, n ≤ 100000 ∧
      accesses (reboot (init mem response) answer) =
        first ++ ((List.range n).map (fun i => .read 0x64 (answer i)) ++
          [.write 0x64 0xfe, .tripleFault]) ∧
      (first = [] ∨ ∃ port value, first = [.write port value] ∧
        Registered mem response port value) ∧
      (∀ port value, init mem response = some ⟨1, port, value⟩ → port ≤ 0xffff →
        first = [.write port value]) ∧
      (∀ i, i + 1 < n → inputEmpty (answer i) = false) ∧
      (n < 100000 → ∃ i, n = i + 1 ∧ inputEmpty (answer i) = true) := by
  obtain ⟨n, hle, hreads, hbusy, hlast⟩ := waitInputEmpty_spec answer maxPolls 0
  simp only [Nat.zero_add] at hreads hbusy hlast
  refine ⟨resetWrite (init mem response), n, hle, ?_, ?_, fun port value h hport => ?_, hbusy,
    hlast⟩
  · rw [accesses_reboot, hreads]
    rfl
  · generalize hreset : init mem response = reset
    unfold resetWrite
    split
    · rename_i port value
      split_ifs with hport
      · exact Or.inr ⟨port, value, rfl, registered_of_init hreset hport⟩
      · exact Or.inl rfl
    · exact Or.inl rfl
  · rw [h]
    exact if_pos hport

/-- The controller is busy twice. -/
example : accesses (reboot (init (image 36 3) (some imageAddress)) fun i =>
    if i < 2 then 0x02 else 0) =
    [.write 0xcf9 6, .read 0x64 0x02, .read 0x64 0x02, .read 0x64 0, .write 0x64 0xfe,
      .tripleFault] := by decide +kernel

end SillOS.Acpi

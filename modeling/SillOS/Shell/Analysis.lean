import SillOS.Kmem.Frame.Report
import SillOS.Kmem.Heap
import SillOS.Shell.Commands

/-!
# The memory analysis

The lines that `mem-analyze` prints, all in green, section by section. The first part
ends early when the bootloader has given no answer.
-/

namespace SillOS.Shell

open SillOS.Frame (Entry MemoryTypes Tally)

/-- What the analysis reads of the machine. -/
structure MemoryInfo where
  /-- The offset of the higher-half direct map, if the bootloader has answered. -/
  hhdm : Option Nat
  /-- The memory map, if the bootloader has answered. -/
  memoryMap : Option (List Entry)
  types : MemoryTypes
  /-- Physical address of the level-4 page table. -/
  cr3Physical : Nat
  /-- The flags of the register as `{:?}` prints them. -/
  cr3Flags : Text

/-- A word as `{:#018x}` prints it. -/
def paddedHex (n : Nat) : Text :=
  let digits := Nat.toDigits 16 n
  "0x".toList ++ List.replicate (16 - digits.length) '0' ++ digits

/-- A Boolean as `{}` prints it. -/
def yesNo (b : Bool) : Text := if b then "true".toList else "false".toList

/-- An address sum that may overflow. -/
def checkedAdd (a b : Nat) : Option Nat := if a + b < 2 ^ 64 then some (a + b) else none

/-- A label with a text, a number, or a number with a unit. -/
def labelled (label : String) (text : Text) : Text := label.toList ++ text

def counted (label : String) (n : Nat) (unit : String) : Text :=
  label.toList ++ decimal n ++ unit.toList

def kib (n : Nat) : Nat := n / 1024

def mib (n : Nat) : Nat := n / (1024 * 1024)

/-- Two parts of a number in hundredths of a percent. -/
def percent (label : String) (n : Nat) : Text :=
  label.toList ++ decimal (n / 100) ++ ".".toList ++ decimal (n % 100) ++ "%".toList

def bar : Text := "========================================".toList

/-- A blank line and the title of a section. -/
def heading (title : String) : List Text := [[], title.toList]

def pageCount (bytes : Nat) : Nat := (bytes + 4095) / 4096

namespace MemAnalyze

def banner : List Text := [[], bar, "       KERNEL MEMORY ANALYSIS".toList, bar]

def hhdmSection (offset : Nat) : List Text :=
  heading "[HHDM]" ++ [labelled "  Offset:          " (paddedHex offset)]

def memoryMapSection (entries : List Entry) (t : Tally) : List Text :=
  heading "[MEMORY MAP]" ++
    [counted "  Entries:         " entries.length "",
      counted "  Total:           " (kib t.totalMemory) " KiB",
      counted "  Total:           " (mib t.totalMemory) " MiB",
      counted "  Usable:          " (mib t.usableMemory) " MiB",
      counted "  Usable regions:  " t.usableRegions "",
      counted "  Reserved:        " (kib t.reservedMemory) " KiB",
      counted "  ACPI reclaim:    " (kib t.reclaimableMemory) " KiB",
      counted "  Bootloader:      " (kib t.bootloaderMemory) " KiB",
      counted "  Kernel/modules:  " (kib t.kernelMemory) " KiB",
      counted "  Framebuffer:     " (kib t.framebufferMemory) " KiB",
      counted "  Bad memory:      " (kib t.badMemory) " KiB",
      counted "  Other:           " (kib t.otherMemory) " KiB"]

def framesSection (t : Tally) : List Text :=
  heading "[PHYSICAL FRAMES]" ++
    [counted "  Frame size:      " 4096 " bytes",
      counted "  Usable frames:   " t.frameCount "",
      counted "  Frame memory:    " (mib (t.frameCount * 4096)) " MiB",
      match t.firstUsableBase with
      | some base => labelled "  First usable:    " (paddedHex base)
      | none => "  First usable:    NONE".toList,
      match t.lastUsableEnd with
      | some last => labelled "  Last usable end: " (paddedHex last)
      | none => "  Last usable end: NONE".toList]

def addressSection (entries : List Entry) : List Text :=
  let (lowest, highest) := Frame.addressRange entries
  heading "[PHYSICAL ADDRESS SPACE]" ++
    (if lowest ≠ Frame.u64Max then [labelled "  Lowest address:  " (paddedHex lowest)] else []) ++
    [labelled "  Highest address: " (paddedHex highest),
      counted "  Address span:    " (mib (highest - lowest)) " MiB"]

def regionLine (index : Nat) (entry : Entry) : Text :=
  let start := entry.base.toNat
  let last := Fb.saturatingAdd entry.base.toNat entry.length.toNat
  "  #".toList ++ decimal index ++ ": ".toList ++ paddedHex start ++ " - ".toList ++
    paddedHex last ++ " | ".toList ++ decimal (kib entry.length.toNat) ++ " KiB | type ".toList ++
    decimal entry.type_.toNat

def regionsSection (entries : List Entry) : List Text :=
  heading "[MEMORY MAP REGIONS]" ++ entries.mapIdx regionLine

def pageTablesSection (offset cr3Physical : Nat) (cr3Flags : Text) : List Text :=
  heading "[PAGE TABLES]" ++
    [labelled "  CR3 physical:   " (paddedHex cr3Physical),
      match checkedAdd offset cr3Physical with
      | some address => labelled "  CR3 virtual:    " (paddedHex address)
      | none => "  CR3 virtual:    OVERFLOW".toList,
      labelled "  CR3 flags:      " cr3Flags,
      "  Page size:      4096 bytes".toList]

/-- A physical address beside its address in the direct map. -/
def conversion (offset : Nat) (physical? : Option Nat) (physicalLabel virtualLabel : String)
    (overflow : String) : List Text :=
  match physical? with
  | none => []
  | some physical =>
    match checkedAdd offset physical with
    | some virtualAddress =>
      [labelled physicalLabel (paddedHex physical),
        labelled virtualLabel (paddedHex virtualAddress)]
    | none => [overflow.toList]

def conversionSection (offset : Nat) (t : Tally) : List Text :=
  heading "[HHDM ADDRESS CONVERSION]" ++
    conversion offset t.firstUsableBase "  Physical:       " "  HHDM virtual:   "
      "  First usable HHDM address overflow" ++
    conversion offset t.lastUsableEnd "  Last physical:  " "  Last HHDM VA:   "
      "  Last usable HHDM address overflow"

def heapSection : List Text :=
  let heapEnd := checkedAdd heapStart heapSize
  heading "[KERNEL HEAP]" ++
    [labelled "  Start:          " (paddedHex heapStart),
      match heapEnd with
      | some last => labelled "  End:            " (paddedHex last)
      | none => "  End:            OVERFLOW".toList,
      counted "  Size:           " (kib heapSize) " KiB",
      counted "  Size:           " (mib heapSize) " MiB",
      counted "  Pages:          " (pageCount heapSize) "",
      labelled "  Start aligned:  " (yesNo (heapStart % 4096 = 0)),
      labelled "  Size aligned:   " (yesNo (heapSize % 4096 = 0))] ++
    match heapEnd with
    | some last => [labelled "  End aligned:    " (yesNo (last % 4096 = 0))]
    | none => []

def addressSpaceSection (offset : Nat) : List Text :=
  heading "[ADDRESS SPACE]" ++
    [labelled "  HHDM base:      " (paddedHex offset),
      labelled "  Heap base:      " (paddedHex heapStart),
      labelled "  Heap above HHDM: " (yesNo (heapStart ≥ offset))]

/-- The kernel heap has pages, so the division is by a positive number. -/
def capacitySection (t : Tally) : List Text :=
  let heapFrames := pageCount heapSize
  heading "[FRAME CAPACITY]" ++
    [counted "  Heap pages:     " heapFrames "",
      counted "  Usable frames:  " t.frameCount "",
      if t.frameCount ≥ heapFrames then
        percent "  Heap frame cost: " (heapFrames * 10000 / t.frameCount)
      else "  Heap frame cost: exceeds usable-frame count".toList]

def alignmentSection (offset cr3Physical : Nat) (t : Tally) : List Text :=
  heading "[ALIGNMENT]" ++
    [counted "  Page size:      " 4096 "",
      labelled "  HHDM aligned:   " (yesNo (offset % 4096 = 0)),
      labelled "  CR3 aligned:    " (yesNo (cr3Physical % 4096 = 0)),
      labelled "  Heap aligned:   " (yesNo (heapStart % 4096 = 0))] ++
    match t.firstUsableBase with
    | some base => [labelled "  First frame aligned: " (yesNo (base % 4096 = 0))]
    | none => []

/-- The share of usable memory, in hundredths of a percent. -/
def usablePercent (t : Tally) : Nat :=
  if t.totalMemory ≠ 0 then t.usableMemory * 10000 / t.totalMemory else 0

def summarySection (offset cr3Physical : Nat) (t : Tally) : List Text :=
  heading "[SUMMARY]" ++
    [counted "  Physical RAM:   " (mib t.totalMemory) " MiB",
      counted "  Usable RAM:     " (mib t.usableMemory) " MiB",
      percent "  Usable RAM:     " (usablePercent t),
      counted "  Usable frames:  " t.frameCount "",
      counted "  Heap size:      " (mib heapSize) " MiB",
      counted "  Heap pages:     " (pageCount heapSize) "",
      labelled "  HHDM:           " (paddedHex offset),
      labelled "  CR3:            " (paddedHex cr3Physical)]

def footer : List Text := [[], bar, "       END MEMORY ANALYSIS".toList, bar, []]

end MemAnalyze

open MemAnalyze in
/-- The printed lines. -/
def memAnalyze (m : MemoryInfo) : List Text :=
  match m.hhdm with
  | none => banner ++ ["[HHDM] NOT AVAILABLE".toList]
  | some offset =>
    match m.memoryMap with
    | none => banner ++ hhdmSection offset ++ ["[MEMORY MAP] NOT AVAILABLE".toList]
    | some entries =>
      let t := Tally.ofEntries m.types entries
      banner ++ hhdmSection offset ++ memoryMapSection entries t ++ framesSection t ++
        addressSection entries ++ regionsSection entries ++
        pageTablesSection offset m.cr3Physical m.cr3Flags ++ conversionSection offset t ++
        heapSection ++ addressSpaceSection offset ++ capacitySection t ++
        alignmentSection offset m.cr3Physical t ++ summarySection offset m.cr3Physical t ++ footer

end SillOS.Shell

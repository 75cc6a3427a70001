import SillOS.Core.Numerals
import SillOS.Core.Words
import SillOS.Fb.Framebuffer
import SillOS.Fs.TmpFs
import SillOS.Kmem.Layout

/-!
# The shell

A line is cut into words, the first word names a command, and the command acts on
the console, the heap and the file system. A run of a command is the list of what it
does, in order, together with the state it leaves.
-/

namespace SillOS.Shell

open Fb Numerals Words

/-- A text, as its characters. -/
abbrev Text := List Char

/-- What a command does to the rest of the kernel. -/
inductive Effect where
  /-- Print without a line break. -/
  | print (text : Text)
  /-- Print a line, in the color of the console or in another. -/
  | println (color : Option Color) (text : Text)
  /-- Clear the cells of the console. -/
  | clear
  /-- Bring the framebuffer to the screen. -/
  | present
  | setBackground (color : Color)
  | setForeground (color : Color)
  | setSerialMirror (enabled : Bool)
  /-- Ask the heap for memory, with its answer. -/
  | alloc (layout : Layout) (ptr : Nat)
  /-- Give memory back to the heap. -/
  | dealloc (ptr : Nat) (layout : Layout)
  | memAnalyze
  | panic
  | breakpoint
  | reboot
  /-- Leave the emulator. -/
  | exitQemu (success : Bool)
  deriving DecidableEq

/-- What the commands read of the rest of the kernel. -/
structure Kernel where
  /-- The file system. -/
  fs : Fs.TmpFs
  /-- Whether the console is mirrored to the serial port. -/
  serialMirror : Bool
  /-- Width of the framebuffer. -/
  width : Nat
  /-- Height of the framebuffer. -/
  height : Nat
  /-- The pointer with which the heap answers a request now. -/
  alloc : Layout → Nat
  /-- Pointers fit a word. -/
  alloc_lt : ∀ layout, alloc layout < 2 ^ 64

/-! ## Words and numbers -/

/-- The characters with the property `White_Space`. -/
def isWhitespace (c : Char) : Bool :=
  let n := c.toNat
  (9 ≤ n && n ≤ 13) || n == 0x20 || n == 0x85 || n == 0xa0 || n == 0x1680 ||
    (0x2000 ≤ n && n ≤ 0x200a) || n == 0x2028 || n == 0x2029 || n == 0x202f || n == 0x205f ||
    n == 0x3000

/-- `str::split_whitespace`. -/
def splitWhitespace (line : Text) : List Text := words isWhitespace line

/-- `usize::from_str_radix`. -/
def parseUsize (radix : Nat) (text : Text) : Option Nat := parse radix (2 ^ 64) text

/-- A number as `{}` prints it. -/
def decimal (n : Nat) : Text := Nat.toDigits 10 n

/-- A number as `{:#x}` prints it. -/
def hexadecimal (n : Nat) : Text := "0x".toList ++ Nat.toDigits 16 n

/-- Print a line in the color of the console. -/
def line (text : Text) : Effect := .println none text

/-! ## Commands -/

def help : List Effect :=
  ["Available commands:",
    "  help       - Show this help",
    "  clear      - Clear the screen",
    "  echo       - Print text",
    "  info       - Show system information",
    "  panic      - Intentionally throws a kernel panic",
    "  bp         - Sets and steps over a breakpoint",
    "  reboot     - Reboots the machine.",
    "  shutdown   - Shuts the computer down.",
    "  exit       - Shuts the computer down.",
    "  setbg      - Sets the background color.",
    "  setfg      - Sets the foreground color.",
    "  tg-serial  - Toggles priting kTerm output to serial.",
    "  alloc!     - Allocate N bytes, prints a pointer",
    "  dealloc!   - Free a pointer previously returned by alloc",
    "  ls         - List directory contents",
    "  mkdir      - Create a directory",
    "  touch      - Create an empty file"].map fun text => line text.toList

/-- The order of strings, by their characters. -/
def nameLt (a b : Text) : Bool := a.lex b fun c d => decide (c.toNat < d.toNat)

def ls (k : Kernel) (args : List Text) : List Effect :=
  let path := args.head?.getD "/".toList
  match k.fs.listEntries path with
  | .ok entries =>
    (entries.mergeSort fun a b => !nameLt b.name a.name).map fun
      | .dir name => .println (some Color.BLUE) (name ++ "/".toList)
      | .file name => line name
  | .error _ => [line ("ls: cannot access '".toList ++ path ++ "': No such directory".toList)]

def mkdir (k : Kernel) (args : List Text) : List Effect × Kernel :=
  match args with
  | [] => ([line "Usage: mkdir <path>".toList], k)
  | path :: _ =>
    match k.fs.mkdir path with
    | (fs, .ok ()) => ([], { k with fs := fs })
    | (fs, .error _) =>
      ([line ("mkdir: cannot create directory '".toList ++ path ++
        "': already exists or parent missing".toList)], { k with fs := fs })

def touch (k : Kernel) (args : List Text) : List Effect × Kernel :=
  match args with
  | [] => ([line "Usage: touch <path>".toList], k)
  | path :: _ =>
    match k.fs.touch path with
    | (fs, .ok ()) => ([], { k with fs := fs })
    | (fs, .error _) =>
      ([line ("touch: cannot create '".toList ++ path ++
        "': is a directory or parent missing".toList)], { k with fs := fs })

def clearterm : List Effect := [.clear, .present]

/-- The words with single blanks between them, and a line break. -/
def echo (args : List Text) : List Effect :=
  ((args.map Effect.print).intersperse (.print " ".toList)) ++ [line []]

def toggleSerial (k : Kernel) : List Effect × Kernel :=
  let state := k.serialMirror
  ([.setSerialMirror !state, .println (some Color.GREEN) "Toggled serial mirroring".toList],
    { k with serialMirror := !state })

def info (k : Kernel) : List Effect :=
  [line "SillOS".toList, line "Architecture: x86_64".toList, line "Bootloader: Limine".toList,
    line ("Framebuffer: ".toList ++ decimal k.width ++ "x".toList ++ decimal k.height)]

def sven : List Effect :=
  [line "This command is dedicated to my friend bunny, sven!".toList,
    line "Say bye bye to your pc :)".toList, .reboot]

def shutdown : List Effect :=
  [line "There currently is no support for acpi shutdown.".toList,
    line "However, qemu will close normally.".toList, .exitQemu true]

/-- Both color commands; `name` is the command and `set` what it changes. -/
def setColor (name : Text) (set : Color → Effect) (args : List Text) : List Effect :=
  match args with
  | [] => [line "Incorrect usage!".toList, line ("Usage: ".toList ++ name ++ " <color>".toList)]
  | colorName :: _ =>
    match Color.fromName (String.ofList colorName) with
    | none => [line ("Unknown color: ".toList ++ colorName)]
    | some color => [set color, .clear]

def setbg (args : List Text) : List Effect := setColor "setbg".toList .setBackground args

def setfg (args : List Text) : List Effect := setColor "setfg".toList .setForeground args

/-- The optional alignment of both heap commands, or the argument that is none. -/
def parseAlign (args : List Text) : Except Text Nat :=
  match args with
  | [] => .ok 8
  | alignStr :: _ =>
    match parseUsize 10 alignStr with
    | some align => if ∃ e, align = 2 ^ e then .ok align else .error alignStr
    | none => .error alignStr

/-- What both heap commands print about sizes and alignments that they do not take. -/
def invalidSize (sizeStr : Text) : Effect := line ("Invalid size: ".toList ++ sizeStr)

def invalidAlign (alignStr : Text) : Effect :=
  line ("Invalid alignment: ".toList ++ alignStr ++ " (must be a power of two)".toList)

def invalidLayout (size align : Nat) : Effect :=
  line ("Invalid layout: size=".toList ++ decimal size ++ " align=".toList ++ decimal align)

def allocCmd (k : Kernel) (args : List Text) : List Effect :=
  match args with
  | [] => [line "Incorrect usage!".toList, line "Usage: alloc <size> [align]".toList]
  | sizeStr :: args =>
    match parseUsize 10 sizeStr with
    | none => [invalidSize sizeStr]
    | some size =>
      if size = 0 then [line "Size must be greater than 0".toList]
      else
        match parseAlign args with
        | .error alignStr => [invalidAlign alignStr]
        | .ok align =>
          match Layout.fromSizeAlign size align with
          | none => [invalidLayout size align]
          | some layout =>
            let ptr := k.alloc layout
            if ptr = 0 then
              [.alloc layout ptr,
                .println (some Color.RED) "Allocation failed: out of memory".toList]
            else
              [.alloc layout ptr,
                .println (some Color.GREEN) ("Allocated ".toList ++ decimal size ++
                  " bytes (align ".toList ++ decimal align ++ ") at ".toList ++ hexadecimal ptr),
                line ("To free: dealloc ".toList ++ hexadecimal ptr ++ " ".toList ++
                  decimal size ++ " ".toList ++ decimal align)]

def deallocCmd (args : List Text) : List Effect :=
  match args with
  | ptrStr :: sizeStr :: args =>
    let trimmed := trimStartMatches "0X".toList (trimStartMatches "0x".toList ptrStr)
    match parseUsize 16 trimmed with
    | none => [line ("Invalid pointer: ".toList ++ ptrStr)]
    | some addr =>
      match parseUsize 10 sizeStr with
      | none => [invalidSize sizeStr]
      | some size =>
        match parseAlign args with
        | .error alignStr => [invalidAlign alignStr]
        | .ok align =>
          match Layout.fromSizeAlign size align with
          | none => [invalidLayout size align]
          | some layout =>
            if addr = 0 then [line "Cannot deallocate a null pointer".toList]
            else
              [.dealloc addr layout,
                .println (some Color.GREEN) ("Deallocated ".toList ++ hexadecimal addr)]
  | _ => [line "Incorrect usage!".toList, line "Usage: dealloc <ptr> <size> [align]".toList]

/-- Execute a line. -/
def execute (k : Kernel) (text : Text) : List Effect × Kernel :=
  match splitWhitespace text with
  | [] => ([], k)
  | command :: parts =>
    match String.ofList command with
    | "help" => (help, k)
    | "clear" => (clearterm, k)
    | "echo" => (echo parts, k)
    | "info" => (info k, k)
    | "panic" => ([.panic], k)
    | "bp" => ([.breakpoint], k)
    | "sven" => (sven, k)
    | "reboot" => ([.reboot], k)
    | "shutdown" => (shutdown, k)
    | "exit" => (shutdown, k)
    | "setbg" => (setbg parts, k)
    | "setfg" => (setfg parts, k)
    | "mem-analyze" => ([.memAnalyze], k)
    | "tg-serial" => toggleSerial k
    | "alloc!" => (allocCmd k parts, k)
    | "dealloc!" => (deallocCmd parts, k)
    | "ls" => (ls k parts, k)
    | "mkdir" => mkdir k parts
    | "touch" => touch k parts
    | _ =>
      ([line ("Unknown command: ".toList ++ command),
        line "Type 'help' for a list of commands.".toList], k)

end SillOS.Shell

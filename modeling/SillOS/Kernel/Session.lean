import SillOS.Console.State
import SillOS.Core.Utf8
import SillOS.Shell.Analysis

/-!
# A session at the keyboard

Keys arrive one by one, each in an interrupt. A key edits the input line; Enter hands
the line to the shell, whose effects act on the console, the file system, the mirror of
the console on the serial port and the heap, and then prompts for the next line. A
session ends in a command that does not return. The session is all of this but the heap,
which answers the session from outside.
-/

namespace SillOS

open Fb Shell

/-- `core::str::from_utf8`. -/
def fromUtf8 (bytes : List UInt8) : Option Text := Utf8.decode bytes

/-- What a key finds outside of the kernel: the memory of the machine, and the texts that
the language formats. -/
structure Env where
  memory : MemoryInfo
  /-- The stack frame of an interrupt, as `{:#?}` prints it. -/
  stackFrame : Text
  /-- A panic, as `{}` prints it. -/
  panicInfo : Text
  /-- The heap refuses a string or a container of the command. -/
  starved : Bool

/-- The same with the answers of the heap. -/
structure HeapEnv extends Env where
  alloc : Layout → Nat
  /-- Pointers fit a word. -/
  alloc_lt : ∀ layout, alloc layout < 2 ^ 64

/-- A machine that tells nothing of its memory. -/
def Env.quiet : Env where
  memory := {
    hhdm := none
    memoryMap := none
    types := ⟨0, 1, 2, 5, 6, 7, 4⟩
    cr3Physical := 0
    cr3Flags := [] }
  stackFrame := []
  panicInfo := []
  starved := false

/-- Whether the command of a line allocates: it builds the strings and containers of the
file system. -/
def Shell.allocates (text : Text) : Bool :=
  match splitWhitespace text with
  | [] => false
  | command :: _ => ["ls", "mkdir", "touch"].contains (String.ofList command)

/-- What keys and commands act on. -/
structure Session where
  console : Console
  fs : Fs.TmpFs
  serialMirror : Bool
  /-- What the console has mirrored to the serial port. -/
  mirrored : Text
  /-- A command has not returned. -/
  halted : Bool

namespace Session

/-- What the shell reads. -/
def kernel (env : HeapEnv) (s : Session) : Kernel where
  fs := s.fs
  serialMirror := s.serialMirror
  width := s.console.fb.info.width
  height := s.console.fb.info.height
  alloc := env.alloc
  alloc_lt := env.alloc_lt

/-! ## Printing -/

/-- `console::write_fmt`. -/
def writeFmt (s : Session) (text : Text) : Session :=
  { s with console := (s.console.writeStr (Utf8.encode text)).present }

/-- `console::write_fmt_color`. -/
def writeFmtColor (s : Session) (color : Color) (text : Text) : Session :=
  let oldColor := s.console.foreground
  let s := { s with console := s.console.setForeground color }
  let s := s.writeFmt text
  { s with console := (s.console.setForeground oldColor).present }

/-- What the printing macros do after the console. -/
def mirror (s : Session) (text : Text) : Session :=
  if s.serialMirror then { s with mirrored := s.mirrored ++ text } else s

/-- `console_print!`. -/
def print (s : Session) (text : Text) : Session := (s.writeFmt text).mirror text

/-- `console_println!` and `console_println_color!`. -/
def println (s : Session) (color : Option Color) (text : Text) : Session :=
  let text := text ++ ['\n']
  match color with
  | none => (s.writeFmt text).mirror text
  | some color => (s.writeFmtColor color text).mirror text

/-- Several lines of one color. -/
def printLines (s : Session) (color : Color) (lines : List Text) : Session :=
  lines.foldl (fun s text => s.println (some color) text) s

/-! ## Commands -/

/-- What an effect of a command does to the session. Its call of the heap, if it is one, is
`System.perform`, and a call that goes wrong leaves no session. -/
def perform (env : Env) (s : Session) : Effect → Session
  | .print text => s.print text
  | .println color text => s.println color text
  | .clear => { s with console := s.console.clear }
  | .present => { s with console := s.console.present }
  | .setBackground color => { s with console := s.console.setBackground color }
  | .setForeground color => { s with console := s.console.setForeground color }
  | .setSerialMirror enabled => { s with serialMirror := enabled }
  | .alloc _ _ => s
  | .dealloc _ _ => s
  | .memAnalyze => s.printLines Color.GREEN (memAnalyze env.memory)
  | .breakpoint => s.printLines Color.RED ["EXCEPTION: BREAKPOINT".toList, env.stackFrame]
  | .panic =>
    let s := s.println (some Color.RED) ("KERNEL PANIC: ".toList ++ env.panicInfo)
    { s with console := s.console.present, halted := true }
  | .reboot => { s with halted := true }
  | .exitQemu _ => { s with halted := true }

/-- The effects of a command, up to one that does not return. -/
def performAll (env : Env) (s : Session) (effects : List Effect) : Session :=
  effects.foldl (fun s e => if s.halted then s else s.perform env e) s

/-- `shell::execute`. A command that the heap starves panics before its first effect, and nothing
reads what it leaves of the file system. -/
def execute (env : HeapEnv) (s : Session) (text : Text) : Session :=
  if env.starved ∧ allocates text then s.perform env.toEnv .panic
  else
    let (effects, k) := Shell.execute (s.kernel env) text
    { s with fs := k.fs }.performAll env.toEnv effects

/-- A starved command panics. -/
theorem execute_starved {env : HeapEnv} {text : Text} (h : env.starved ∧ allocates text)
    (s : Session) : s.execute env text = s.perform env.toEnv .panic := if_pos h

/-- Any other has its effects. -/
theorem execute_eq {env : HeapEnv} {text : Text} (h : ¬(env.starved ∧ allocates text))
    (s : Session) : s.execute env text =
      { s with fs := (Shell.execute (s.kernel env) text).2.fs }.performAll env.toEnv
        (Shell.execute (s.kernel env) text).1 := if_neg h

/-! ## Keys -/

/-- Execute the bytes of a line, if they are a text. -/
def executeLine (env : HeapEnv) (s : Session) (command : List UInt8) : Session :=
  match fromUtf8 command with
  | some text => s.execute env text
  | none => s

/-- Prompt for the next line, if the command has returned. -/
def prompt (s : Session) : Session :=
  if s.halted then s else { s with console := s.console.prompt.present }

/-- `console::receive_key`. -/
def receiveKey (env : HeapEnv) (s : Session) (key : Char) : Session :=
  if key = '\n' ∨ key = '\r' then
    let (console, command) := s.console.enter key
    let s := { s with console := console }
    match command with
    | some command => (s.executeLine env command).prompt
    | none => { s with console := s.console.present }
  else { s with console := (s.console.receiveKey key).present }

/-- A key that arrives; after a command that has not returned, none does. -/
def step (s : Session) (event : HeapEnv × Char) : Session :=
  if s.halted then s else s.receiveKey event.1 event.2

/-! ## Start -/

/-- What starting the kernel prints. -/
def kinit : List Effect :=
  (["[STARTUP] Initializing GDT...", "[STARTUP] Initializing IDT...",
    "[STARTUP] Initializing PIC...", "[STARTUP] Enabling interrupts...",
    "[STARTUP] initializing acpi...", "[STARTUP] initializing kmem..."].flatMap fun text =>
      [.print text.toList, .println (some Color.GREEN) "[OK]".toList]) ++
    ["", "[INFO] Kernel is running.", "[INFO] Timer interrupts should now arrive.",
      "[INFO] Press keys to test keyboard IRQs.", ""].map fun text => line text.toList

/-- The logo of the kernel. -/
def logo : String :=
  "  _________.__.__  .__   ________    _________\n" ++
  " /   _____/|__|  | |  |  \\_____  \\  /   _____/\n" ++
  " \\_____  \\ |  |  | |  |   /   |   \\ \\_____  \\ \n" ++
  " /        \\|  |  |_|  |__/    |    \\/        \\\n" ++
  "/_______  /|__|____/____/\\_______  /_______  /\n" ++
  "        \\/                       \\/        \\/"

/-- A cleared screen with the logo and the first prompt. -/
def welcome : List Effect :=
  [.clear, .present, line "Welcome to...".toList, line logo.toList, .present, .print "> ".toList,
    .present]

/-- The session of a fresh console, on buffers of arbitrary contents. -/
def start (font : Font) (info : Info) (back : Nat → UInt32) (front : ByteMemory) : Session where
  console := Console.init font ((Framebuffer.init info back front).clear Color.BLACK)
  fs := Fs.TmpFs.new
  serialMirror := false
  mirrored := []
  halted := false

/-- The session as `kinit` and `kernel` leave it at the first prompt. Initializations that
fail are left out, and so are keys that arrive before the prompt, from when `kinit` has
enabled interrupts. -/
def boot (env : Env) (font : Font) (info : Info) (back : Nat → UInt32) (front : ByteMemory) :
    Session := (start font info back front).performAll env (kinit ++ welcome)

/-- The session after some keys. -/
def after (s : Session) (events : List (HeapEnv × Char)) : Session := events.foldl step s

/-! ## Keys, case by case -/

variable {env : HeapEnv} {s : Session} {key : Char}

/-- Enter hands on a line, so the case without one does not arise. -/
theorem receiveKey_enter (s : Session) (env : HeapEnv) (hkey : key = '\n' ∨ key = '\r') :
    ∃ command, (s.console.enter key).2 = some command ∧ s.receiveKey env key =
      ({ s with console := (s.console.enter key).1 }.executeLine env command).prompt := by
  have hready : (s.console.receiveKey key).lineReady = true := by
    rw [Console.receiveKey, if_pos hkey]
  obtain ⟨command, hcommand⟩ : ∃ command, (s.console.enter key).2 = some command := by
    simp only [Console.enter, Console.readLine, hready, Bool.not_true, Bool.false_eq_true, if_false,
      Option.map_some, Option.some_inj, exists_eq']
  refine ⟨command, hcommand, ?_⟩
  rw [receiveKey, if_pos hkey]
  dsimp only
  rw [hcommand]

/-- A key that is not Enter edits the line. -/
theorem receiveKey_edit (hkey : ¬(key = '\n' ∨ key = '\r')) :
    s.receiveKey env key = { s with console := (s.console.receiveKey key).present } := if_neg hkey

/-- After a command that has not returned, keys do nothing. -/
theorem after_of_halted (h : s.halted = true) (events : List (HeapEnv × Char)) :
    s.after events = s :=
  List.foldlRecOn (motive := fun t => t = s) events step rfl fun t ht event _ => by
    rw [ht, step, if_pos h]

/-- Keys after keys. -/
theorem after_append (s : Session) (events more : List (HeapEnv × Char)) :
    s.after (events ++ more) = (s.after events).after more := List.foldl_append

/-- One more key. -/
theorem after_concat (s : Session) (events : List (HeapEnv × Char)) (event : HeapEnv × Char) :
    s.after (events ++ [event]) = (s.after events).step event := by
  rw [after, List.foldl_append]
  rfl

end Session

end SillOS

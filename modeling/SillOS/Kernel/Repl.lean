import SillOS.Console.LineEditing
import SillOS.Console.Window
import SillOS.Kernel.Session

/-!
# The session that the user sees

What a session is for: a line is a stack of characters, Enter executes it, what the
commands print goes to a terminal that never forgets a line, and what they allocate is
held until a line frees it. There are neither pixels nor scrolling nor a cursor that moves
back, and the heap is the set of blocks that lines hold.
-/

namespace SillOS

open Fb Shell

/-! ## Writing to the terminal -/

namespace Terminal

/-- Write the bytes of a text. -/
def write (width : Nat) (t : Terminal) (text : Text) : Terminal :=
  (Utf8.encode text).foldl (put width) t

/-- Nothing has been written behind the cursor. -/
def Clean (t : Terminal) : Prop :=
  ∀ line column, t.line < line ∨ line = t.line ∧ t.column ≤ column →
    t.lines line column = Cell.EMPTY

variable {t : Terminal} {width : Nat}

/-- A blank terminal is clean. -/
theorem clean_blank (foreground background : Color) : (blank foreground background).Clean :=
  fun _ _ _ => rfl

/-- A new line leaves it clean. -/
theorem clean_newline (h : t.Clean) : t.newline.Clean := by
  intro line column hbehind
  change t.line + 1 < line ∨ line = t.line + 1 ∧ 0 ≤ column at hbehind
  exact h line column (Or.inl (by omega))

/-- The column moves to the right. -/
theorem clean_column (h : t.Clean) {column : Nat} (hcolumn : t.column ≤ column) :
    ({ t with column := column } : Terminal).Clean := by
  intro line column' hbehind
  exact h line column' (hbehind.imp_right fun hline => ⟨hline.1, Nat.le_trans hcolumn hline.2⟩)

private theorem clean_print (h : t.Clean) (byte : UInt8) : (t.print width byte).Clean := by
  have hstore : ∀ line column, t.line < line ∨ line = t.line ∧ t.column < column →
      (t.store ⟨byte, t.foreground, t.background⟩).lines line column = Cell.EMPTY := by
    intro line column hbehind
    rw [lines_store, if_neg (by omega)]
    exact h line column (by omega)
  unfold print advance
  split_ifs
  · exact fun line column hbehind => hstore line column hbehind
  · refine fun line column hbehind => hstore line column (Or.inl ?_)
    change t.line + 1 < line ∨ line = t.line + 1 ∧ 0 ≤ column at hbehind
    omega

/-- All bytes but a carriage return leave the cursor ahead of what is written. -/
theorem clean_put (h : t.Clean) {byte : UInt8} (hbyte : byte ≠ 0x0d) :
    (t.put width byte).Clean := by
  have hnewline := clean_newline h
  unfold put tab
  dsimp only
  split_ifs
  · exact hnewline
  · exact hnewline
  · exact clean_column h (by omega)
  · exact clean_print h byte
  · exact h

/-- A printable byte is printed. -/
theorem put_of_printable (t : Terminal) {byte : UInt8} (hlow : 0x20 ≤ byte.toNat)
    (hhigh : byte.toNat ≤ 0x7e) : t.put width byte = t.print width byte := by
  have hne : ∀ control : UInt8, control.toNat < 0x20 → byte ≠ control := by
    rintro control hlt rfl
    omega
  have hprint : 0x20 ≤ byte ∧ byte ≤ 0x7e := ⟨hlow, hhigh⟩
  rw [put, if_neg (hne 0x0a (by decide)), if_neg (hne 0x0d (by decide)),
    if_neg (hne 0x09 (by decide)), if_pos hprint]

end Terminal

/-! ## The state -/

/-- A terminal behind whose cursor a line is typed. -/
structure Repl where
  terminal : Terminal
  /-- The typed bytes. -/
  typedLine : List UInt8
  fs : Fs.TmpFs
  serialMirror : Bool
  mirrored : Text
  halted : Bool
  /-- The blocks that lines have allocated and not freed. -/
  held : List (Nat × Layout)

/-- The width of the terminal. -/
def Fb.Info.columns (info : Info) : Nat := min (info.width / charWidth) maxColumns

namespace Repl

variable (info : Info)

/-- The terminal with the typed line. -/
def screen (r : Repl) : Terminal := r.typedLine.foldl (Terminal.put info.columns) r.terminal

/-- What the shell reads. -/
def kernel (env : HeapEnv) (r : Repl) : Kernel where
  fs := r.fs
  serialMirror := r.serialMirror
  width := info.width
  height := info.height
  alloc := env.alloc
  alloc_lt := env.alloc_lt

/-! ## Output -/

def write (r : Repl) (text : Text) : Repl :=
  { r with terminal := r.terminal.write info.columns text }

def setForeground (r : Repl) (color : Color) : Repl :=
  { r with terminal := { r.terminal with foreground := color } }

def mirror (r : Repl) (text : Text) : Repl :=
  if r.serialMirror then { r with mirrored := r.mirrored ++ text } else r

def print (r : Repl) (text : Text) : Repl := (r.write info text).mirror text

/-- A line in a color that is used for it only. -/
def println (r : Repl) (color : Option Color) (text : Text) : Repl :=
  let text := text ++ ['\n']
  match color with
  | none => r.print info text
  | some color =>
    (((r.setForeground color).write info text).setForeground r.terminal.foreground).mirror text

def printLines (r : Repl) (color : Color) (lines : List Text) : Repl :=
  lines.foldl (fun r text => r.println info (some color) text) r

/-- A block is held from its allocation, unless that was refused. -/
def hold (r : Repl) (ptr : Nat) (layout : Layout) : Repl :=
  if ptr = 0 then r else { r with held := (ptr, layout) :: r.held }

/-- An effect of a command. There is nothing to present. -/
def perform (env : Env) (r : Repl) : Effect → Repl
  | .print text => r.print info text
  | .println color text => r.println info color text
  | .clear => { r with terminal := .blank r.terminal.foreground r.terminal.background }
  | .present => r
  | .setBackground color => { r with terminal := { r.terminal with background := color } }
  | .setForeground color => r.setForeground color
  | .setSerialMirror enabled => { r with serialMirror := enabled }
  | .alloc layout ptr => r.hold ptr layout
  | .dealloc ptr layout => { r with held := r.held.erase (ptr, layout) }
  | .memAnalyze => r.printLines info Color.GREEN (memAnalyze env.memory)
  | .breakpoint => r.printLines info Color.RED ["EXCEPTION: BREAKPOINT".toList, env.stackFrame]
  | .panic =>
    { r.println info (some Color.RED) ("KERNEL PANIC: ".toList ++ env.panicInfo) with
      halted := true }
  | .reboot => { r with halted := true }
  | .exitQemu _ => { r with halted := true }

def performAll (env : Env) (r : Repl) (effects : List Effect) : Repl :=
  effects.foldl (fun r e => if r.halted then r else r.perform info env e) r

/-- A line, or the panic of a command that the heap starves. -/
def execute (env : HeapEnv) (r : Repl) (text : Text) : Repl :=
  if env.starved ∧ allocates text then r.perform info env.toEnv .panic
  else
    let (effects, k) := Shell.execute (r.kernel info env) text
    { r with fs := k.fs }.performAll info env.toEnv effects

/-! ## Keys -/

def prompt (r : Repl) : Repl := if r.halted then r else r.write info "> ".toList

/-- End the typed line. -/
def enter (r : Repl) : Repl := { r with terminal := (r.screen info).newline, typedLine := [] }

/-- A key: Enter executes the line, the other keys push and pop its bytes. -/
def step (r : Repl) (event : HeapEnv × Char) : Repl :=
  if r.halted then r
  else if event.2 = '\n' ∨ event.2 = '\r' then
    ((r.enter info).execute info event.1 (r.typedLine.map Char.ofUInt8)).prompt info
  else { r with typedLine := typed r.typedLine event.2 }

/-- The start: what the kernel prints on a blank terminal. -/
def boot (env : Env) : Repl :=
  let r : Repl := {
    terminal := .blank defaultForeground defaultBackground
    typedLine := []
    fs := Fs.TmpFs.new
    serialMirror := false
    mirrored := []
    halted := false
    held := [] }
  (r.write info "> ".toList).performAll info env (Session.kinit ++ Session.welcome)

def after (r : Repl) (events : List (HeapEnv × Char)) : Repl := events.foldl (step info) r

end Repl

end SillOS

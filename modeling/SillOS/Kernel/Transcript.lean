import SillOS.Kernel.Prompt
import SillOS.Kernel.Repl
import SillOS.Shell.AnalysisText

/-!
# A session shows its transcript

Key by key the session does what the reference does, and its screen is the window onto the
last lines of the reference's terminal, as long as every key that erases is typed right of the
prompt's columns.
-/

namespace SillOS

open Fb Shell Console

/-! ## Texts that only move forward -/

namespace Shell

/-- A text without backspaces and carriage returns. -/
def Forward (text : Text) : Prop := ∀ c ∈ text, c.toNat ≠ 8 ∧ c.toNat ≠ 0x0d

private theorem forward_append {text text' : Text} :
    Forward (text ++ text') ↔ Forward text ∧ Forward text' := List.forall_mem_append

private theorem Plain.forward {text : Text} (h : Plain text) : Forward text := by
  intro c hc
  have hprint := h c hc
  simp only [Printable] at hprint
  omega

private theorem forward_lit {l : Text}
    (h : l.all (fun c =>
      Nat.beq c.toNat 0x0a || (Nat.ble 0x20 c.toNat && Nat.ble c.toNat 0x7e)) = true) :
    Forward (String.ofList l).toList := by
  rw [String.toList_ofList]
  intro c hc
  have hchar := List.all_eq_true.mp h c hc
  rw [Bool.or_eq_true, Bool.and_eq_true, Nat.beq_eq, Nat.ble_eq, Nat.ble_eq] at hchar
  omega

private theorem forward_line {text : Text} (h : Forward text) : Forward (text ++ ['\n']) :=
  forward_append.mpr ⟨h, List.forall_mem_singleton.mpr (by decide)⟩

/-- No byte of such a text moves the cursor back. -/
theorem mem_encode_forward {text : Text} (h : Forward text) {b : UInt8}
    (hb : b ∈ Utf8.encode text) : b ≠ 8 ∧ b ≠ 0x0d := by
  constructor
  · rintro rfl
    obtain ⟨c, hc, heq⟩ := Utf8.mem_of_mem_encode hb (by decide)
    exact (h c hc).1 heq
  · rintro rfl
    obtain ⟨c, hc, heq⟩ := Utf8.mem_of_mem_encode hb (by decide)
    exact (h c hc).2 heq

end Shell

/-! ## Output -/

namespace Console

variable {c : Console} {t : Terminal} {info : Info}

/-- The console is a window onto the terminal, and nothing is typed. -/
structure Displays (info : Info) (c : Console) (t : Terminal) : Prop where
  shows : c.Shows t
  clean : t.Clean
  inGrid : c.InGrid
  sized : c.Sized info
  inputLen : c.inputLen = 0
  columns_pos : c.columns ≠ 0
  rows_pos : c.rows ≠ 0

/-- The window is as wide as the terminal. -/
theorem Displays.columns_eq (h : c.Displays info t) : c.columns = info.columns := h.sized.columns_eq

private theorem displays_put (h : c.Displays info t) {byte : UInt8}
    (hbyte : byte ≠ 8 ∧ byte ≠ 0x0d) :
    (c.putChar byte).Displays info (t.put info.columns byte) := by
  have hkeeps := c.keeps_putChar byte
  have hshows := shows_put h.shows h.inGrid h.columns_pos h.rows_pos hbyte.1
  rw [h.columns_eq] at hshows
  exact ⟨hshows, Terminal.clean_put h.clean hbyte.2, inGrid_putChar h.inGrid byte,
    hkeeps.sized h.sized, hkeeps.inputLen.trans h.inputLen,
    hkeeps.columns ▸ h.columns_pos, hkeeps.rows ▸ h.rows_pos⟩

private theorem displays_write (h : c.Displays info t) {text : Text} (htext : Forward text) :
    (c.writeStr (Utf8.encode text)).Displays info (t.write info.columns text) :=
  List.foldl_rel (r := fun (c : Console) t => c.Displays info t) h fun _ hb _ _ hc =>
    displays_put hc (mem_encode_forward htext hb)

private theorem displays_present (h : c.Displays info t) : c.present.Displays info t where
  shows := ⟨h.shows.foreground, h.shows.background, h.shows.cursorX, h.shows.cursorY,
    h.shows.cells, h.shows.unwritten⟩
  clean := h.clean
  inGrid := ⟨h.inGrid.cursorX_lt, h.inGrid.cursorY_lt⟩
  sized := ⟨c.fb.present_info.trans h.sized.info_eq, h.sized.columns_eq, h.sized.rows_eq⟩
  inputLen := h.inputLen
  columns_pos := h.columns_pos
  rows_pos := h.rows_pos

private theorem displays_setForeground (h : c.Displays info t) (color : Color) :
    (c.setForeground color).Displays info { t with foreground := color } where
  shows := ⟨rfl, h.shows.background, h.shows.cursorX, h.shows.cursorY, h.shows.cells,
    h.shows.unwritten⟩
  clean := h.clean
  inGrid := ⟨h.inGrid.cursorX_lt, h.inGrid.cursorY_lt⟩
  sized := ⟨h.sized.info_eq, h.sized.columns_eq, h.sized.rows_eq⟩
  inputLen := h.inputLen
  columns_pos := h.columns_pos
  rows_pos := h.rows_pos

private theorem displays_setBackground (h : c.Displays info t) (color : Color) :
    (c.setBackground color).Displays info { t with background := color } where
  shows := ⟨h.shows.foreground, rfl, h.shows.cursorX, h.shows.cursorY, h.shows.cells,
    h.shows.unwritten⟩
  clean := h.clean
  inGrid := ⟨h.inGrid.cursorX_lt, h.inGrid.cursorY_lt⟩
  sized := sized_setBackground h.sized color
  inputLen := h.inputLen
  columns_pos := h.columns_pos
  rows_pos := h.rows_pos

private theorem displays_clear (h : c.Displays info t) :
    c.clear.Displays info (.blank t.foreground t.background) where
  shows := h.shows.foreground ▸ h.shows.background ▸ shows_clear h.rows_pos
  clean := Terminal.clean_blank _ _
  inGrid := c.inGrid_clear
  sized := sized_clear h.sized
  inputLen := rfl
  columns_pos := h.columns_pos
  rows_pos := h.rows_pos

/-- The input line is not on the screen. -/
theorem shows_input (h : c.Shows t) (input : Nat → UInt8) (inputLen : Nat) (lineReady : Bool) :
    ({ c with input := input, inputLen := inputLen, lineReady := lineReady } : Console).Shows t :=
  ⟨h.foreground, h.background, h.cursorX, h.cursorY, h.cells, h.unwritten⟩

private theorem shows_present (h : c.Shows t) : c.present.Shows t :=
  ⟨h.foreground, h.background, h.cursorX, h.cursorY, h.cells, h.unwritten⟩

/-- Erasing a printed byte inside a row takes it back. -/
theorem shows_backspace {byte : UInt8} (h : c.Shows (t.print c.columns byte)) (hclean : t.Clean)
    (hx : 0 < c.cursorX) (hlt : c.cursorX < c.columns) : c.backspace.Shows t := by
  have hcolumns := c.columns_le
  have hedge : t.column + 1 < c.columns := by
    by_contra hedge
    have hnew : (t.print c.columns byte).column = 0 := by
      rw [Terminal.print, Terminal.advance, if_neg (by exact hedge)]
      rfl
    rw [h.cursorX, hnew] at hx
    exact Nat.lt_irrefl 0 hx
  have hprint : t.print c.columns byte =
      { t.store ⟨byte, t.foreground, t.background⟩ with column := t.column + 1 } := by
    rw [Terminal.print, Terminal.advance, if_pos (by exact hedge)]
    rfl
  rw [hprint] at h
  have hcursor : c.cursorX = t.column + 1 := h.cursorX
  have hline : t.top c.rows + c.cursorY = t.line := h.cursorY
  have hback : c.backspace =
      { c with cursorX := c.cursorX - 1 }.drawCell c.cursorY (c.cursorX - 1) Cell.EMPTY := by
    rw [backspace_eq, if_neg (by omega), if_neg (by omega)]
  rw [hback]
  refine ⟨h.foreground, h.background, ?_, h.cursorY, ?_, fun line column hbelow =>
    hclean line column (Or.inl hbelow)⟩
  · change c.cursorX - 1 = t.column
    omega
  · intro row column hrow hcolumn
    have hcell := h.cells row column hrow hcolumn
    change row < c.rows at hrow
    change column < c.columns at hcolumn
    change c.getCell row column = (t.store _).lines (t.top c.rows + row) column at hcell
    change _ = t.lines (t.top c.rows + row) column
    rw [getCell_drawCell _ _ (by omega) (by omega)]
    split_ifs with hhere
    · exact (hclean _ _ (Or.inr ⟨by omega, by omega⟩)).symm
    · change c.getCell row column = _
      rw [hcell, Terminal.lines_store, if_neg (by omega)]

end Console

/-! ## Commands -/

/-- The texts of the environment do not move the cursor back. -/
structure Env.Forward (env : Env) : Prop where
  stackFrame : Shell.Forward env.stackFrame
  panicInfo : Shell.Forward env.panicInfo
  cr3Flags : Plain env.memory.cr3Flags

namespace Session

/-- Between keys: a session that shows what the reference has printed. What the reference
holds is not of the session. -/
structure Follows (info : Info) (s : Session) (r : Repl) : Prop where
  displays : s.console.Displays info r.terminal
  typedLine : r.typedLine = []
  fs : s.fs = r.fs
  serialMirror : s.serialMirror = r.serialMirror
  mirrored : s.mirrored = r.mirrored
  halted : s.halted = r.halted

variable {info : Info} {s : Session} {r : Repl} {env : Env}

/-- An operation on the screen alone. -/
theorem Follows.screen (h : Follows info s r) {c : Console} {t : Terminal}
    (hdisplays : c.Displays info t) :
    Follows info { s with console := c } { r with terminal := t } :=
  ⟨hdisplays, h.typedLine, h.fs, h.serialMirror, h.mirrored, h.halted⟩

private theorem follows_mirror (h : Follows info s r) (text : Text) :
    Follows info (s.mirror text) (r.mirror text) := by
  unfold mirror Repl.mirror
  rw [← h.serialMirror]
  split_ifs
  · exact ⟨h.displays, h.typedLine, h.fs, rfl, congrArg (· ++ text) h.mirrored, h.halted⟩
  · exact h

private theorem follows_write (h : Follows info s r) {text : Text} (htext : Forward text) :
    Follows info (s.writeFmt text) (r.write info text) :=
  h.screen (displays_present (displays_write h.displays htext))

private theorem follows_print (h : Follows info s r) {text : Text} (htext : Forward text) :
    Follows info (s.print text) (r.print info text) := follows_mirror (follows_write h htext) text

private theorem follows_setForeground (h : Follows info s r) (color : Color) :
    Follows info { s with console := s.console.setForeground color } (r.setForeground color) :=
  h.screen (displays_setForeground h.displays color)

private theorem follows_println (h : Follows info s r) (color : Option Color) {text : Text}
    (htext : Forward text) : Follows info (s.println color text) (r.println info color text) := by
  have hline := forward_line htext
  cases color with
  | none => exact follows_print h hline
  | some color =>
    have hwritten := follows_write (follows_setForeground h color) hline
    have hrestored := follows_setForeground hwritten r.terminal.foreground
    refine follows_mirror ?_ _
    rw [writeFmtColor, h.displays.shows.foreground]
    exact hrestored.screen (displays_present hrestored.displays)

private theorem follows_printLines (h : Follows info s r) (color : Color) {lines : List Text}
    (hlines : ∀ text ∈ lines, Forward text) :
    Follows info (s.printLines color lines) (r.printLines info color lines) :=
  List.foldl_rel (r := fun (s : Session) r => Follows info s r) h fun text htext _ _ hs =>
    follows_println hs (some color) (hlines text htext)

private theorem follows_perform (h : Follows info s r) (henv : env.Forward) {e : Effect}
    (he : e.Prints Shell.Forward) : Follows info (s.perform env e) (r.perform info env e) := by
  cases e with
  | print text => exact follows_print h he
  | println color text => exact follows_println h color he
  | clear =>
    have hclear := displays_clear h.displays
    exact h.screen hclear
  | present => exact h.screen (displays_present h.displays)
  | setBackground color => exact h.screen (displays_setBackground h.displays color)
  | setForeground color => exact follows_setForeground h color
  | setSerialMirror enabled =>
    exact ⟨h.displays, h.typedLine, h.fs, rfl, h.mirrored, h.halted⟩
  | memAnalyze =>
    exact follows_printLines h Color.GREEN fun text htext =>
      (plain_memAnalyze henv.cr3Flags text htext).forward
  | breakpoint =>
    refine follows_printLines h Color.RED (List.forall_mem_cons.mpr ⟨forward_lit rfl, ?_⟩)
    exact List.forall_mem_singleton.mpr henv.stackFrame
  | panic =>
    have htext : Forward ("KERNEL PANIC: ".toList ++ env.panicInfo) :=
      forward_append.mpr ⟨forward_lit rfl, henv.panicInfo⟩
    have hprint := follows_println h (some Color.RED) htext
    exact ⟨displays_present hprint.displays, hprint.typedLine, hprint.fs, hprint.serialMirror,
      hprint.mirrored, rfl⟩
  | reboot => exact ⟨h.displays, h.typedLine, h.fs, h.serialMirror, h.mirrored, rfl⟩
  | exitQemu success => exact ⟨h.displays, h.typedLine, h.fs, h.serialMirror, h.mirrored, rfl⟩
  | alloc layout ptr =>
    change Follows info s (r.hold ptr layout)
    unfold Repl.hold
    split_ifs
    · exact h
    · exact ⟨h.displays, h.typedLine, h.fs, h.serialMirror, h.mirrored, h.halted⟩
  | dealloc ptr layout =>
    exact ⟨h.displays, h.typedLine, h.fs, h.serialMirror, h.mirrored, h.halted⟩

private theorem follows_performAll (h : Follows info s r) (henv : env.Forward)
    {effects : List Effect}
    (heffects : ∀ e ∈ effects, e.Prints Shell.Forward) :
    Follows info (s.performAll env effects) (r.performAll info env effects) := by
  refine List.foldl_rel (r := fun (s : Session) r => Follows info s r) h fun e he t u ht => ?_
  rw [ht.halted]
  split_ifs
  · exact ht
  · exact follows_perform ht henv (heffects e he)

/-- Both hand the shell the same kernel. -/
theorem Follows.kernel_eq (h : Follows info s r) (env : HeapEnv) :
    s.kernel env = r.kernel info env := by
  have hinfo := h.displays.sized.info_eq
  simp only [kernel, Repl.kernel, h.fs, h.serialMirror, hinfo]

private theorem Prints.forward {e : Effect} (h : e.Prints Plain) : e.Prints Shell.Forward := by
  cases e with
  | print text => exact Plain.forward h
  | println color text => exact Plain.forward h
  | _ => trivial

private theorem follows_execute {env : HeapEnv} (h : Follows info s r) (henv : env.Forward)
    (hfs : PlainPaths s.fs) {text : Text} (hplain : Plain text) :
    Follows info (s.execute env text) (r.execute info env text) := by
  by_cases hstarved : env.starved ∧ allocates text
  · rw [execute_starved hstarved, Repl.execute, if_pos hstarved]
    exact follows_perform h henv trivial
  have hprints := execute_prints (k := s.kernel env) hplain hfs
  rw [execute_eq hstarved, Repl.execute, if_neg hstarved, ← h.kernel_eq env]
  refine follows_performAll (s := { s with fs := _ }) (r := { r with fs := _ }) ?_ henv
    fun e he => Prints.forward (hprints e he)
  exact ⟨h.displays, h.typedLine, rfl, h.serialMirror, h.mirrored, h.halted⟩

/-! ## Keys -/

/-- The session shows the reference's terminal with the typed line behind it. -/
structure Refines (info : Info) (s : Session) (r : Repl) : Prop where
  shows : s.console.Shows (r.screen info)
  clean : r.terminal.Clean
  sized : s.console.Sized info
  typedLine : s.console.line = r.typedLine
  /-- What a starved command leaves half stored, nothing reads. -/
  fs : s.halted = false → s.fs = r.fs
  serialMirror : s.serialMirror = r.serialMirror
  mirrored : s.mirrored = r.mirrored
  halted : s.halted = r.halted

/-- Without a typed line there is no difference. -/
theorem Follows.refines (h : Follows info s r) : Refines info s r where
  shows := by
    rw [Repl.screen, h.typedLine]
    exact h.displays.shows
  clean := h.displays.clean
  sized := h.displays.sized
  typedLine := by
    rw [h.typedLine, Console.line, h.displays.inputLen]
    rfl
  fs := fun _ => h.fs
  serialMirror := h.serialMirror
  mirrored := h.mirrored
  halted := h.halted

private theorem follows_prompt (h : Follows info s r) : Follows info s.prompt (r.prompt info) := by
  unfold prompt Repl.prompt
  by_cases hs : s.halted = true
  · rw [if_pos hs, if_pos (h.halted ▸ hs)]
    exact h
  · rw [if_neg hs, if_neg (h.halted ▸ hs)]
    have hprompt : Forward "> ".toList := forward_lit rfl
    exact h.screen (displays_present (displays_write h.displays hprompt))

/-- Ending the typed line. -/
theorem follows_entered (h : Refines info s r) (hrunning : s.halted = false)
    (hgrid : s.console.InGrid)
    (hsize : s.console.columns ≠ 0 ∧ s.console.rows ≠ 0) {key : Char}
    (hkey : key = '\n' ∨ key = '\r') (hclean : (r.screen info).Clean) :
    Follows info (s.entered key) (r.enter info) := by
  have henter := s.console.enter_console hkey
  have hkeeps := s.console.keeps_newline
  have hshows := shows_newline h.shows hsize.2
  have hdisplays : (s.console.enter key).1.Displays info (r.screen info).newline := by
    rw [henter]
    exact ⟨⟨hshows.foreground, hshows.background, hshows.cursorX, hshows.cursorY, hshows.cells,
        hshows.unwritten⟩,
      Terminal.clean_newline hclean,
      ⟨(inGrid_newline hgrid.cursorY_lt).cursorX_lt, (inGrid_newline hgrid.cursorY_lt).cursorY_lt⟩,
      ⟨(hkeeps.sized h.sized).info_eq, (hkeeps.sized h.sized).columns_eq,
        (hkeeps.sized h.sized).rows_eq⟩,
      rfl, hkeeps.columns ▸ hsize.1, hkeeps.rows ▸ hsize.2⟩
  exact ⟨hdisplays, rfl, h.fs hrunning, h.serialMirror, h.mirrored, h.halted⟩

/-- Typed bytes are printed. -/
theorem screen_concat (r : Repl) (line : List UInt8) (b : UInt8) :
    { r with typedLine := line ++ [b] }.screen info =
      ({ r with typedLine := line }.screen info).put info.columns b := by
  rw [Repl.screen, List.foldl_append]
  rfl

/-- Printable bytes leave the terminal clean. -/
theorem clean_screen (hclean : r.terminal.Clean)
    (hprint : ∀ b ∈ r.typedLine, 0x20 ≤ b.toNat ∧ b.toNat ≤ 0x7e) : (r.screen info).Clean := by
  refine List.foldlRecOn (motive := Terminal.Clean) r.typedLine _ hclean fun t ht b hb => ?_
  refine Terminal.clean_put ht ?_
  rintro rfl
  exact absurd (hprint _ hb).1 (by decide)

/-- A console that shows what the reference shows with another typed line. -/
theorem Refines.retype (h : Refines info s r) {d : Console} {line : List UInt8}
    (hshows : d.Shows ({ r with typedLine := line }.screen info)) (hgrid : s.console.SameGrid d)
    (hline : d.line = line) :
    Refines info { s with console := d.present } { r with typedLine := line } :=
  ⟨shows_present hshows, h.clean, ((sameGrid_rule.present d).sized (hgrid.sized h.sized)), hline,
    h.fs, h.serialMirror, h.mirrored, h.halted⟩

section Typing

variable (h : Refines info s r) (hs : s.Prompting)
include h hs

private theorem refines_push {byte : UInt8} (hlow : 0x20 ≤ byte.toNat) (hhigh : byte.toNat ≤ 0x7e) :
    Refines info
      { s with console := ({ s.console with
        input := Function.update s.console.input s.console.inputLen byte
        inputLen := s.console.inputLen + 1 }.putChar byte).present }
      { r with typedLine := r.typedLine ++ [byte] } := by
  have hline := line_push s.console byte
  have hsame := s.console.sameGrid_input
    (Function.update s.console.input s.console.inputLen byte) (s.console.inputLen + 1)
    s.console.lineReady
  have hshows := shows_input h.shows (Function.update s.console.input s.console.inputLen byte)
    (s.console.inputLen + 1) s.console.lineReady
  have hne : byte ≠ 8 := by
    rintro rfl
    exact absurd hlow (by decide)
  have hput := shows_put hshows ⟨hs.inGrid.cursorX_lt, hs.inGrid.cursorY_lt⟩ hs.columns_pos
    hs.rows_pos hne
  refine h.retype ?_ (hsame.trans (sameGrid_putChar _ byte)) ?_
  · rw [screen_concat, ← show s.console.columns = info.columns from h.sized.columns_eq]
    exact hput
  · rw [(keeps_putChar _ byte).line_eq, hline, h.typedLine]

private theorem refines_pop (htidy : s.Tidy) (hne : r.typedLine ≠ []) (hx : 0 < s.console.cursorX) :
    Refines info
      { s with
        console := ({ s.console with inputLen := s.console.inputLen - 1 }.putChar 8).present }
      { r with typedLine := r.typedLine.dropLast } := by
  obtain ⟨init, byte, hline⟩ : ∃ init byte, r.typedLine = init ++ [byte] :=
    ⟨_, _, (List.dropLast_append_getLast hne).symm⟩
  have hcolumns : s.console.columns = info.columns := h.sized.columns_eq
  have hprint : ∀ b ∈ r.typedLine, 0x20 ≤ b.toNat ∧ b.toNat ≤ 0x7e :=
    h.typedLine ▸ htidy.input.printable
  have hbyte := hprint byte (hline ▸ List.mem_append_right init List.mem_cons_self)
  have hclean : (({ r with typedLine := init } : Repl).screen info).Clean := clean_screen h.clean
    fun b hb => hprint b (hline ▸ List.mem_append_left _ hb)
  have hshows : s.console.Shows (({ r with typedLine := init }.screen info).print
      s.console.columns byte) := by
    have hscreen := h.shows
    rw [show r = { r with typedLine := init ++ [byte] } by rw [← hline], screen_concat,
      Terminal.put_of_printable _ hbyte.1 hbyte.2, ← hcolumns] at hscreen
    exact hscreen
  have hlen : s.console.inputLen > 0 := by
    rw [← line_length, h.typedLine]
    exact List.length_pos_iff.mpr hne
  have hlt : s.console.cursorX < s.console.columns := by
    have hgrid := hs.inGrid.cursorX_lt
    have hpos := hs.columns_pos
    omega
  rw [hline, List.dropLast_concat, putChar_backspace]
  refine h.retype ?_ ?_ ?_
  · exact shows_backspace (c := { s.console with inputLen := s.console.inputLen - 1 })
      (shows_input hshows _ _ _) hclean hx hlt
  · rw [← putChar_backspace]
    exact (s.console.sameGrid_input _ _ _).trans (sameGrid_putChar _ 8)
  · rw [(keeps_backspace _).line_eq, line_pop hlen, h.typedLine, hline, List.dropLast_concat]

/-- A key that edits the line, if it does not erase left of the prompt's end. -/
theorem refines_edit (htidy : s.Tidy) (hrunning : s.halted = false) {key : Char}
    (hkey : key ≠ '\n' ∧ key ≠ '\r')
    (herase : Erases key → r.typedLine ≠ [] → 2 < (2 + r.typedLine.length) % info.columns) :
    Refines info { s with console := (s.console.receiveKey key).present }
      { r with typedLine := typed r.typedLine key } := by
  have hcolumns : s.console.columns = info.columns := h.sized.columns_eq
  have hlen : s.console.inputLen = r.typedLine.length := by rw [← h.typedLine, line_length]
  have hx := (hs.echoing hrunning).cursorX
  rw [receiveKey_eq _ hkey, typed, hlen]
  by_cases her : Erases key
  · rw [if_pos her, if_pos her]
    by_cases hne : r.typedLine = []
    · have hempty : r.typedLine.dropLast = r.typedLine := by rw [hne, List.dropLast_nil]
      rw [if_neg (by simp [hne]), hempty]
      exact h.retype h.shows (SameGrid.refl _) h.typedLine
    · have hright := herase her hne
      rw [← hcolumns, ← hlen, ← hx] at hright
      rw [if_pos ⟨List.length_pos_iff.mpr hne, hright⟩, ← hlen]
      exact refines_pop h hs htidy hne (by omega)
  · rw [if_neg her, if_neg her]
    by_cases hpush : Printable key ∧ r.typedLine.length < inputSize
    · obtain ⟨hlow, hhigh⟩ := hpush.1
      have hbyte : (UInt8.ofNat key.toNat).toNat = key.toNat :=
        Nat.mod_eq_of_lt (Nat.lt_of_le_of_lt hhigh (by decide))
      rw [if_pos hpush, if_pos hpush, ← hlen]
      exact refines_push h hs (hbyte.symm ▸ hlow) (hbyte.symm ▸ hhigh)
    · rw [if_neg hpush, if_neg hpush]
      exact h.retype h.shows (SameGrid.refl _) h.typedLine

end Typing

/-- One key on both sides. -/
theorem refines_step (h : Refines info s r) (hs : s.Prompting) (htidy : s.Tidy)
    {event : HeapEnv × Char} (henv : event.1.Forward)
    (herase : r.halted = false → Erases event.2 → r.typedLine ≠ [] →
      2 < (2 + r.typedLine.length) % info.columns) :
    Refines info (s.step event) (r.step info event) := by
  by_cases hhalted : s.halted = true
  · rw [step, Repl.step, if_pos hhalted, if_pos (h.halted ▸ hhalted)]
    exact h
  have hrunning := eq_false_of_ne_true hhalted
  rw [step, Repl.step, if_neg hhalted, if_neg (h.halted ▸ hhalted)]
  by_cases hkey : event.2 = '\n' ∨ event.2 = '\r'
  · have hprint : ∀ b ∈ r.typedLine, 0x20 ≤ b.toNat ∧ b.toNat ≤ 0x7e :=
      h.typedLine ▸ htidy.input.printable
    have hentered := follows_entered h hrunning hs.inGrid ⟨hs.columns_pos, hs.rows_pos⟩ hkey
      (clean_screen h.clean hprint)
    rw [receiveKey_line htidy.input hkey, if_pos hkey, ← h.typedLine]
    exact (follows_prompt (follows_execute hentered henv htidy.paths
      (plain_lineText htidy.input))).refines
  · rw [receiveKey_edit hkey, if_neg hkey]
    exact refines_edit h hs htidy hrunning (not_or.mp hkey) (herase (h.halted ▸ hrunning))

/-- A key that is rejected takes the two apart. -/
theorem not_refines_step (h : Refines info s r) (hs : s.Prompting) (hrunning : s.halted = false)
    {event : HeapEnv × Char} (herase : Erases event.2) (hne : r.typedLine ≠ [])
    (hleft : ¬2 < (2 + r.typedLine.length) % info.columns) :
    ¬Refines info (s.step event) (r.step info event) := by
  have hlen : s.console.inputLen = r.typedLine.length := by rw [← h.typedLine, line_length]
  have hcolumns : s.console.columns = info.columns := h.sized.columns_eq
  have hx := (hs.echoing hrunning).cursorX
  have hkey : ¬(event.2 = '\n' ∨ event.2 = '\r') := by
    rintro (heq | heq)
    · rw [heq] at herase
      exact absurd herase (by decide)
    · rw [heq] at herase
      exact absurd herase (by decide)
  have hstep : (s.step event).console.line = r.typedLine := by
    rw [step, hrunning, if_neg Bool.false_ne_true, receiveKey_edit hkey, ← h.typedLine,
      receiveKey_eq _ (not_or.mp hkey), if_pos herase, if_neg]
    · rfl
    · rw [hx, hlen, hcolumns]
      exact fun hguard => hleft hguard.2
  have hpop : (r.step info event).typedLine = r.typedLine.dropLast := by
    rw [Repl.step, ← h.halted, hrunning, if_neg Bool.false_ne_true, if_neg hkey]
    exact if_pos herase
  intro hrefines
  have hsame := hrefines.typedLine
  rw [hstep, hpop] at hsame
  have hlength := congrArg List.length hsame
  have hpos := List.length_pos_iff.mpr hne
  rw [List.length_dropLast] at hlength
  omega

/-! ## Start -/

private theorem logo_forward : Shell.Forward logo.toList := by
  have hadd : ∀ {a b : String}, Shell.Forward a.toList → Shell.Forward b.toList →
      Shell.Forward (a ++ b).toList := by
    intro a b ha hb
    rw [String.toList_append]
    exact forward_append.mpr ⟨ha, hb⟩
  exact hadd (hadd (hadd (hadd (hadd (forward_lit rfl) (forward_lit rfl)) (forward_lit rfl))
    (forward_lit rfl)) (forward_lit rfl)) (forward_lit rfl)

private theorem prints_kinit : ∀ e ∈ kinit, e.Prints Plain := by
  have hlines : ∀ text ∈ ["", "[INFO] Kernel is running.",
      "[INFO] Timer interrupts should now arrive.",
      "[INFO] Press keys to test keyboard IRQs.", ""], Plain (String.toList text) := by
    simp only [List.forall_mem_cons]
    exact ⟨plain_lit rfl, plain_lit rfl, plain_lit rfl, plain_lit rfl, plain_lit rfl,
      List.forall_mem_nil _⟩
  have hsteps : ∀ text ∈ ["[STARTUP] Initializing GDT...", "[STARTUP] Initializing IDT...",
      "[STARTUP] Initializing PIC...", "[STARTUP] Enabling interrupts...",
      "[STARTUP] initializing acpi...", "[STARTUP] initializing kmem..."],
      Plain (String.toList text) := by
    simp only [List.forall_mem_cons]
    exact ⟨plain_lit rfl, plain_lit rfl, plain_lit rfl, plain_lit rfl, plain_lit rfl, plain_lit rfl,
      List.forall_mem_nil _⟩
  refine List.forall_mem_append.mpr ⟨fun e he => ?_, List.forall_mem_map.mpr hlines⟩
  obtain ⟨text, htext, he⟩ := List.mem_flatMap.mp he
  obtain rfl | rfl := List.mem_pair.mp he
  · exact hsteps text htext
  · exact (plain_lit rfl : Plain "[OK]".toList)

private theorem prints_welcome : ∀ e ∈ welcome, e.Prints Shell.Forward := by
  simp only [welcome, List.forall_mem_cons]
  exact ⟨trivial, trivial, (forward_lit rfl : Shell.Forward "Welcome to...".toList), logo_forward,
    trivial, (forward_lit rfl : Shell.Forward "> ".toList), trivial, List.forall_mem_nil _⟩

/-- The kernel starts in step with the reference. -/
theorem refines_boot (env : Env) (henv : env.Forward) (font : Font) (info : Info)
    (hwidth : charWidth ≤ info.width) (hheight : charHeight ≤ info.height) (back : Nat → UInt32)
    (front : ByteMemory) :
    Refines info (boot env font info back front) (Repl.boot info env) := by
  have hprints : ∀ e ∈ kinit ++ welcome, e.Prints Shell.Forward := List.forall_mem_append.mpr
    ⟨fun e he => Prints.forward (prints_kinit e he), prints_welcome⟩
  have hinfo : ((Framebuffer.init info back front).clear Color.BLACK).info = info := by
    simp [Framebuffer.init]
  have hsized := sized_new font ((Framebuffer.init info back front).clear Color.BLACK)
  rw [hinfo] at hsized
  have hclear : (new font ((Framebuffer.init info back front).clear Color.BLACK)).clear.Displays
      info (.blank defaultForeground defaultBackground) := by
    have hcolumns := hsized.columns_eq
    have hrows := hsized.rows_eq
    simp only [charWidth, charHeight, maxColumns, maxRows] at *
    have hrows_pos :
        (new font ((Framebuffer.init info back front).clear Color.BLACK)).rows ≠ 0 := by omega
    exact ⟨shows_clear hrows_pos, Terminal.clean_blank _ _, inGrid_clear _, sized_clear hsized, rfl,
      by change (new font _).columns ≠ 0; omega, hrows_pos⟩
  have hprompt : Forward "> ".toList := forward_lit rfl
  have hstart := displays_present (displays_write hclear hprompt)
  refine (follows_performAll ⟨hstart, rfl, rfl, rfl, rfl, rfl⟩ henv hprints).refines

end Session

end SillOS

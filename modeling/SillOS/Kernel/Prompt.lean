import SillOS.Console.Echo
import SillOS.Kernel.Screen

/-!
# The prompt of a session

Every command that returns leaves the cursor in the first column, so whenever the
kernel waits for a key the cursor ends a prompt and the input line.
-/

namespace SillOS

open Fb Shell

namespace Console

variable {c : Console}

/-! ## What output and input keep -/

/-- The same grid on the same screen, in the same font. -/
structure SameGrid (c d : Console) : Prop where
  font : d.font = c.font
  columns : d.columns = c.columns
  rows : d.rows = c.rows
  info : d.fb.info = c.fb.info

/-- A console has its own grid. -/
theorem SameGrid.refl (c : Console) : c.SameGrid c := ⟨rfl, rfl, rfl, rfl⟩

/-- The same as the same is the same. -/
theorem SameGrid.trans {d e : Console} (h : c.SameGrid d) (h' : d.SameGrid e) : c.SameGrid e :=
  ⟨h'.font.trans h.font, h'.columns.trans h.columns, h'.rows.trans h.rows, h'.info.trans h.info⟩

/-- The same grid has the same size. -/
theorem SameGrid.sized {d : Console} {info : Info} (h : c.SameGrid d) (hc : c.Sized info) :
    d.Sized info :=
  ⟨h.info.trans hc.info_eq, h.columns.trans hc.columns_eq, h.rows.trans hc.rows_eq⟩

/-- Printing a character keeps the grid. -/
theorem sameGrid_putChar (c : Console) (character : UInt8) : c.SameGrid (c.putChar character) :=
  ⟨(c.keeps_putChar character).font, (c.keeps_putChar character).columns,
    (c.keeps_putChar character).rows, (c.keeps_putChar character).info⟩

/-- The input line is not part of the grid. -/
theorem sameGrid_input (c : Console) (input : Nat → UInt8) (inputLen : Nat) (lineReady : Bool) :
    c.SameGrid { c with input := input, inputLen := inputLen, lineReady := lineReady } :=
  ⟨rfl, rfl, rfl, rfl⟩

private theorem sameGrid_receiveKey (c : Console) (key : Char) : c.SameGrid (c.receiveKey key) := by
  unfold receiveKey
  dsimp only
  split_ifs
  · exact (c.sameGrid_putChar 0x0a).trans (sameGrid_input _ _ _ true)
  · exact (c.sameGrid_input c.input (c.inputLen - 1) c.lineReady).trans (sameGrid_putChar _ 8)
  · exact SameGrid.refl c
  · exact (c.sameGrid_input _ (c.inputLen + 1) c.lineReady).trans (sameGrid_putChar _ _)
  · exact SameGrid.refl c
  · exact SameGrid.refl c

private theorem sameGrid_readLine (c : Console) (buffer : List UInt8) :
    c.SameGrid (c.readLine buffer).1 := by
  unfold readLine
  dsimp only
  split_ifs
  · exact SameGrid.refl c
  · exact ⟨rfl, rfl, rfl, rfl⟩

/-- The grid is fixed. -/
theorem sameGrid_rule : FrameRule SameGrid where
  refl := SameGrid.refl
  trans _ _ _ := SameGrid.trans
  putChar := sameGrid_putChar
  present c := ⟨rfl, rfl, rfl, c.fb.present_info⟩
  setForeground _ _ := ⟨rfl, rfl, rfl, rfl⟩
  clear c := ⟨rfl, rfl, rfl, c.fb.clear_info c.background⟩
  receiveKey := sameGrid_receiveKey
  readLine := sameGrid_readLine

private theorem sameGrid_setBackground (color : Color) (c : Console) :
    c.SameGrid (c.setBackground color) :=
  ⟨rfl, rfl, rfl, rfl⟩

private theorem inGrid_receiveKey (h : c.InGrid) (key : Char) : (c.receiveKey key).InGrid := by
  unfold receiveKey
  dsimp only
  split_ifs
  · have hgrid := inGrid_putChar h 0x0a
    exact ⟨hgrid.cursorX_lt, hgrid.cursorY_lt⟩
  · exact inGrid_putChar (c := { c with inputLen := c.inputLen - 1 })
      ⟨h.cursorX_lt, h.cursorY_lt⟩ 8
  · exact h
  · exact inGrid_putChar (c := { c with input := _, inputLen := c.inputLen + 1 })
      ⟨h.cursorX_lt, h.cursorY_lt⟩ _
  · exact h
  · exact h

/-- The cursor stays in the grid. -/
theorem inGrid_rule : FrameRule fun c d => c.InGrid → d.InGrid where
  refl _ := id
  trans _ _ _ h h' := h' ∘ h
  putChar _ character h := inGrid_putChar h character
  present _ h := ⟨h.cursorX_lt, h.cursorY_lt⟩
  setForeground _ _ h := ⟨h.cursorX_lt, h.cursorY_lt⟩
  clear c _ := c.inGrid_clear
  receiveKey _ key h := inGrid_receiveKey h key
  readLine c buffer h := by
    unfold readLine
    dsimp only
    split_ifs
    · exact h
    · exact ⟨h.cursorX_lt, h.cursorY_lt⟩

/-- Output does not type. -/
theorem inputLen_rule : OutputRule fun c d => c.inputLen = 0 → d.inputLen = 0 where
  refl _ := id
  trans _ _ _ h h' := h' ∘ h
  putChar c character h := (c.keeps_putChar character).inputLen.trans h
  present _ h := h
  setForeground _ _ h := h
  clear _ _ := rfl

private theorem writeStr_append (c : Console) (text text' : List UInt8) :
    c.writeStr (text ++ text') = (c.writeStr text).writeStr text' := List.foldl_append

/-- A text that ends in a line break leaves the cursor in the first column. -/
theorem writeStr_newline_cursorX (c : Console) (text : Text) :
    (c.writeStr (Utf8.encode (text ++ ['\n']))).cursorX = 0 := by
  have hbreak : Utf8.encode ['\n'] = [0x0a] := by decide
  rw [Utf8.encode_append, writeStr_append, hbreak]
  exact newline_cursorX _

private theorem echoing_present (h : c.Echoing) : c.present.Echoing :=
  ⟨h.columns_pos, h.rows_pos, ⟨h.inGrid.cursorX_lt, h.inGrid.cursorY_lt⟩, h.cursorX, h.echoes_line⟩

/-- Enter ends the line and empties it. -/
theorem enter_console (c : Console) {key : Char} (hkey : key = '\n' ∨ key = '\r') :
    (c.enter key).1 = { c.newline with inputLen := 0, lineReady := false } := by
  simp only [enter, receiveKey, if_pos hkey, readLine, Bool.not_true, Bool.false_eq_true, if_false]
  rfl

end Console

namespace Session

open Console

variable {s : Session} {env : Env}

/-! ## The first column -/

private theorem println_cursorX (s : Session) (color : Option Color) (text : Text) :
    (s.println color text).console.cursorX = 0 := by
  cases color with
  | none =>
    rw [println, mirror_console]
    exact writeStr_newline_cursorX _ text
  | some color =>
    rw [println, mirror_console]
    exact writeStr_newline_cursorX _ text

private theorem printLines_cursorX (h : s.console.cursorX = 0) (color : Color) (lines : List Text) :
    (s.printLines color lines).console.cursorX = 0 :=
  List.foldlRecOn (motive := fun t : Session => t.console.cursorX = 0) lines _ h
    fun t _ text _ => println_cursorX t (some color) text

/-- All effects but printing without a line break keep the cursor in the first column. -/
theorem home_perform (h : s.console.cursorX = 0) {e : Effect} (he : ∀ text, e ≠ .print text) :
    (s.perform env e).console.cursorX = 0 := by
  cases e with
  | print text => exact absurd rfl (he text)
  | println color text => exact println_cursorX s color text
  | clear => rfl
  | memAnalyze => exact printLines_cursorX h _ _
  | breakpoint => exact printLines_cursorX h _ _
  | panic => exact println_cursorX s (some Color.RED) _
  | present | setBackground | setForeground | setSerialMirror | alloc | dealloc | reboot
  | exitQemu => exact h

private theorem home_performAll (h : s.console.cursorX = 0) {effects : List Effect}
    (heffects : ∀ text, .print text ∉ effects) :
    (s.performAll env effects).console.cursorX = 0 := by
  refine List.foldlRecOn (motive := fun t : Session => t.console.cursorX = 0) effects _ h
    fun t ht e he => ?_
  split_ifs
  · exact ht
  · exact home_perform ht fun text heq => heffects text (heq ▸ he)

/-- A line break at the end leads to the first column. -/
theorem home_performAll_line (h : s.console.cursorX = 0) (effects : List Effect)
    (hreturns : ∀ e ∈ effects, Returns e) (text : Text) :
    (s.performAll env (effects ++ [Shell.line text])).console.cursorX = 0 := by
  cases hs : s.halted with
  | true => rwa [performAll_of_halted hs]
  | false =>
    have hrunning : (s.performAll env effects).halted = false := performAll_halted hs hreturns
    rw [performAll_append, performAll_cons, hrunning]
    exact println_cursorX _ none text

/-- Every line of the shell ends in the first column. -/
theorem home_execute {env : HeapEnv} (h : s.console.cursorX = 0) (hfs : PlainPaths s.fs)
    {text : Text} (hplain : Plain text) : (s.execute env text).console.cursorX = 0 := by
  have hreports : ∀ {effects : List Effect}, (∀ e ∈ effects, Reports Plain e) →
      ∀ text, .print text ∉ effects := fun heffects text hmem => heffects _ hmem
  by_cases hstarved : env.starved ∧ allocates text
  · rw [execute_starved hstarved]
    exact home_perform h nofun
  rw [execute_eq hstarved]
  generalize hrun : Shell.execute (s.kernel env) text = run
  have ht : ({ s with fs := run.2.fs } : Session).console.cursorX = 0 := h
  generalize ({ s with fs := run.2.fs } : Session) = t at ht
  cases hrun ▸ execute_conduct (s.kernel env) text with
  | reports hlines => exact home_performAll ht (hreports (hlines hplain hfs))
  | echo _ =>
    refine home_performAll_line ht _ (fun e he => ?_) []
    obtain ⟨w, -, rfl⟩ | rfl := mem_echo he
    · trivial
    · trivial
  | clear => exact home_performAll ht (by simp [clearterm])
  | foreground color => exact home_performAll ht (by simp)
  | background hcolor => exact home_performAll ht (by simp)
  | toggle => exact home_performAll ht (by simp [toggleSerial])
  | mkdir hpath => exact home_performAll ht (hreports (reports_mkdir (plain_word hplain hpath)))
  | touch hpath => exact home_performAll ht (hreports (reports_touch (plain_word hplain hpath)))

/-! ## Echo -/

/-- While a session runs, its prompt and input line end at the cursor. -/
structure Prompting (s : Session) : Prop where
  columns_pos : s.console.columns ≠ 0
  rows_pos : s.console.rows ≠ 0
  inGrid : s.console.InGrid
  echoing : s.halted = false → s.console.Echoing

/-- The prompt for the next line. -/
theorem echoing_prompt_of_home (hsize : s.console.columns ≠ 0 ∧ s.console.rows ≠ 0)
    (hgrid : s.console.InGrid) (hx : s.console.cursorX = 0) (hinput : s.console.inputLen = 0)
    (h : s.prompt.halted = false) : s.prompt.console.Echoing := by
  unfold prompt at h ⊢
  split_ifs at h ⊢ with hs
  · rw [hs] at h
    cases h
  · exact echoing_present (echoing_prompt hgrid hsize.1 hsize.2 hx hinput)

/-- Enter, from the end of the line to the next prompt. -/
theorem echoing_executed {env : HeapEnv} (h : s.Prompting) (htidy : s.Tidy) {key : Char}
    (hkey : key = '\n' ∨ key = '\r') {text : Text} (hplain : Plain text)
    (hrunning : (((s.entered key).execute env text).prompt).halted = false) :
    (((s.entered key).execute env text).prompt).console.Echoing := by
  have henter := s.console.enter_console hkey
  have hx : (s.entered key).console.cursorX = 0 := by
    rw [entered, henter]
    exact newline_cursorX _
  have hinput : (s.entered key).console.inputLen = 0 := by rw [entered, henter]
  have hsize := (frame_enter sameGrid_rule s.console key).trans
    (frame_execute sameGrid_rule sameGrid_setBackground env (s.entered key) text)
  have hgrid := frame_execute inGrid_rule (fun _ _ h => ⟨h.cursorX_lt, h.cursorY_lt⟩) env
    (s.entered key) text (frame_enter inGrid_rule s.console key h.inGrid)
  have hhome : ((s.entered key).execute env text).console.cursorX = 0 :=
    home_execute hx htidy.paths hplain
  have hempty : ((s.entered key).execute env text).console.inputLen = 0 := by
    by_cases hstarved : env.starved ∧ allocates text
    · rw [execute_starved hstarved]
      exact frame_perform inputLen_rule env.toEnv (s.entered key) nofun hinput
    · rw [execute_eq hstarved]
      exact frame_performAll inputLen_rule env.toEnv { s.entered key with fs := _ }
        (fun _ _ _ h => h) hinput
  exact echoing_prompt_of_home ⟨hsize.columns ▸ h.columns_pos, hsize.rows ▸ h.rows_pos⟩ hgrid
    hhome hempty hrunning

private theorem prompting_step (h : s.Prompting) (htidy : s.Tidy) (event : HeapEnv × Char) :
    (s.step event).Prompting := by
  have hsize := frame_after sameGrid_rule sameGrid_setBackground s [event]
  have hgrid := frame_after inGrid_rule (fun _ _ h => ⟨h.cursorX_lt, h.cursorY_lt⟩) s [event]
    h.inGrid
  change s.console.SameGrid (s.step event).console at hsize
  refine ⟨hsize.columns ▸ h.columns_pos, hsize.rows ▸ h.rows_pos, hgrid, fun hrunning => ?_⟩
  have hs := halted_of_step hrunning
  cases hexec : s.executedBy event.2 with
  | none =>
    obtain heq | ⟨hkey, heq⟩ := step_of_executedBy_none hexec
    · rw [heq]
      exact h.echoing hs
    · rw [heq]
      exact echoing_present (echoing_receiveKey (h.echoing hs) (not_or.mp hkey))
  | some text =>
    obtain ⟨-, -, heq⟩ := step_of_executedBy htidy.input hexec
    have hkey : event.2 = '\n' ∨ event.2 = '\r' := by
      unfold executedBy at hexec
      split_ifs at hexec with hkey
      exact hkey.2
    rw [heq] at hrunning ⊢
    exact echoing_executed h htidy hkey (executedBy_plain htidy.input hexec) hrunning

/-- While a session runs it goes on prompting. -/
theorem prompting_after (h : s.Prompting) (htidy : s.Tidy) (events : List (HeapEnv × Char)) :
    (s.after events).Prompting := by
  induction events generalizing s with
  | nil => exact h
  | cons event events ih => exact ih (prompting_step h htidy event) (tidy_step htidy event).1

/-- The last line of the welcome, and the prompt behind it. -/
theorem welcome_eq : kinit ++ welcome =
    (kinit ++ [.clear, .present, Shell.line "Welcome to...".toList]) ++
      [Shell.line logo.toList] ++ [.present, .print "> ".toList, .present] := by
  rw [List.append_assoc, List.append_assoc]
  rfl

/-- Printing the text of the prompt is the prompt. -/
theorem print_prompt (s : Session) :
    (s.print "> ".toList).console = s.console.prompt.present := by
  rw [print, mirror_console]
  rfl

/-- A running session that presents, prints the prompt and presents. -/
theorem echoing_welcome (hsize : s.console.columns ≠ 0 ∧ s.console.rows ≠ 0)
    (hgrid : s.console.InGrid) (hx : s.console.cursorX = 0) (hinput : s.console.inputLen = 0)
    (hs : s.halted = false) :
    (s.performAll env [.present, .print "> ".toList, .present]).console.Echoing := by
  have hconsole : (s.performAll env [.present, .print "> ".toList, .present]).console =
      s.console.present.prompt.present.present := by
    simp only [performAll_cons, performAll_nil, hs, Bool.false_eq_true, if_false, perform,
      print_halted, print_prompt]
  rw [hconsole]
  exact echoing_present (echoing_present (echoing_prompt (inGrid_rule.present _ hgrid) hsize.1
    hsize.2 hx hinput))

/-- What starting the kernel prints ends in a prompt. -/
theorem prompting_start (hcells : s.console.columns ≠ 0 ∧ s.console.rows ≠ 0)
    (hgrid : s.console.InGrid) (hinput : s.console.inputLen = 0) (hs : s.halted = false) :
    (s.performAll env (kinit ++ welcome)).Prompting := by
  have hsize' : SameGrid s.console (s.performAll env (kinit ++ welcome)).console :=
    frame_performAll sameGrid_rule.toOutputRule env s fun color _ => sameGrid_setBackground color
  have hgrid' : (s.performAll env (kinit ++ welcome)).console.InGrid :=
    frame_performAll inGrid_rule.toOutputRule env s
      (fun _ _ _ h => ⟨h.cursorX_lt, h.cursorY_lt⟩) hgrid
  refine ⟨hsize'.columns ▸ hcells.1, hsize'.rows ▸ hcells.2, hgrid', fun _ => ?_⟩
  rw [welcome_eq, performAll_append]
  generalize hlines : kinit ++ [.clear, .present, Shell.line "Welcome to...".toList] = lines
  have hreturns : ∀ e ∈ lines, Returns e := hlines ▸ (by decide)
  have hrunning : (s.performAll env lines).halted = false := performAll_halted hs hreturns
  have hsize : SameGrid s.console (s.performAll env (lines ++ [Shell.line logo.toList])).console :=
    frame_performAll sameGrid_rule.toOutputRule env s fun color _ => sameGrid_setBackground color
  refine echoing_welcome ⟨hsize.columns ▸ hcells.1, hsize.rows ▸ hcells.2⟩ ?_ ?_ ?_ ?_
  · exact frame_performAll inGrid_rule.toOutputRule env s
      (fun _ _ _ h => ⟨h.cursorX_lt, h.cursorY_lt⟩) hgrid
  · rw [performAll_append, performAll_cons, hrunning]
    exact println_cursorX _ none _
  · exact frame_performAll inputLen_rule env s (fun _ _ _ h => h) hinput
  · rw [performAll_append]
    exact performAll_halted hrunning (by decide)

/-- The font is that of the start. -/
theorem font_after_boot (env : Env) (font : Font) (info : Info) (back : Nat → UInt32)
    (front : ByteMemory) (events : List (HeapEnv × Char)) :
    ((boot env font info back front).after events).console.font = font := by
  have hinit : (init font ((Framebuffer.init info back front).clear Color.BLACK)).font = font :=
    ((keeps_putChar _ 0x3e).trans (keeps_putChar _ 0x20)).font
  have hboot : SameGrid (start font info back front).console
      (boot env font info back front).console :=
    frame_performAll sameGrid_rule.toOutputRule env (start font info back front)
      fun color _ => sameGrid_setBackground color
  have hafter := frame_after sameGrid_rule sameGrid_setBackground (boot env font info back front)
    events
  exact (hboot.trans hafter).font.trans hinit

/-- On a screen with cells the kernel starts prompting. -/
theorem prompting_boot (env : Env) (font : Font) (info : Info) (back : Nat → UInt32)
    (front : ByteMemory) (hwidth : charWidth ≤ info.width) (hheight : charHeight ≤ info.height) :
    (boot env font info back front).Prompting := by
  have hgood := good_init font ((Framebuffer.init info back front).clear Color.BLACK)
  have hinfo : ((Framebuffer.init info back front).clear Color.BLACK).info = info := by
    simp [Framebuffer.init]
  have hcolumns := hgood.1.sized.columns_eq
  have hrows := hgood.1.sized.rows_eq
  rw [hinfo] at hcolumns hrows
  refine prompting_start ⟨?_, ?_⟩ hgood.2 ?_ rfl
  · refine (hcolumns.trans_ne ?_)
    simp only [charWidth, maxColumns] at *
    omega
  · refine (hrows.trans_ne ?_)
    simp only [charHeight, maxRows] at *
    omega
  · exact ((keeps_putChar _ 0x3e).trans (keeps_putChar _ 0x20)).inputLen

end Session

open Console

/-- In every run in contract, whenever the kernel waits for a key: the cursor is at the length
of prompt and line modulo the width, and the cells before it, as far as walking back stays on
the screen, hold prompt and line from the end. -/
theorem Launch.prompt_shows_line (l : Launch) (hwidth : charWidth ≤ l.info.width)
    (hheight : charHeight ≤ l.info.height) (events : List System.Event)
    (hok : l.InContract events) :
    ∃ x, l.after events = some x ∧
      let c := x.session.console
      x.session.halted = false → c.inputLen ≤ inputSize ∧
        c.cursorX = (2 + c.inputLen) % c.columns ∧
        ∀ i, 1 ≤ i → i ≤ 2 + c.inputLen → ∀ row column,
          walkBack c.columns (c.cursorY, c.cursorX) i = some (row, column) →
          (promptText ++ c.line).reverse[i - 1]? = some (c.getCell row column).character := by
  obtain ⟨x, hx, -, hsession⟩ := exists_after hok
  refine ⟨x, hx, ?_⟩
  have htidy := Session.tidy_boot l.env l.font l.info l.back l.front
  have hboot := Session.prompting_boot l.env l.font l.info l.back l.front hwidth hheight
  have hlen : x.session.console.inputLen ≤ inputSize :=
    hsession ▸ (Session.tidy_after htidy (l.keys events)).1.input.inputLen_le
  have hprompting : x.session.Prompting :=
    hsession ▸ Session.prompting_after hboot htidy (l.keys events)
  intro c hrunning
  have h := hprompting.echoing hrunning
  refine ⟨hlen, h.cursorX, fun i hpos hi row column hwalk => ?_⟩
  obtain ⟨hcolumn, hposition⟩ := walkBack_position h.cursorX_lt hwalk
  have hlength : (promptText ++ x.session.console.line).length = 2 + c.inputLen := by
    rw [List.length_append, line_length]
    rfl
  rw [← Nat.sub_add_cancel hpos] at hposition
  exact h.echoes_line row column (i - 1) hcolumn (by omega) hposition

/-- A run ends behind the prompt and what is typed. -/
theorem Launch.prompt_shows_line_row : ∃ x, row.after (rowFirst ++ rowRest) = some x ∧
    let c := x.session.console
    c.inputLen ≤ inputSize ∧ c.cursorX = (2 + c.inputLen) % c.columns ∧
      ∀ i, 1 ≤ i → i ≤ 2 + c.inputLen → ∀ row column,
        walkBack c.columns (c.cursorY, c.cursorX) i = some (row, column) →
        (promptText ++ c.line).reverse[i - 1]? = some (c.getCell row column).character := by
  obtain ⟨x, hx, hshows⟩ :=
    prompt_shows_line row (by decide) (by decide) (rowFirst ++ rowRest) row_run.1
  obtain ⟨x', hx', hrunning, -⟩ := row_waits
  obtain rfl := Option.some.inj (hx.symm.trans hx')
  exact ⟨x, hx, hshows hrunning⟩

end SillOS

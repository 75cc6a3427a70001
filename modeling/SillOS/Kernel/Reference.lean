import SillOS.Kernel.Transcript

/-!
# The system and its reference

Event by event the system does what the reference does: the screen is the window onto the last
lines of the reference's terminal, and lines hold the same blocks, exactly as long as every key
that erases is typed right of the prompt's columns.
-/

namespace SillOS

open Fb Shell Console

/-! ## What lines hold -/

namespace Repl

variable {info : Info} {r : Repl} {env : Env}

/-- No output changes what is held. -/
@[simp] theorem mirror_held (r : Repl) (text : Text) : (r.mirror text).held = r.held := by
  unfold mirror
  split_ifs <;> rfl

@[simp] theorem println_held (r : Repl) (color : Option Color) (text : Text) :
    (r.println info color text).held = r.held := by
  cases color <;> exact mirror_held _ _

@[simp] theorem printLines_held (r : Repl) (color : Color) (lines : List Text) :
    (r.printLines info color lines).held = r.held :=
  List.foldlRecOn (motive := fun t : Repl => t.held = r.held) lines _ rfl
    fun _ ht text _ => (println_held _ (some color) text).trans ht

/-- Only a call of the heap changes what is held. -/
theorem perform_held (r : Repl) {e : Effect} (h : heapCall e = none) :
    (r.perform info env e).held = r.held := by
  cases e with
  | alloc | dealloc => cases h
  | print text => exact mirror_held _ _
  | println color text => exact println_held r color text
  | memAnalyze => exact printLines_held r _ _
  | breakpoint => exact printLines_held r _ _
  | panic => exact println_held r _ _
  | clear | present | setBackground | setForeground | setSerialMirror | reboot | exitQemu => rfl

/-- So the effects of a command without a call do not. -/
theorem performAll_held (r : Repl) {effects : List Effect} (h : Silent effects) :
    (r.performAll info env effects).held = r.held := by
  refine List.foldlRecOn (motive := fun t : Repl => t.held = r.held) effects _ rfl
    fun t ht e he => ?_
  split_ifs
  · exact ht
  · exact (perform_held t (h e he)).trans ht

/-- The first effect of a command of a running reference. -/
theorem performAll_cons (hr : r.halted = false) (e : Effect) (effects : List Effect) :
    r.performAll info env (e :: effects) = (r.perform info env e).performAll info env effects := by
  rw [performAll, List.foldl_cons, hr, if_neg Bool.false_ne_true]
  rfl

@[simp] theorem prompt_held (r : Repl) : (r.prompt info).held = r.held := by
  unfold prompt
  split_ifs <;> rfl

private theorem silent_kinit : Silent Session.kinit := by
  refine List.forall_mem_append.mpr ⟨fun e he => ?_, List.forall_mem_map.mpr fun _ _ => rfl⟩
  obtain ⟨text, -, he⟩ := List.mem_flatMap.mp he
  obtain rfl | rfl := List.mem_pair.mp he <;> rfl

private theorem boot_held (info : Info) (env : Env) : (boot info env).held = [] :=
  performAll_held _ <| List.forall_mem_append.mpr
    ⟨silent_kinit, by simp [Session.welcome, heapCall, Shell.line]⟩

/-- A key that is not Enter, or that comes after a command which has not returned. -/
theorem step_held_of_edit {event : HeapEnv × Char}
    (h : r.halted = true ∨ ¬(event.2 = '\n' ∨ event.2 = '\r')) :
    (r.step info event).held = r.held := by
  unfold step
  split_ifs with hr hkey
  · rfl
  · exact absurd (h.resolve_left hr) (not_not.mpr hkey)
  · rfl

/-- A command that the heap can starve does not call the heap itself. -/
theorem silent_of_allocates {text : Text} (h : allocates text = true) (k : Kernel) :
    Silent (Shell.execute k text).1 := by
  unfold allocates at h
  unfold Shell.execute
  generalize splitWhitespace text = words at h
  cases words with
  | nil => cases h
  | cons command parts =>
    have hcommand : String.ofList command = "ls" ∨ String.ofList command = "mkdir" ∨
        String.ofList command = "touch" := by simpa using h
    obtain hname | hname | hname := hcommand
    · simp only [hname]
      exact silent_ls
    · simp only [hname]
      exact silent_mkdir
    · simp only [hname]
      exact silent_touch

/-- The effects of a line make the system and the reference hold the same. -/
theorem held_performAll {k : Kernel} {effects : List Effect} (huse : HeapUse k effects)
    {x y : System} (hr : r.halted = false) (hheld : x.held = r.held)
    (hy : Transition.run System.perform x effects = some y) :
    y.held = (r.performAll info env effects).held := by
  cases huse with
  | silent hsilent =>
    rw [System.run_silent hsilent] at hy
    cases hy
    rw [performAll_held r hsilent, hheld]
  | alloc hrest =>
    obtain ⟨z, hz, hrun⟩ := Transition.run_cons_eq_some.mp hy
    rw [System.run_silent hrest] at hrun
    cases hrun
    rw [System.perform] at hz
    obtain ⟨heap, -, rfl⟩ := Option.map_eq_some_iff.mp hz
    rw [performAll_cons hr, performAll_held _ hrest]
    change Buddy.liveAfterAlloc x.held _ _ = (r.hold _ _).held
    unfold Buddy.liveAfterAlloc hold
    split_ifs
    · exact hheld
    · rw [hheld]
  | dealloc hrest =>
    obtain ⟨z, hz, hrun⟩ := Transition.run_cons_eq_some.mp hy
    rw [System.run_silent hrest] at hrun
    cases hrun
    rw [System.perform] at hz
    obtain ⟨heap, -, rfl⟩ := Option.map_eq_some_iff.mp hz
    rw [performAll_cons hr, performAll_held _ hrest]
    exact congrArg (List.erase · _) hheld

end Repl

/-! ## Runs -/

/-- Every key that erases a typed byte is typed right of the prompt's columns. -/
def Repl.ErasesRight (info : Info) (r : Repl) : List (HeapEnv × Char) → Prop
  | [] => True
  | event :: events =>
    (r.halted = false → Erases event.2 → r.typedLine ≠ [] →
      2 < (2 + r.typedLine.length) % info.columns) ∧ (r.step info event).ErasesRight info events

instance decidableErasesRight (info : Info) : (r : Repl) → DecidablePred (r.ErasesRight info)
  | _, [] => isTrue trivial
  | r, event :: events =>
    have : Decidable ((r.step info event).ErasesRight info events) :=
      decidableErasesRight info (r.step info event) events
    inferInstanceAs (Decidable (_ ∧ _))

/-- Keys after keys. -/
theorem Repl.after_append {info : Info} {r : Repl} (events more : List (HeapEnv × Char)) :
    r.after info (events ++ more) = (r.after info events).after info more := List.foldl_append

/-- A part of the keys, and then the rest. -/
theorem Repl.erasesRight_append {info : Info} {r : Repl} {events more : List (HeapEnv × Char)} :
    r.ErasesRight info (events ++ more) ↔
      r.ErasesRight info events ∧ (r.after info events).ErasesRight info more := by
  induction events generalizing r with
  | nil => exact (true_and _).symm ▸ Iff.rfl
  | cons event events ih =>
    rw [List.cons_append, ErasesRight, ErasesRight, ih, and_assoc]
    rfl

namespace System

variable {info : Info} {x y : System} {r : Repl} {e : Event} {events : List Event}

/-- The session shows what the reference has, and lines hold the same blocks. -/
structure Refines (info : Info) (x : System) (r : Repl) : Prop where
  session : Session.Refines info x.session r
  held : x.held = r.held

/-- A key changes on both sides what lines hold. -/
theorem held_step {env : Env} {key : Char} (hstep : x.step (.key env key) = some y)
    (h : x.Refines info r) (hs : x.session.Prompting) (htidy : x.session.Tidy) :
    y.held = (r.step info (env.withHeap x.heap.heap, key)).held := by
  obtain ⟨z, hz, rfl⟩ := Option.map_eq_some_iff.mp hstep
  change z.held = _
  unfold effects at hz
  rw [Session.command_eq htidy.input] at hz
  by_cases hline : x.session.halted = false ∧ (key = '\n' ∨ key = '\r')
  · obtain ⟨hrunning, hkey⟩ := hline
    have hr : r.halted = false := h.session.halted ▸ hrunning
    have hprint : ∀ b ∈ r.typedLine, 0x20 ≤ b.toNat ∧ b.toNat ≤ 0x7e :=
      h.session.typedLine ▸ htidy.input.printable
    have hentered := Session.follows_entered h.session hrunning hs.inGrid
      ⟨hs.columns_pos, hs.rows_pos⟩ hkey (Session.clean_screen h.session.clean hprint)
    rw [Session.executedBy, if_pos ⟨hrunning, hkey⟩, Session.lineText, h.session.typedLine] at hz
    dsimp only at hz
    rw [Repl.step, hr, if_neg Bool.false_ne_true, if_pos hkey, Repl.prompt_held, Repl.execute,
      ← hentered.kernel_eq]
    generalize (x.session.entered key).kernel (env.withHeap x.heap.heap) = k at hz
    generalize r.typedLine.map Char.ofUInt8 = text at hz
    split_ifs with hstarved
    · rw [run_silent (Repl.silent_of_allocates hstarved.2 k)] at hz
      cases hz
      rw [Repl.perform_held _ rfl]
      exact h.held
    · exact Repl.held_performAll (r := { r.enter info with fs := _ }) (heapUse_execute k text) hr
        h.held hz
  · rw [Session.executedBy, if_neg hline] at hz
    cases hz
    rw [Repl.step_held_of_edit, h.held]
    rw [← h.session.halted]
    exact (Classical.not_and_iff_not_or_not.mp hline).imp_left eq_true_of_ne_false

/-- One event: both go on alike, exactly if the key of the event does not erase a typed byte in
the columns of the prompt. -/
theorem refines_step_iff (hstep : x.step e = some y) (h : x.Refines info r)
    (hs : x.session.Prompting) (htidy : x.session.Tidy)
    (henv : ∀ env key, e = .key env key → env.Forward) :
    y.Refines info (r.after info (x.keyOf e).toList) ↔ r.ErasesRight info (x.keyOf e).toList := by
  have hsession := session_of_step hstep
  cases e with
  | call a =>
    obtain ⟨heap, -, rfl⟩ := Option.map_eq_some_iff.mp hstep
    exact iff_of_true ⟨h.session, h.held⟩ trivial
  | key env key =>
    change y.session = x.session.step (env.withHeap x.heap.heap, key) at hsession
    constructor
    · intro hrefines
      refine ⟨fun hrunning herase hne => ?_, trivial⟩
      by_contra hleft
      have hafter := hrefines.session
      rw [hsession] at hafter
      exact Session.not_refines_step h.session hs (h.session.halted ▸ hrunning) herase hne hleft
        hafter
    · rintro ⟨hright, -⟩
      refine ⟨?_, held_step hstep h hs htidy⟩
      rw [hsession]
      exact Session.refines_step h.session hs htidy (henv env key rfl) hright

/-- A run in contract keeps to the reference event by event, exactly if no erasing key is
rejected. -/
theorem refines_iff_erasesRight {R : Buddy.HeapRange} (hsound : x.Sound R)
    (hok : Transition.Obeys step InContract x events) (h : x.Refines info r)
    (hs : x.session.Prompting) (htidy : x.session.Tidy)
    (henvs : ∀ env key, .key env key ∈ events → env.Forward) :
    (∀ done, done <+: events →
      ∃ y, x.run done = some y ∧ y.Refines info (r.after info (x.keys done))) ↔
      r.ErasesRight info (x.keys events) := by
  induction events generalizing x r with
  | nil =>
    refine iff_of_true (fun done hdone => ?_) trivial
    obtain rfl := List.prefix_nil.mp hdone
    exact ⟨x, rfl, h⟩
  | cons e events ih =>
    obtain ⟨z, hz, hsound', -⟩ := step_sound hsound hok.1
    have hsession := session_of_step hz
    have hs' : z.session.Prompting := hsession ▸ Session.prompting_after hs htidy (x.keyOf e).toList
    have htidy' : z.session.Tidy := hsession ▸ (Session.tidy_after htidy (x.keyOf e).toList).1
    have hstep := refines_step_iff hz h hs htidy fun env key heq =>
      henvs env key (heq ▸ List.mem_cons_self)
    have hlater := fun hz' : z.Refines info (r.after info (x.keyOf e).toList) =>
      ih hsound' (hok.2 z hz) hz' hs' htidy' fun env key hmem =>
        henvs env key (List.mem_cons_of_mem e hmem)
    rw [keys_cons hz, Repl.erasesRight_append, ← hstep]
    constructor
    · intro hall
      have hrest : ∀ done, done <+: events → ∃ y, z.run done = some y ∧
          y.Refines info ((r.after info (x.keyOf e).toList).after info (z.keys done)) := by
        intro done hdone
        obtain ⟨y, hy, hrefines⟩ := hall (e :: done) (List.cons_prefix_cons.mpr ⟨rfl, hdone⟩)
        obtain ⟨z', hz', hrun⟩ := Transition.run_cons_eq_some.mp hy
        obtain rfl := Option.some.inj (hz.symm.trans hz')
        rw [keys_cons hz, Repl.after_append] at hrefines
        exact ⟨y, hrun, hrefines⟩
      obtain ⟨z', hz', hrefines⟩ := hrest [] List.nil_prefix
      cases hz'
      exact ⟨hrefines, (hlater hrefines).mp hrest⟩
    · rintro ⟨hrefines, hright⟩ done hdone
      cases done with
      | nil => exact ⟨x, rfl, h⟩
      | cons first done =>
        obtain ⟨rfl, hpart⟩ := List.cons_prefix_cons.mp hdone
        obtain ⟨y, hy, hafter⟩ := (hlater hrefines).mpr hright done hpart
        refine ⟨y, Transition.run_cons_eq_some.mpr ⟨z, hz, hy⟩, ?_⟩
        rw [keys_cons hz, Repl.after_append]
        exact hafter

end System

/-! ## The system and the reference -/

namespace Launch

/-- The system starts in step with the reference. -/
theorem exists_refines (l : Launch) (henv : l.env.Forward) (hwidth : charWidth ≤ l.info.width)
    (hheight : charHeight ≤ l.info.height) :
    ∃ x, l.boot = some x ∧ x.Sound l.heapRange ∧ x.Refines l.info (Repl.boot l.info l.env) ∧
      x.session.Prompting ∧ x.session.Tidy := by
  obtain ⟨x, hboot, hsound, hsession, hheld⟩ := l.exists_boot
  refine ⟨x, hboot, hsound, ⟨?_, hheld.trans (Repl.boot_held l.info l.env).symm⟩, ?_, ?_⟩
  · rw [hsession]
    exact Session.refines_boot l.env henv l.font l.info hwidth hheight l.back l.front
  · rw [hsession]
    exact Session.prompting_boot l.env l.font l.info l.back l.front hwidth hheight
  · rw [hsession]
    exact Session.tidy_boot l.env l.font l.info l.back l.front

/-- After every part of a run in contract the session shows, stores and mirrors what the
reference does, and lines hold the blocks that they hold there, if and only if every key that
erases is typed right of the prompt's columns. -/
theorem transcript_iff (l : Launch) (henv : l.env.Forward) (hwidth : charWidth ≤ l.info.width)
    (hheight : charHeight ≤ l.info.height) (events : List System.Event)
    (hok : l.InContract events) (henvs : ∀ env key, .key env key ∈ events → env.Forward) :
    (∀ done, done <+: events → ∃ x, l.after done = some x ∧
      x.Refines l.info ((Repl.boot l.info l.env).after l.info (l.keys done))) ↔
      (Repl.boot l.info l.env).ErasesRight l.info (l.keys events) := by
  obtain ⟨x, hboot, hsound, hrefines, hs, htidy⟩ := l.exists_refines henv hwidth hheight
  simp only [after_eq hboot, keys_eq hboot]
  exact System.refines_iff_erasesRight hsound (hok x hboot) hrefines hs htidy henvs

private theorem quiet_forward : Env.quiet.Forward :=
  ⟨List.forall_mem_nil _, List.forall_mem_nil _, List.forall_mem_nil _⟩

/-- A run whose keys print nothing else. -/
theorem row_forward : ∀ env key, .key env key ∈ rowFirst ++ rowRest → env.Forward := by
  have hquiet : ∀ (text : Text) env key, .key env key ∈ System.typing text → env = .quiet := by
    intro text env key hkey
    obtain ⟨c, -, heq⟩ := List.mem_map.mp hkey
    cases heq
    rfl
  intro env key hkey
  obtain hkey | hkey := List.mem_append.mp hkey
  · exact hquiet _ _ _ hkey ▸ quiet_forward
  · obtain hkey | hkey := List.mem_append.mp hkey
    · simp [System.otherCalls] at hkey
    · exact hquiet _ _ _ hkey ▸ quiet_forward

/-- Its letter is erased right of the prompt's columns. -/
theorem row_erasesRight :
    (Repl.boot rowInfo .quiet).ErasesRight rowInfo (row.keys (rowFirst ++ rowRest)) := by
  decide +kernel

/-- So it keeps to the reference. -/
theorem transcript_row :
    (Repl.boot rowInfo .quiet).ErasesRight rowInfo (row.keys (rowFirst ++ rowRest)) ∧
    ∀ done, done <+: rowFirst ++ rowRest → ∃ x, row.after done = some x ∧
      x.Refines rowInfo ((Repl.boot rowInfo .quiet).after rowInfo (row.keys done)) :=
  ⟨row_erasesRight, (transcript_iff row quiet_forward (by decide) (by decide)
    (rowFirst ++ rowRest) row_run.1 row_forward).mpr row_erasesRight⟩

/-- What the user sees: in a run in contract in which no erasing key is rejected and no line
sets a harmful background color, every pixel of the grid is that of the reference's terminal
with the typed line, in the row of the window that it lies in. -/
theorem user_sees_terminal (l : Launch) (henv : l.env.Forward)
    (hpitch : bytesPerPixel * l.info.width ≤ l.info.frontPitch)
    (hwidth : charWidth ≤ l.info.width) (hheight : charHeight ≤ l.info.height)
    (events : List System.Event) (hok : l.InContract events)
    (henvs : ∀ env key, .key env key ∈ events → env.Forward)
    (hright : (Repl.boot l.info l.env).ErasesRight l.info (l.keys events))
    (hlines : ∀ text ∈ l.executed events,
      ∀ color, backgroundOf text = some color → Harmless l.info color) :
    ∃ x, l.after events = some x ∧
      let c := x.session.console
      let t := ((Repl.boot l.info l.env).after l.info (l.keys events)).screen l.info
      x.session.halted = false → ∀ px py, l.info.OnScreen px py →
        px / charWidth < l.info.columns → py / charHeight < c.rows →
        ByteMemory.loadLE c.fb.front (py * l.info.frontPitch + px * bytesPerPixel) bytesPerPixel =
          ((t.lines (t.top c.rows + py / charHeight) (px / charWidth)).pixel l.font l.info
            (py % charHeight) (px % charWidth)).toNat := by
  obtain ⟨x₀, hboot, hsound, hrefines₀, hs, htidy⟩ := l.exists_refines henv hwidth hheight
  rw [keys_eq hboot] at hright ⊢
  obtain ⟨x, hx, ⟨hshown, -⟩⟩ := (System.refines_iff_erasesRight hsound (hok x₀ hboot) hrefines₀ hs
    htidy henvs).mpr hright events List.prefix_rfl
  obtain ⟨x', hx', hdrawn, hseen⟩ := exists_drawn l hpitch hok hlines
  rw [after_eq hboot] at hx' ⊢
  obtain rfl := Option.some.inj (hx.symm.trans hx')
  have hfont : x.session.console.font = l.font := by
    rw [session_of_after ((after_eq hboot events).trans hx)]
    exact Session.font_after_boot l.env l.font l.info l.back l.front _
  refine ⟨x, hx, fun hrunning px py hxy hcolumn hrow => ?_⟩
  have hcolumns : x.session.console.columns = l.info.columns := hshown.sized.columns_eq
  have hcell := hshown.shows.cells (py / charHeight) (px / charWidth) hrow (hcolumns ▸ hcolumn)
  rw [hseen hrunning px py hxy, picture, if_pos ⟨hcolumns ▸ hcolumn, hrow⟩, hfont,
    hdrawn.sized.info_eq, hcell]

/-- The user sees the end of a run. -/
theorem user_sees_terminal_row : ∃ x, row.after (rowFirst ++ rowRest) = some x ∧
    let c := x.session.console
    let t := ((Repl.boot row.info row.env).after row.info (row.keys (rowFirst ++ rowRest))).screen
      row.info
    ∀ px py, row.info.OnScreen px py → px / charWidth < row.info.columns →
      py / charHeight < c.rows →
      ByteMemory.loadLE c.fb.front (py * row.info.frontPitch + px * bytesPerPixel) bytesPerPixel =
        ((t.lines (t.top c.rows + py / charHeight) (px / charWidth)).pixel row.font row.info
          (py % charHeight) (px % charWidth)).toNat := by
  obtain ⟨x, hx, hseen⟩ := user_sees_terminal row quiet_forward (by decide) (by decide) (by decide)
    (rowFirst ++ rowRest) row_run.1 row_forward row_erasesRight row_harmless
  obtain ⟨x', hx', hrunning, -⟩ := row_waits
  obtain rfl := Option.some.inj (hx.symm.trans hx')
  exact ⟨x, hx, hseen hrunning⟩

end Launch

end SillOS

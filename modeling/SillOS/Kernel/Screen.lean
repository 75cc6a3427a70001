import SillOS.Console.Redraw
import SillOS.Kernel.Files

/-!
# The screen of a session

Whenever the kernel waits for a key, the user sees the whole backbuffer, and as long
as no harmful background color has been set the backbuffer shows the cells.
-/

namespace SillOS.Session

open ByteMemory Fb Shell Console

/-! ## Start -/

/-- The effect of a command that returns. -/
def Returns : Effect → Prop
  | .panic => False
  | .reboot => False
  | .exitQemu _ => False
  | _ => True

instance : DecidablePred Returns
  | .panic | .reboot | .exitQemu _ => inferInstanceAs (Decidable False)
  | .print _ | .println _ _ | .clear | .present | .setBackground _ | .setForeground _ =>
    isTrue trivial
  | .setSerialMirror _ | .alloc _ _ | .dealloc _ _ | .memAnalyze | .breakpoint => isTrue trivial

variable {s : Session} {env : Env}

/-- No output halts. -/
@[simp] theorem mirror_halted (s : Session) (text : Text) : (s.mirror text).halted = s.halted := by
  unfold mirror
  split_ifs <;> rfl

@[simp] theorem print_halted (s : Session) (text : Text) : (s.print text).halted = s.halted :=
  mirror_halted _ _

@[simp] theorem println_halted (s : Session) (color : Option Color) (text : Text) :
    (s.println color text).halted = s.halted := by
  cases color <;> exact mirror_halted _ _

@[simp] theorem printLines_halted (s : Session) (color : Color) (lines : List Text) :
    (s.printLines color lines).halted = s.halted :=
  List.foldlRecOn (motive := fun t : Session => t.halted = s.halted) lines _ rfl
    fun _ ht text _ => (println_halted _ (some color) text).trans ht

private theorem perform_halted (s : Session) {e : Effect} :
    (s.perform env e).halted = (s.halted || !decide (Returns e)) := by
  cases e with
  | panic | reboot | exitQemu => exact (Bool.or_true _).symm
  | print text => exact (print_halted s text).trans (Bool.or_false _).symm
  | println color text => exact (println_halted s color text).trans (Bool.or_false _).symm
  | memAnalyze => exact (printLines_halted s _ _).trans (Bool.or_false _).symm
  | breakpoint => exact (printLines_halted s _ _).trans (Bool.or_false _).symm
  | clear | present | setBackground | setForeground | setSerialMirror | alloc | dealloc =>
    exact (Bool.or_false _).symm

/-- No effects do nothing. -/
@[simp] theorem performAll_nil (env : Env) (s : Session) : s.performAll env [] = s := rfl

/-- Effects after effects. -/
theorem performAll_append (env : Env) (s : Session) (effects effects' : List Effect) :
    s.performAll env (effects ++ effects') = (s.performAll env effects).performAll env effects' :=
  List.foldl_append

/-- The first effect, and then the others unless it has not returned. -/
theorem performAll_cons (env : Env) (s : Session) (e : Effect) (effects : List Effect) :
    s.performAll env (e :: effects) =
      (if s.halted then s else s.perform env e).performAll env effects := rfl

/-- Nothing happens after a command that does not return. -/
theorem performAll_of_halted (hs : s.halted = true) (effects : List Effect) :
    s.performAll env effects = s := by
  induction effects with
  | nil => rfl
  | cons e effects ih => rw [performAll_cons, if_pos hs, ih]

/-- The commands that return leave the session running. -/
theorem performAll_halted (hs : s.halted = false) {effects : List Effect}
    (h : ∀ e ∈ effects, Returns e) : (s.performAll env effects).halted = false := by
  induction effects generalizing s with
  | nil => exact hs
  | cons e effects ih =>
    rw [List.forall_mem_cons] at h
    rw [performAll_cons, hs, if_neg Bool.false_ne_true]
    refine ih ?_ h.2
    rw [perform_halted, hs, decide_eq_true h.1]
    rfl

/-- The kernel starts running. -/
theorem boot_halted (env : Env) (font : Font) (info : Info) (back : Nat → UInt32)
    (front : ByteMemory) : (boot env font info back front).halted = false :=
  performAll_halted rfl (by decide)

/-! ## Presentation -/

private theorem paints_rule : FrameRule Paints where
  refl := Paints.refl
  trans _ _ _ := Paints.trans
  putChar := paints_putChar
  present := paints_present
  setForeground c _ := Paints.refl c
  clear := paints_clear
  receiveKey := paints_receiveKey
  readLine := paints_readLine

private theorem paints_setBackground (color : Color) (c : Console) :
    c.Paints (c.setBackground color) :=
  Paints.refl c

/-- The last thing done with the console was to present it. -/
def Presented (s : Session) : Prop := ∃ c : Console, s.console = c.present

private theorem presented_prompt (h : s.prompt.halted = false) : s.prompt.Presented := by
  unfold prompt at h ⊢
  split_ifs at h ⊢ with hs
  · rw [hs] at h
    cases h
  · exact ⟨_, rfl⟩

/-- A key that leaves the session running ends by presenting the screen. -/
theorem presented_receiveKey {env : HeapEnv} {key : Char}
    (h : (s.receiveKey env key).halted = false) :
    (s.receiveKey env key).Presented := by
  by_cases hkey : key = '\n' ∨ key = '\r'
  · obtain ⟨command, -, heq⟩ := receiveKey_enter s env hkey
    rw [heq] at h ⊢
    exact presented_prompt h
  · rw [receiveKey_edit hkey]
    exact ⟨_, rfl⟩

private theorem presented_step (hs : s.Presented) {event : HeapEnv × Char}
    (h : (s.step event).halted = false) :
    (s.step event).Presented := by
  unfold step at h ⊢
  split_ifs at h ⊢
  · exact hs
  · exact presented_receiveKey h

/-- A session that is running now has been running all the time. -/
theorem halted_of_step {event : HeapEnv × Char} (h : (s.step event).halted = false) :
    s.halted = false := by
  unfold step at h
  split_ifs at h with hs
  · exact h
  · exact Bool.eq_false_of_not_eq_true hs

/-- Whenever a session waits for a key, it has been presented. -/
theorem presented_after (hs : s.Presented) {events : List (HeapEnv × Char)}
    (h : (s.after events).halted = false) : (s.after events).Presented := by
  induction events using List.reverseRecOn with
  | nil => exact hs
  | append_singleton events event ih =>
    rw [after_concat] at h ⊢
    exact presented_step (ih (halted_of_step h)) h

/-- At the first prompt it has been presented. -/
theorem presented_boot (env : Env) (font : Font) (info : Info) (back : Nat → UInt32)
    (front : ByteMemory) : (boot env font info back front).Presented := by
  obtain ⟨init, hinit⟩ : ∃ init, kinit ++ welcome = init ++ [.present] := by
    refine ⟨kinit ++ welcome.dropLast, ?_⟩
    rw [List.append_assoc]
    rfl
  have hrunning := boot_halted env font info back front
  unfold boot at hrunning ⊢
  rw [hinit, performAll_append] at hrunning ⊢
  generalize hmid : performAll env _ init = mid at hrunning ⊢
  cases hs : mid.halted with
  | false => exact ⟨mid.console, by rw [performAll_cons, hs]; rfl⟩
  | true =>
    rw [performAll_of_halted hs, hs] at hrunning
    cases hrunning

/-- All drawing of a session goes through the framebuffer's operations. -/
theorem reaches_after_boot (env : Env) (font : Font) (info : Info) (back : Nat → UInt32)
    (front : ByteMemory) (events : List (HeapEnv × Char)) :
    (Framebuffer.init info back front).Reaches
      ((boot env font info back front).after events).console.fb := by
  have hclear := (Framebuffer.init info back front).reaches_apply (.clear Color.BLACK)
  have hinit := paints_init font ((Framebuffer.init info back front).clear Color.BLACK)
  have hboot : (init font _).Paints (boot env font info back front).console :=
    frame_performAll paints_rule.toOutputRule env _ fun color _ => paints_setBackground color
  exact ((hclear.trans hinit).trans hboot).trans
    (frame_after paints_rule paints_setBackground _ events)

/-- Presenting last leaves nothing to be presented. -/
theorem agrees_of_presented {front : ByteMemory} {T : Set (Nat × Nat)} {info : Info}
    (hs : s.console.fb.Pending info front T) (h : s.Presented) :
    s.console.fb.dirty = false ∧ ∀ x y, info.OnScreen x y → s.console.fb.Agrees x y := by
  obtain ⟨c, hc⟩ := h
  have hclean : s.console.fb.dirty = false := by
    rw [hc]
    exact c.fb.present_dirty
  refine ⟨hclean, fun x y hxy => ?_⟩
  refine hs.synced x y (hs.info_eq ▸ hxy) fun hdirty => ?_
  rw [hclean] at hdirty
  cases hdirty

/-! ## The picture -/

variable {info : Info}

private theorem good_rule : FrameRule fun c d => c.Good info → d.Good info where
  refl _ := id
  trans _ _ _ h h' := h' ∘ h
  putChar _ character h := good_putChar h character
  present _ h := good_apply h .present nofun
  setForeground _ color h := good_apply h (.setForeground color) nofun
  clear _ h := good_apply h .clear nofun
  receiveKey _ key h := good_receiveKey h key
  readLine _ buffer h := good_apply h (.readLine buffer) nofun

/-- Setting a harmless background color and clearing the screen. -/
theorem good_setBackground (h : s.console.Good info) {color : Color}
    (hcolor : Harmless info color) :
    (s.performAll env [.setBackground color, .clear]).console.Good info := by
  cases hs : s.halted with
  | true => rwa [performAll_of_halted hs]
  | false =>
    have hrun : (s.performAll env [.setBackground color, .clear]).console =
        (s.console.setBackground color).clear := by
      simp only [performAll_cons, performAll_nil, hs, Bool.false_eq_true, if_false, perform]
    rw [hrun]
    exact good_apply h (.setBackground color) fun _ heq => by cases heq; exact hcolor

/-- A line that sets no harmful background color. -/
theorem good_execute {env : HeapEnv} (h : s.console.Good info) (hfs : PlainPaths s.fs)
    {text : Text} (hplain : Plain text)
    (hcolor : ∀ color, backgroundOf text = some color → Harmless info color) :
    (s.execute env text).console.Good info := by
  by_cases hstarved : env.starved ∧ allocates text
  · rw [execute_starved hstarved]
    exact frame_perform good_rule.toOutputRule env.toEnv s nofun h
  rw [execute_eq hstarved]
  by_cases hset : ∃ color, .setBackground color ∈ (Shell.execute (s.kernel env) text).1
  · obtain ⟨color, hset⟩ := hset
    obtain ⟨hbackground, heffects⟩ := execute_setBackground (k := s.kernel env) hplain hfs hset
    rw [heffects]
    exact good_setBackground (s := { s with fs := (Shell.execute (s.kernel env) text).2.fs }) h
      (hcolor color hbackground)
  · exact frame_performAll good_rule.toOutputRule env.toEnv { s with fs := _ }
      (fun color hmem => absurd ⟨color, hmem⟩ hset) h

private theorem good_step (h : s.console.Good info) (htidy : s.Tidy) {event : HeapEnv × Char}
    (hline : ∀ text, s.executedBy event.2 = some text →
      ∀ color, backgroundOf text = some color → Harmless info color) :
    (s.step event).console.Good info := by
  cases hexec : s.executedBy event.2 with
  | none =>
    obtain heq | ⟨-, heq⟩ := step_of_executedBy_none hexec
    · rwa [heq]
    · rw [heq]
      exact good_rule.present _ (good_receiveKey h event.2)
  | some text =>
    obtain ⟨-, -, heq⟩ := step_of_executedBy htidy.input hexec
    have hplain := executedBy_plain htidy.input hexec
    have henter := frame_enter good_rule s.console event.2 h
    rw [heq]
    exact frame_prompt good_rule.toOutputRule _
      (good_execute (s := s.entered event.2) henter htidy.paths hplain (hline text hexec))

/-- Lines without a harmful background color keep the screen in step. -/
theorem good_after (h : s.console.Good info) (htidy : s.Tidy) {events : List (HeapEnv × Char)}
    (hlines : ∀ text ∈ s.executed events,
      ∀ color, backgroundOf text = some color → Harmless info color) :
    (s.after events).console.Good info := by
  induction events generalizing s with
  | nil => exact h
  | cons event events ih =>
    have hfirst := good_step h htidy fun text htext =>
      hlines text (mem_executed_cons.mpr (Or.inl htext))
    exact ih hfirst (tidy_step htidy event).1 fun text htext =>
      hlines text (mem_executed_cons.mpr (Or.inr htext))

/-- The kernel starts with screen and cells in step. -/
theorem good_boot (env : Env) (font : Font) (info : Info) (back : Nat → UInt32)
    (front : ByteMemory) : (boot env font info back front).console.Good info := by
  have hinit := good_init font ((Framebuffer.init info back front).clear Color.BLACK)
  have hinfo : ((Framebuffer.init info back front).clear Color.BLACK).info = info := by
    simp [Framebuffer.init]
  rw [hinfo] at hinit
  refine frame_performAll good_rule.toOutputRule env _ (fun color hmem => absurd hmem ?_) hinit
  simp [kinit, welcome, Shell.line]

/-- What the user sees of a console in step with its cells. -/
theorem front_picture {front : ByteMemory} {T : Set (Nat × Nat)}
    (hpending : s.console.fb.Pending info front T) (hdrawn : s.console.Drawn info)
    (hpresented : s.Presented) {x y : Nat} (hxy : info.OnScreen x y) :
    loadLE s.console.fb.front (y * info.frontPitch + x * bytesPerPixel) bytesPerPixel =
      (s.console.picture x y).toNat := by
  have hagrees := (agrees_of_presented hpending hpresented).2 x y hxy
  rw [Framebuffer.Agrees, hdrawn.sized.info_eq] at hagrees
  rw [hagrees, hdrawn.pixel_eq x y hxy]

end SillOS.Session

/-! ## Runs -/

namespace SillOS.Launch

open ByteMemory Fb Shell Console

/-- In every run in contract: whenever the kernel waits for a key, nothing is left to be
presented and every pixel of the screen is that of the backbuffer; the bytes behind the rows
are never written. -/
theorem screen_current (l : Launch) (hpitch : bytesPerPixel * l.info.width ≤ l.info.frontPitch)
    (events : List System.Event) (hok : l.InContract events) :
    ∃ x, l.after events = some x ∧
      (∀ a, a ∉ l.info.visible → x.session.console.fb.front a = l.front a) ∧
      (x.session.halted = false → x.session.console.fb.dirty = false ∧
        ∀ px py, l.info.OnScreen px py → x.session.console.fb.Agrees px py) := by
  obtain ⟨x, hx, -, hsession⟩ := exists_after hok
  refine ⟨x, hx, ?_⟩
  rw [hsession]
  have hinit := Framebuffer.pending_init l.info hpitch l.back l.front
  have hreach :=
    Session.reaches_after_boot l.env l.font l.info l.back l.front (l.keys events)
  obtain ⟨T, hpending⟩ := hreach.pending hpitch hinit
  have hboot := Session.presented_boot l.env l.font l.info l.back l.front
  exact ⟨hpending.padding, fun hrunning =>
    Session.agrees_of_presented hpending (Session.presented_after hboot hrunning)⟩

/-- A run is presented. -/
theorem screen_current_row : ∃ x, row.after (rowFirst ++ rowRest) = some x ∧
    (∀ a, a ∉ rowInfo.visible → x.session.console.fb.front a = 7) ∧
    x.session.console.fb.dirty = false ∧
    ∀ px py, rowInfo.OnScreen px py → x.session.console.fb.Agrees px py := by
  obtain ⟨x, hx, hpadding, hcurrent⟩ :=
    screen_current row (by decide) (rowFirst ++ rowRest) row_run.1
  obtain ⟨x', hx', hrunning, -⟩ := row_waits
  obtain rfl := Option.some.inj (hx.symm.trans hx')
  exact ⟨x, hx, hpadding, hcurrent hrunning⟩

/-- A run in contract without a harmful background color leaves the cells drawn, and what the user
sees is their picture. -/
theorem exists_drawn (l : Launch) (hpitch : bytesPerPixel * l.info.width ≤ l.info.frontPitch)
    {events : List System.Event} (hok : l.InContract events)
    (hlines : ∀ text ∈ l.executed events,
      ∀ color, backgroundOf text = some color → Harmless l.info color) :
    ∃ x, l.after events = some x ∧ x.session.console.Drawn l.info ∧
      (x.session.halted = false → ∀ px py, l.info.OnScreen px py →
        loadLE x.session.console.fb.front (py * l.info.frontPitch + px * bytesPerPixel)
          bytesPerPixel = (x.session.console.picture px py).toNat) := by
  obtain ⟨x, hx, -, hsession⟩ := exists_after hok
  refine ⟨x, hx, ?_⟩
  rw [hsession]
  have hboot := Session.good_boot l.env l.font l.info l.back l.front
  have htidy := Session.tidy_boot l.env l.font l.info l.back l.front
  obtain ⟨hdrawn, -⟩ := Session.good_after hboot htidy hlines
  refine ⟨hdrawn, fun hrunning px py hxy => ?_⟩
  obtain ⟨T, hpending⟩ := (Session.reaches_after_boot l.env l.font l.info l.back l.front
    (l.keys events)).pending hpitch (Framebuffer.pending_init l.info hpitch l.back l.front)
  have hpresented := Session.presented_after
    (Session.presented_boot l.env l.font l.info l.back l.front) hrunning
  exact Session.front_picture hpending hdrawn hpresented hxy

/-- In every run in contract in which no executed line sets a harmful background color, the
backbuffer is what a full redraw would make it, and whenever the kernel waits for a key every
pixel that the user sees is the one that its cell has in the font. -/
theorem screen_shows_cells (l : Launch)
    (hpitch : bytesPerPixel * l.info.width ≤ l.info.frontPitch) (events : List System.Event)
    (hok : l.InContract events)
    (hlines : ∀ text ∈ l.executed events,
      ∀ color, backgroundOf text = some color → Harmless l.info color) :
    ∃ x, l.after events = some x ∧
      (∀ px py, l.info.OnScreen px py →
        x.session.console.fb.pixel px py = x.session.console.render.pixel px py) ∧
      (x.session.halted = false → ∀ px py, l.info.OnScreen px py →
        loadLE x.session.console.fb.front (py * l.info.frontPitch + px * bytesPerPixel)
          bytesPerPixel = (x.session.console.picture px py).toNat) := by
  obtain ⟨x, hx, hdrawn, hseen⟩ := exists_drawn l hpitch hok hlines
  have hinfo := hdrawn.sized.info_eq
  exact ⟨x, hx, fun px py hxy => (hdrawn.pixel_eq px py hxy).trans
    (pixel_render _ (hinfo.symm ▸ hxy)).symm, hseen⟩

/-- A run that sets the background color that it has. -/
theorem row_harmless : ∀ text ∈ row.executed (rowFirst ++ rowRest),
    ∀ color, backgroundOf text = some color → Harmless rowInfo color := by
  have hblack : ∀ text ∈ row.executed (rowFirst ++ rowRest),
      ∀ color ∈ backgroundOf text, rowInfo.colorToU32 color =
        rowInfo.colorToU32 defaultBackground := by
    rw [row_run.2.1]
    decide
  exact fun text htext color hcolor => Or.inr (Or.inr (hblack text htext color hcolor))

/-- Its screen shows its cells. -/
theorem screen_shows_cells_row : ∃ x, row.after (rowFirst ++ rowRest) = some x ∧
    ∀ px py, rowInfo.OnScreen px py →
      loadLE x.session.console.fb.front (py * 512 + px * bytesPerPixel) bytesPerPixel =
        (x.session.console.picture px py).toNat := by
  obtain ⟨x, hx, -, hseen⟩ :=
    screen_shows_cells row (by decide) (rowFirst ++ rowRest) row_run.1 row_harmless
  obtain ⟨x', hx', hrunning, -⟩ := row_waits
  obtain rfl := Option.some.inj (hx.symm.trans hx')
  exact ⟨x, hx, hseen hrunning⟩

end SillOS.Launch

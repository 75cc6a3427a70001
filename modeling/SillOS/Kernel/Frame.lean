import SillOS.Console.Drawing
import SillOS.Console.Safety
import SillOS.Kernel.Session

/-!
# What a session does to the console

A session reaches the console only through its operations. A relation between
consoles that holds for each of them therefore holds between the console before and
after any part of a session. Setting the background color is kept apart from the other
operations, since it is the one that not every relation survives.
-/

namespace SillOS

open Fb Shell

/-- A preorder on consoles that output is in. -/
structure Console.OutputRule (R : Console → Console → Prop) : Prop where
  refl : ∀ c, R c c
  trans : ∀ c d e, R c d → R d e → R c e
  putChar : ∀ c character, R c (c.putChar character)
  present : ∀ c : Console, R c c.present
  setForeground : ∀ c color, R c (c.setForeground color)
  clear : ∀ c : Console, R c c.clear

/-- A preorder on consoles that output and input are in. -/
structure Console.FrameRule (R : Console → Console → Prop) : Prop extends OutputRule R where
  receiveKey : ∀ c key, R c (c.receiveKey key)
  readLine : ∀ c buffer, R c (c.readLine buffer).1

namespace Session

open Console

variable {R : Console → Console → Prop} {s : Session} {env : Env}

section OutputRule

variable (h : OutputRule R)
include h

private theorem frame_writeStr (c : Console) (text : List UInt8) : R c (c.writeStr text) :=
  List.foldlRecOn text Console.putChar (h.refl c) fun _ hd character _ =>
    h.trans _ _ _ hd (h.putChar _ character)

private theorem frame_writeFmt (s : Session) (text : Text) :
    R s.console (s.writeFmt text).console :=
  h.trans _ _ _ (frame_writeStr h _ _) (h.present _)

private theorem frame_writeFmtColor (s : Session) (color : Color) (text : Text) :
    R s.console (s.writeFmtColor color text).console := by
  have hcolored := h.trans _ _ _ (h.setForeground s.console color)
    (frame_writeFmt h { s with console := s.console.setForeground color } text)
  exact h.trans _ _ _ hcolored (h.trans _ _ _ (h.setForeground _ _) (h.present _))

end OutputRule

/-- Mirroring leaves the console. -/
@[simp] theorem mirror_console (s : Session) (text : Text) :
    (s.mirror text).console = s.console := by
  unfold mirror
  split_ifs <;> rfl

section OutputRule

variable (h : OutputRule R)
include h

private theorem frame_print (s : Session) (text : Text) : R s.console (s.print text).console := by
  rw [print, mirror_console]
  exact frame_writeFmt h s text

private theorem frame_println (s : Session) (color : Option Color) (text : Text) :
    R s.console (s.println color text).console := by
  cases color with
  | none =>
    rw [println, mirror_console]
    exact frame_writeFmt h s _
  | some color =>
    rw [println, mirror_console]
    exact frame_writeFmtColor h s color _

private theorem frame_printLines (s : Session) (color : Color) (lines : List Text) :
    R s.console (s.printLines color lines).console :=
  List.foldlRecOn (motive := fun t : Session => R s.console t.console) lines _ (h.refl _)
    fun _ ht text _ => h.trans _ _ _ ht (frame_println h _ (some color) text)

/-- An effect keeps what all output keeps, unless it sets a background color. -/
theorem frame_perform (env : Env) (s : Session) {e : Effect}
    (hbackground : ∀ color, e = .setBackground color → ∀ c : Console, R c (c.setBackground color)) :
    R s.console (s.perform env e).console := by
  cases e with
  | print text => exact frame_print h s text
  | println color text => exact frame_println h s color text
  | clear => exact h.clear _
  | present => exact h.present _
  | setBackground color => exact hbackground color rfl _
  | setForeground color => exact h.setForeground _ color
  | memAnalyze => exact frame_printLines h s Color.GREEN _
  | breakpoint => exact frame_printLines h s Color.RED _
  | panic => exact h.trans _ _ _ (frame_println h s (some Color.RED) _) (h.present _)
  | setSerialMirror | alloc | dealloc | reboot | exitQemu => exact h.refl _

/-- So do several effects. -/
theorem frame_performAll (env : Env) (s : Session) {effects : List Effect}
    (hbackground : ∀ color, .setBackground color ∈ effects →
      ∀ c : Console, R c (c.setBackground color)) :
    R s.console (s.performAll env effects).console := by
  refine List.foldlRecOn (motive := fun t : Session => R s.console t.console) effects _ (h.refl _)
    fun t ht e he => ?_
  split_ifs
  · exact ht
  · exact h.trans _ _ _ ht (frame_perform h env t fun color heq => hbackground color (heq ▸ he))

/-- So does the prompt. -/
theorem frame_prompt (s : Session) : R s.console s.prompt.console := by
  unfold prompt
  split_ifs
  · exact h.refl _
  · exact h.trans _ _ _ (h.trans _ _ _ (h.putChar _ 0x3e) (h.putChar _ 0x20)) (h.present _)

end OutputRule

section AnyBackground

variable (h : FrameRule R) (hbackground : ∀ color (c : Console), R c (c.setBackground color))
include h

/-- Enter keeps what output and input keep. -/
theorem frame_enter (c : Console) (key : Char) : R c (c.enter key).1 :=
  h.trans _ _ _ (h.receiveKey c key) (h.readLine _ _)

include hbackground

/-- A line keeps what output and background colors keep. -/
theorem frame_execute (env : HeapEnv) (s : Session) (text : Text) :
    R s.console (s.execute env text).console := by
  by_cases hstarved : env.starved ∧ allocates text
  · rw [execute_starved hstarved]
    exact frame_perform h.toOutputRule env.toEnv s fun color _ => hbackground color
  · rw [execute_eq hstarved]
    exact frame_performAll h.toOutputRule env.toEnv
      { s with fs := (Shell.execute (s.kernel env) text).2.fs } fun color _ => hbackground color

private theorem frame_executeLine (env : HeapEnv) (s : Session) (command : List UInt8) :
    R s.console (s.executeLine env command).console := by
  unfold executeLine
  split
  · exact frame_execute h hbackground env s _
  · exact h.refl _

private theorem frame_receiveKey (env : HeapEnv) (s : Session) (key : Char) :
    R s.console (s.receiveKey env key).console := by
  by_cases hkey : key = '\n' ∨ key = '\r'
  · obtain ⟨command, -, heq⟩ := receiveKey_enter s env hkey
    rw [heq]
    exact h.trans _ _ _ (frame_enter h s.console key) (h.trans _ _ _
      (frame_executeLine h hbackground env { s with console := (s.console.enter key).1 } command)
      (frame_prompt h.toOutputRule _))
  · rw [receiveKey_edit hkey]
    exact h.trans _ _ _ (h.receiveKey _ key) (h.present _)

/-- Any number of keys. -/
theorem frame_after (s : Session) (events : List (HeapEnv × Char)) :
    R s.console (s.after events).console := by
  refine List.foldlRecOn (motive := fun t : Session => R s.console t.console) events _ (h.refl _)
    fun t ht event _ => ?_
  unfold step
  split_ifs
  · exact ht
  · exact h.trans _ _ _ ht (frame_receiveKey h hbackground event.1 t event.2)

end AnyBackground

end Session

end SillOS

import SillOS.Kernel.Screen

/-!
# Interrupts

The interrupt controllers pass on two of their sixteen lines, the timer and the keyboard. Each
has a handler, which acknowledges the interrupt before it returns; the handler of the keyboard
has a scancode decoded and hands the character to the session. The library that decodes
scancodes is a parameter, and so is the hardware: a run is any sequence of interrupts that the
processor takes, and of calls of the heap in between.
-/

namespace SillOS.Interrupts

open Buddy

/-! ## The tables -/

/-- The vectors of the hardware interrupts. -/
inductive InterruptIndex where
  | timer
  | keyboard

/-- `InterruptIndex::as_u8`. -/
def InterruptIndex.asU8 : InterruptIndex → Nat
  | .timer => 32
  | .keyboard => 33

/-- What the table of `init` has for a vector. -/
inductive Handler where
  /-- The handler of a processor exception: it prints on the serial port, and then returns or
  spins with interrupts off. -/
  | exception (returns : Bool)
  | timerInterruptHandler
  | keyboardInterruptHandler

/-- The interrupt descriptor table: only the handlers of DEBUG and BREAKPOINT return. -/
def idt : Nat → Option Handler
  | 1 | 3 => some (.exception true)
  | 0 | 2 | 4 | 5 | 6 | 7 | 8 | 10 | 11 | 12 | 13 | 14 | 16 | 17 | 18 | 19 | 20 =>
    some (.exception false)
  | 32 => some .timerInterruptHandler
  | 33 => some .keyboardInterruptHandler
  | _ => none

def pic1Offset : Nat := 32

def pic2Offset : Nat := 40

/-- The masks that `pic::init` writes, of both controllers. -/
def masks : Nat × Nat := (0b11111100, 0b11111111)

/-- The controllers pass on no request of this line. -/
def masked (line : Fin 16) : Bool :=
  if line.val < 8 then masks.1.testBit line else masks.2.testBit (line - 8)

/-- The vector that the controllers raise for a line. -/
def vectorOf (line : Fin 16) : Nat :=
  if line.val < 8 then pic1Offset + line else pic2Offset + (line - 8)

/-! ## The keyboard -/

/-- `DecodedKey`. -/
inductive DecodedKey (ρ : Type) where
  | unicode (character : Char)
  | rawKey (key : ρ)

/-- What the kernel uses of the keyboard library, with its own types of states, errors,
events and keys without a character. -/
structure Keyboard (κ ε ν ρ : Type) where
  new : κ
  addByte : κ → UInt8 → κ × Except ε (Option ν)
  processKeyevent : κ → ν → κ × Option (DecodedKey ρ)

variable {κ ε ν ρ : Type}

/-- The character that a scancode completes. -/
def Keyboard.decode (K : Keyboard κ ε ν ρ) (keyboard : κ) (scancode : UInt8) : κ × Option Char :=
  match K.addByte keyboard scancode with
  | (keyboard, .ok (some keyEvent)) =>
    match K.processKeyevent keyboard keyEvent with
    | (keyboard, some (.unicode character)) => (keyboard, some character)
    | (keyboard, _) => (keyboard, none)
  | (keyboard, _) => (keyboard, none)

/-! ## The machine -/

/-- An interrupt that the processor takes: the line of the controllers, the byte that the
keyboard port holds then, and what a key finds outside of the session. A line that is masked
can be spurious. -/
structure Irq where
  line : Fin 16
  scancode : UInt8
  env : Env

/-- An interrupt is taken, or the rest of the kernel uses the heap. -/
inductive Event where
  | interrupt (irq : Irq)
  | call (a : Action)

/-- The system with the state of the interrupt handlers. -/
structure Machine (κ : Type) where
  system : System
  keyboard : κ
  /-- The vectors that have been acknowledged, in order. -/
  acknowledged : List Nat
  /-- An exception handler spins. -/
  stopped : Bool

namespace Machine

/-- The processor takes interrupts: a handler that does not return has them off. -/
def Waits (m : Machine κ) : Prop := m.system.session.halted = false ∧ m.stopped = false

instance (m : Machine κ) : Decidable m.Waits := inferInstanceAs (Decidable (_ ∧ _))

/-- `pic::end_of_interrupt`. -/
def endOfInterrupt (m : Machine κ) (index : InterruptIndex) : Machine κ :=
  { m with acknowledged := m.acknowledged ++ [index.asU8] }

/-- The handler of a processor exception. -/
def exceptionHandler (m : Machine κ) (returns : Bool) : Machine κ := { m with stopped := !returns }

/-- `timer_interrupt_handler`. -/
def timerInterruptHandler (m : Machine κ) : Machine κ := m.endOfInterrupt .timer

/-- `keyboard_interrupt_handler`. A command that does not return keeps it from the
acknowledgement. -/
def keyboardInterruptHandler (K : Keyboard κ ε ν ρ) (m : Machine κ) (scancode : UInt8) (env : Env) :
    Option (Machine κ) :=
  let (keyboard, character) := K.decode m.keyboard scancode
  let system := match character with
    | some character => m.system.step (.key env character)
    | none => some m.system
  system.map fun system =>
    let m := { m with keyboard := keyboard, system := system }
    if system.session.halted then m else m.endOfInterrupt .keyboard

/-- The processor takes a vector; without a handler it raises SEGMENT NOT PRESENT instead. -/
def dispatch (K : Keyboard κ ε ν ρ) (m : Machine κ) (vector : Nat) (irq : Irq) :
    Option (Machine κ) :=
  match idt vector with
  | some (.exception returns) => some (m.exceptionHandler returns)
  | some .timerInterruptHandler => some m.timerInterruptHandler
  | some .keyboardInterruptHandler => m.keyboardInterruptHandler K irq.scancode irq.env
  | none =>
    match idt 11 with
    | some (.exception returns) => some (m.exceptionHandler returns)
    | _ => none

/-- An event; there is none once a handler does not return. -/
def step (K : Keyboard κ ε ν ρ) (m : Machine κ) (e : Event) : Option (Machine κ) :=
  if m.Waits then
    match e with
    | .interrupt irq => m.dispatch K (vectorOf irq.line) irq
    | .call a => (m.system.step (.call a)).map fun system => { m with system := system }
  else none

/-- The events of a run. -/
def run (K : Keyboard κ ε ν ρ) (m : Machine κ) (events : List Event) : Option (Machine κ) :=
  Transition.run (step K) m events

/-- A system with an idle keyboard. -/
def start (K : Keyboard κ ε ν ρ) (system : System) : Machine κ where
  system := system
  keyboard := K.new
  acknowledged := []
  stopped := false

end Machine

/-! ## What the system sees of it -/

/-- What an event is to the system: the character that it completes, or the call. -/
def Keyboard.typed (K : Keyboard κ ε ν ρ) (keyboard : κ) : Event → List System.Event
  | .interrupt irq =>
    if irq.line = 1 then (K.decode keyboard irq.scancode).2.toList.map (.key irq.env) else []
  | .call a => [.call a]

/-- The keyboard after an event. -/
def Keyboard.next (K : Keyboard κ ε ν ρ) (keyboard : κ) : Event → κ
  | .interrupt irq => if irq.line = 1 then (K.decode keyboard irq.scancode).1 else keyboard
  | .call _ => keyboard

/-- What events are to the system. -/
def Keyboard.events (K : Keyboard κ ε ν ρ) (keyboard : κ) : List Event → List System.Event
  | [] => []
  | e :: events => K.typed keyboard e ++ K.events (K.next keyboard e) events

/-- The vectors of the interrupts. -/
def vectors (events : List Event) : List Nat :=
  events.filterMap fun
    | .interrupt irq => some (vectorOf irq.line)
    | .call _ => none

/-- The vectors of one more event. -/
theorem vectors_cons (e : Event) (events : List Event) :
    vectors (e :: events) = vectors [e] ++ vectors events := by
  rw [← List.singleton_append, vectors, List.filterMap_append]
  rfl

/-- Only the timer and the keyboard are let through. -/
theorem masked_iff : ∀ line, masked line = true ↔ line ≠ 0 ∧ line ≠ 1 := by decide

/-- The lines that are let through have their handlers, the others have none. -/
theorem idt_vectorOf (line : Fin 16) :
    idt (vectorOf line) = some .timerInterruptHandler ∧ line = 0 ∨
    idt (vectorOf line) = some .keyboardInterruptHandler ∧ line = 1 ∨
    idt (vectorOf line) = none ∧ masked line = true := by
  by_cases h : line = 0 ∨ line = 1
  · rcases h with rfl | rfl
    · exact Or.inl ⟨rfl, rfl⟩
    · exact Or.inr (Or.inl ⟨rfl, rfl⟩)
  · have hmasked := (masked_iff line).mpr (not_or.mp h)
    have hnone : ∀ line, masked line = true → idt (vectorOf line) = none := by decide
    exact Or.inr (Or.inr ⟨hnone line hmasked, hmasked⟩)

/-! ## One event -/

namespace Machine

variable {K : Keyboard κ ε ν ρ} {m n : Machine κ} {e : Event} {y : System}

/-- How an interrupt ends a run: its line has no handler, or the character that it completes
leads to a command that does not return. -/
def Ended (m : Machine κ) (irq : Irq) : Prop :=
  masked irq.line = true ∧ m.stopped = true ∧ m.system.session.halted = false ∨
    irq.line = 1 ∧ m.stopped = false ∧ m.system.session.halted = true

/-- The handler of the keyboard hands its character to the system. -/
theorem keyboardInterruptHandler_eq {irq : Irq} (hline : irq.line = 1)
    (hy : m.system.run (K.typed m.keyboard (.interrupt irq)) = some y) :
    m.keyboardInterruptHandler K irq.scancode irq.env =
      some (if y.session.halted then
        { m with keyboard := K.next m.keyboard (.interrupt irq), system := y }
      else { m with keyboard := K.next m.keyboard (.interrupt irq), system := y }.endOfInterrupt
        .keyboard) := by
  rw [Keyboard.typed, if_pos hline] at hy
  unfold keyboardInterruptHandler
  rw [Keyboard.next, if_pos hline]
  cases hkey : (K.decode m.keyboard irq.scancode).2 with
  | none =>
    rw [hkey] at hy
    cases hy
    dsimp only
    rw [hkey, Option.map_some]
  | some character =>
    rw [hkey] at hy
    obtain ⟨z, hz, hend⟩ := Transition.run_cons_eq_some.mp hy
    cases hend
    dsimp only
    rw [hkey]
    dsimp only
    rw [hz, Option.map_some]

/-- An event is what it is to the system, and an interrupt is acknowledged, unless it ends the
run. -/
theorem step_waits (h : m.Waits) (hy : m.system.run (K.typed m.keyboard e) = some y) :
    ∃ n, m.step K e = some n ∧ n.system = y ∧ n.keyboard = K.next m.keyboard e ∧
      (n.Waits ∧ n.acknowledged = m.acknowledged ++ vectors [e] ∨
        ∃ irq, e = .interrupt irq ∧ n.acknowledged = m.acknowledged ∧ n.Ended irq) := by
  unfold step
  rw [if_pos h]
  cases e with
  | call a =>
    obtain ⟨z, hz, hend⟩ := Transition.run_cons_eq_some.mp hy
    cases hend
    have hsession : y.session = m.system.session := System.session_of_step hz
    dsimp only
    rw [hz]
    exact ⟨_, rfl, rfl, rfl, Or.inl ⟨⟨hsession ▸ h.1, h.2⟩, (List.append_nil _).symm⟩⟩
  | interrupt irq =>
    have hno : irq.line ≠ 1 → y = m.system := by
      intro hline
      rw [Keyboard.typed, if_neg hline] at hy
      exact (Option.some.inj hy).symm
    have hvectors : vectors [.interrupt irq] = [vectorOf irq.line] := rfl
    dsimp only
    rw [dispatch, hvectors]
    rcases idt_vectorOf irq.line with ⟨hidt, hline⟩ | ⟨hidt, hline⟩ | ⟨hidt, hmasked⟩
    · have hne : irq.line ≠ 1 := by rw [hline]; decide
      rw [hidt, hno hne, Keyboard.next, if_neg hne, hline]
      exact ⟨_, rfl, rfl, rfl, Or.inl ⟨h, rfl⟩⟩
    · rw [hidt]
      refine ⟨_, keyboardInterruptHandler_eq hline hy, ?_⟩
      split_ifs with hhalted
      · exact ⟨rfl, rfl, Or.inr ⟨irq, rfl, rfl, Or.inr ⟨hline, h.2, hhalted⟩⟩⟩
      · refine ⟨rfl, rfl, Or.inl ⟨⟨eq_false_of_ne_true hhalted, h.2⟩, ?_⟩⟩
        rw [hline]
        rfl
    · have hne := ((masked_iff _).mp hmasked).2
      rw [hidt, hno hne, Keyboard.next, if_neg hne]
      exact ⟨_, rfl, rfl, rfl, Or.inr ⟨irq, rfl, rfl, Or.inl ⟨hmasked, rfl, h.1⟩⟩⟩

/-! ## Runs -/

/-- In contract, the events happen in order until one of them ends the run. -/
theorem run_waits {R : HeapRange} (h : m.Waits) (hsound : m.system.Sound R) {events : List Event}
    (hok : Transition.Obeys System.step System.InContract m.system (K.events m.keyboard events)) :
    ∃ done n, done <+: events ∧ m.run K done = some n ∧
      m.system.run (K.events m.keyboard done) = some n.system ∧
      (n.Waits ∧ done = events ∧ n.acknowledged = m.acknowledged ++ vectors done ∨
        ∃ pre irq, done = pre ++ [.interrupt irq] ∧
          n.acknowledged = m.acknowledged ++ vectors pre ∧ n.Ended irq) := by
  induction events generalizing m with
  | nil =>
    exact ⟨[], m, List.prefix_rfl, rfl, rfl, Or.inl ⟨h, rfl, (List.append_nil _).symm⟩⟩
  | cons e events ih =>
    obtain ⟨hfirst, hlater⟩ := Transition.Obeys.of_append hok
    obtain ⟨y, hy, hsound'⟩ := System.run_sound hsound hfirst
    have hbefore : ∀ done, m.system.run (K.events m.keyboard (e :: done)) =
        y.run (K.events (K.next m.keyboard e) done) := by
      intro done
      rw [Keyboard.events, System.run, Transition.run_append]
      exact congrArg (Option.bind · _) hy
    obtain ⟨n, hn, rfl, hkeyboard, hwaits⟩ := step_waits h hy
    obtain ⟨hwaits, hack⟩ | ⟨irq, rfl, hack, hended⟩ := hwaits
    · obtain ⟨done, last, hdone, hrun, hsystem, hend⟩ :=
        ih hwaits hsound' (hkeyboard ▸ hlater _ hy)
      refine ⟨e :: done, last, List.cons_prefix_cons.mpr ⟨rfl, hdone⟩,
        Transition.run_cons_eq_some.mpr ⟨n, hn, hrun⟩, ?_, ?_⟩
      · rw [hbefore, ← hkeyboard]
        exact hsystem
      · rw [hack] at hend
        obtain ⟨hlast, heq, hacks⟩ | ⟨pre, irq, rfl, hacks, hlast⟩ := hend
        · refine Or.inl ⟨hlast, by rw [heq], ?_⟩
          rw [hacks, vectors_cons e done, List.append_assoc]
        · refine Or.inr ⟨e :: pre, irq, rfl, ?_, hlast⟩
          rw [hacks, vectors_cons e pre, List.append_assoc]
    · refine ⟨[.interrupt irq], n, List.cons_prefix_cons.mpr ⟨rfl, List.nil_prefix⟩,
        Transition.run_cons_eq_some.mpr ⟨n, hn, rfl⟩, hbefore [], ?_⟩
      exact Or.inr ⟨[], irq, rfl, by rw [hack]; exact (List.append_nil _).symm, hended⟩

end Machine

/-- Whatever interrupts the processor takes, on any of the sixteen lines, in whatever order and
with whatever scancodes, and whatever calls of the heap come in between, in contract: they are
served, all of them or up to the first whose handler does not return. The system is that of the
characters that the keyboard's interrupts complete, in order, each of them once, and of the
calls. All interrupts before have been acknowledged, each with its vector and in order. A
handler that does not return is that of a line which the controllers do not pass on, or has
executed a command that does not return. -/
theorem interrupts_reach_system (K : Keyboard κ ε ν ρ) (l : Launch) (events : List Event)
    (hok : l.InContract (K.events K.new events)) :
    ∃ done m, done <+: events ∧
      (l.boot.bind fun x => (Machine.start K x).run K done) = some m ∧
      l.after (K.events K.new done) = some m.system ∧
      (m.Waits ∧ done = events ∧ m.acknowledged = vectors done ∨
        ∃ pre irq, done = pre ++ [.interrupt irq] ∧ m.acknowledged = vectors pre ∧
          m.Ended irq) := by
  obtain ⟨x, hboot, hsound, hsession, -⟩ := l.exists_boot
  have hwaits : (Machine.start K x).Waits :=
    ⟨(congrArg Session.halted hsession).trans
      (Session.boot_halted l.env l.font l.info l.back l.front), rfl⟩
  obtain ⟨done, m, hdone, hrun, hsystem, hend⟩ :=
    Machine.run_waits (K := K) hwaits hsound (hok x hboot)
  refine ⟨done, m, hdone, ?_, ?_, hend⟩
  · rw [hboot]
    exact hrun
  · rw [Launch.after, hboot]
    exact hsystem

/-! ## A keyboard of four keys -/

/-- The keys of `ls` and of `as`, and Enter, without modifiers: pressed they are characters,
released they are none. -/
def fourKeys : Keyboard Unit UInt8 (UInt8 × Bool) UInt8 where
  new := ()
  addByte _ scancode := ((), .ok (some (scancode &&& 0x7f, decide (scancode < 0x80))))
  processKeyevent _ event :=
    ((), if event.2 then
        match event.1 with
        | 0x1e => some (.unicode 'a')
        | 0x26 => some (.unicode 'l')
        | 0x1f => some (.unicode 's')
        | 0x1c => some (.unicode '\n')
        | key => some (.rawKey key)
      else none)

/-- The interrupts of typing `ls` and Enter, with the timer and calls in between, and then a
spurious one on a masked line. -/
def fourKeysEvents : List Event :=
  let press scancode := [.interrupt ⟨1, scancode, .quiet⟩, .interrupt ⟨0, 0, .quiet⟩,
    .interrupt ⟨1, scancode ||| 0x80, .quiet⟩]
  press 0x26 ++ press 0x1f ++ [.call (.alloc .word), .call (.write 0x44444a800000 7)] ++
    press 0x1c ++ [.interrupt ⟨7, 0, .quiet⟩, .interrupt ⟨0, 0, .quiet⟩]

/-- `ls` is executed, and the spurious interrupt ends the run. -/
theorem interrupts_reach_system_row : ∃ done m, done <+: fourKeysEvents ∧
    (Launch.row.boot.bind fun x => (Machine.start fourKeys x).run fourKeys done) = some m ∧
    Launch.row.after (fourKeys.events fourKeys.new done) = some m.system ∧
    (m.Waits ∧ done = fourKeysEvents ∧ m.acknowledged = vectors done ∨
      ∃ pre irq, done = pre ++ [.interrupt irq] ∧ m.acknowledged = vectors pre ∧ m.Ended irq) :=
  interrupts_reach_system fourKeys Launch.row fourKeysEvents (by decide +kernel)

end SillOS.Interrupts

import SillOS.Kernel.System

/-!
# Runs from the start of the kernel

The kernel starts on memory, a framebuffer and a font of any kind. A run from its first
prompt is a run of the system, and what happens to the session in it is what its keys do to
the session alone, with the answers that the heap gives them.
-/

namespace SillOS

open Buddy Fb Shell

/-! ## The keys of a run -/

namespace System

/-- The key of an event, with the answers of the heap that it finds. -/
def keyOf (x : System) : Event → Option (HeapEnv × Char)
  | .key env key => some (env.withHeap x.heap.heap, key)
  | .call _ => none

/-- The keys of a run. -/
def keys (x : System) : List Event → List (HeapEnv × Char)
  | [] => []
  | e :: events => (x.keyOf e).toList ++ (x.step e).elim [] fun y => y.keys events

variable {x y : System} {e : Event} {events : List Event}

/-- The keys of one more event. -/
theorem keys_cons (h : x.step e = some y) :
    x.keys (e :: events) = (x.keyOf e).toList ++ y.keys events := by rw [keys, h, Option.elim_some]

/-- An event does to the session what its key does. -/
theorem session_of_step (h : x.step e = some y) :
    y.session = x.session.after (x.keyOf e).toList := by
  cases e with
  | key env key =>
    obtain ⟨z, -, rfl⟩ := Option.map_eq_some_iff.mp h
    rfl
  | call a =>
    obtain ⟨heap, -, rfl⟩ := Option.map_eq_some_iff.mp h
    rfl

/-- A run does to the session what its keys do. -/
theorem session_of_run (h : x.run events = some y) :
    y.session = x.session.after (x.keys events) := by
  induction events generalizing x with
  | nil =>
    cases h
    rfl
  | cons e events ih =>
    obtain ⟨z, hz, hrun⟩ := Transition.run_cons_eq_some.mp h
    rw [ih hrun, session_of_step hz, keys_cons hz, Session.after_append]

end System

/-! ## The start -/

/-- What the kernel finds when it starts. -/
structure Launch where
  /-- The addresses of the heap. -/
  heapRange : HeapRange
  /-- The memory that the heap is in. -/
  mem : ByteMemory
  env : Env
  font : Font
  info : Info
  /-- The memory of the backbuffer. -/
  back : Nat → UInt32
  /-- The memory of the framebuffer. -/
  front : ByteMemory

namespace Launch

/-- The session at the first prompt. -/
def session (l : Launch) : Session := Session.boot l.env l.font l.info l.back l.front

/-- The system at the first prompt. -/
def boot (l : Launch) : Option System := (l.heapRange.boot l.mem).map (System.start l.session)

/-- The system after some events behind the first prompt. -/
def after (l : Launch) (events : List System.Event) : Option System :=
  l.boot.bind fun x => x.run events

/-- These events keep to the contract: lines free what lines hold, and the rest of the kernel
uses live blocks that lines do not hold. -/
def InContract (l : Launch) (events : List System.Event) : Prop :=
  ∀ x, l.boot = some x → Transition.Obeys System.step System.InContract x events

instance (l : Launch) (events : List System.Event) : Decidable (l.InContract events) :=
  inferInstanceAs (Decidable
    (∀ x ∈ l.boot, Transition.Obeys System.step System.InContract x events))

/-- The keys of a run. -/
def keys (l : Launch) (events : List System.Event) : List (HeapEnv × Char) :=
  l.boot.elim [] fun x => x.keys events

/-- The lines that the shell executes in a run. -/
def executed (l : Launch) (events : List System.Event) : List Text :=
  l.session.executed (l.keys events)

variable {l : Launch} {events more : List System.Event}

/-- The kernel starts with a sound heap. -/
theorem exists_boot (l : Launch) :
    ∃ x, l.boot = some x ∧ x.Sound l.heapRange ∧ x.session = l.session ∧ x.held = [] := by
  obtain ⟨m₀, hboot, -⟩ := Refines.boot l.heapRange l.mem
  rw [boot, hboot, Option.map_some]
  generalize l.session = session
  refine ⟨System.start session m₀, rfl, ?_, rfl, rfl⟩
  exact ⟨⟨l.mem, m₀, [], hboot, rfl⟩, List.forall_mem_nil _, List.nodup_nil⟩

/-- A run starts with the boot. -/
theorem after_eq {x : System} (hboot : l.boot = some x) (events : List System.Event) :
    l.after events = x.run events := by rw [after, hboot, Option.bind_some]

/-- So do its keys. -/
theorem keys_eq {x : System} (hboot : l.boot = some x) (events : List System.Event) :
    l.keys events = x.keys events := by rw [keys, hboot, Option.elim_some]

/-- A run leaves the session of its keys. -/
theorem session_of_after {x : System} (hx : l.after events = some x) :
    x.session = l.session.after (l.keys events) := by
  obtain ⟨y, hboot, hrun⟩ := Option.bind_eq_some_iff.mp hx
  obtain ⟨z, hboot', -, hsession, -⟩ := l.exists_boot
  obtain rfl : y = z := Option.some.inj (hboot.symm.trans hboot')
  rw [keys_eq hboot, ← hsession]
  exact System.session_of_run hrun

/-- A run in contract goes on, and leaves the session of its keys. -/
theorem exists_after (hok : l.InContract events) : ∃ x, l.after events = some x ∧
    x.Sound l.heapRange ∧ x.session = l.session.after (l.keys events) := by
  obtain ⟨x, hboot, hsound, -⟩ := l.exists_boot
  obtain ⟨y, hrun, hsound'⟩ := System.run_sound hsound (hok x hboot)
  have hy := (after_eq hboot events).trans hrun
  exact ⟨y, hy, hsound', session_of_after hy⟩

/-- A part of a run in contract is in contract. -/
theorem InContract.of_append (h : l.InContract (events ++ more)) : l.InContract events :=
  fun x hboot => (h x hboot).of_append.1

/-- What follows a part of a run in contract goes on from there. -/
theorem exists_later {x : System} (hok : l.InContract (events ++ more))
    (hx : l.after events = some x) : ∃ y, l.after (events ++ more) = some y ∧
      y.session = x.session.after (x.keys more) := by
  obtain ⟨y, hy, -, -⟩ := exists_after hok
  obtain ⟨start, hboot, hrun⟩ := Option.bind_eq_some_iff.mp hx
  refine ⟨y, hy, ?_⟩
  rw [after_eq hboot, System.run, Transition.run_append] at hy
  obtain ⟨x', hx', hmore⟩ := Option.bind_eq_some_iff.mp hy
  obtain rfl : x = x' := Option.some.inj (hrun.symm.trans hx')
  exact System.session_of_run hmore

/-! ## A run on one row -/

/-- A start with the kernel heap on a screen of sixteen cells. -/
def row : Launch where
  heapRange := kernelHeap
  mem := fun _ => 0
  env := .quiet
  font := Console.blankFont
  info := Console.rowInfo
  back := fun _ => 0
  front := fun _ => 7

/-- A letter is erased, a color set, a directory stored, and a word allocated. -/
def rowFirst : List System.Event :=
  System.typing ("setbg blackx".toList ++ Char.ofNat 8 :: "\nmkdir a\nalloc! 8 8\n".toList)

/-- The rest of the kernel uses the heap, the word is freed, and `ls` is typed. -/
def rowRest : List System.Event :=
  System.otherCalls ++ System.typing "dealloc! 0x44444a800000 8 8\nls".toList

/-- The run is in contract and executes its lines, and the last one is ready. -/
theorem row_run : row.InContract (rowFirst ++ rowRest) ∧
    row.executed (rowFirst ++ rowRest) = ["setbg black".toList, "mkdir a".toList,
      "alloc! 8 8".toList, "dealloc! 0x44444a800000 8 8".toList] ∧
    (row.session.after (row.keys (rowFirst ++ rowRest))).command '\n' = some "ls".toList := by
  decide +kernel

/-- The kernel waits for Enter then. -/
theorem row_waits : ∃ x, row.after (rowFirst ++ rowRest) = some x ∧ x.session.halted = false ∧
    x.session.command '\n' = some "ls".toList := by
  obtain ⟨hok, -, hcommand⟩ := row_run
  obtain ⟨x, hx, -, hsession⟩ := exists_after hok
  rw [← hsession] at hcommand
  refine ⟨x, hx, ?_, hcommand⟩
  unfold Session.command at hcommand
  split_ifs at hcommand with hkey
  exact hkey.1

end Launch

end SillOS

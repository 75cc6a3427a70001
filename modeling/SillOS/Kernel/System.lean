import SillOS.Kernel.Lines
import SillOS.Kmem.Buddy.Realloc

/-!
# The heap at the keyboard

The lines `alloc!` and `dealloc!` call the heap that the rest of the kernel uses as well.
A block that a line has been given is held until a line frees it. As long as lines free
what they hold, and the rest of the kernel keeps to its own blocks, no call goes wrong and
held blocks are left alone.
-/

namespace SillOS

open Buddy Fb Shell

/-! ## The calls of a line -/

namespace Shell

variable {k : Kernel} {args : List Text}

/-- The call of the heap that an effect is. -/
def heapCall : Effect → Option Action
  | .alloc layout _ => some (.alloc layout)
  | .dealloc ptr layout => some (.dealloc ptr layout)
  | _ => none

/-- No effect is a call of the heap. -/
def Silent (effects : List Effect) : Prop := ∀ e ∈ effects, heapCall e = none

private theorem silent_line (color : Option Color) (text : Text) : Silent [.println color text] :=
  List.forall_mem_singleton.mpr rfl

private theorem silent_lines (text text' : Text) : Silent [line text, line text'] :=
  List.forall_mem_cons.mpr ⟨rfl, silent_line none text'⟩

/-- How a line uses the heap: not at all, or with its first effect. -/
inductive HeapUse (k : Kernel) : List Effect → Prop where
  | silent {effects : List Effect} (h : Silent effects) : HeapUse k effects
  | alloc {layout : Layout} {rest : List Effect} (h : Silent rest) :
    HeapUse k (.alloc layout (k.alloc layout) :: rest)
  | dealloc {ptr : Nat} {layout : Layout} {rest : List Effect} (h : Silent rest) :
    HeapUse k (.dealloc ptr layout :: rest)

private theorem silent_echo : Silent (echo args) := by
  refine List.forall_mem_append.mpr ⟨fun e he => ?_, silent_line none []⟩
  obtain ⟨w, -, rfl⟩ | rfl := mem_echo he <;> rfl

/-- `ls` prints only. -/
theorem silent_ls : Silent (ls k args) := by
  unfold ls
  dsimp only
  cases k.fs.listEntries (args.head?.getD "/".toList) with
  | error _ => exact silent_line none _
  | ok entries =>
    intro e he
    obtain ⟨entry, -, rfl⟩ := List.mem_map.mp he
    cases entry <;> rfl

/-- So does `mkdir`. -/
theorem silent_mkdir : Silent (mkdir k args).1 := by
  unfold mkdir
  split
  · exact silent_line none _
  · split
    · exact List.forall_mem_nil _
    · exact silent_line none _

/-- So does `touch`. -/
theorem silent_touch : Silent (touch k args).1 := by
  unfold touch
  split
  · exact silent_line none _
  · split
    · exact List.forall_mem_nil _
    · exact silent_line none _

private theorem silent_setColor {name : Text} {set : Color → Effect}
    (hset : ∀ color, heapCall (set color) = none) : Silent (setColor name set args) := by
  unfold setColor
  split
  · exact silent_lines _ _
  · split
    · exact silent_line none _
    · exact List.forall_mem_cons.mpr ⟨hset _, List.forall_mem_singleton.mpr rfl⟩

private theorem heapUse_allocCmd : HeapUse k (allocCmd k args) := by
  cases args with
  | nil => exact .silent (silent_lines _ _)
  | cons sizeStr args =>
    unfold allocCmd
    cases hsize : parseUsize 10 sizeStr with
    | none =>
      simp only [hsize]
      exact .silent (silent_line none _)
    | some size =>
      by_cases hzero : size = 0
      · simp only [hsize, if_pos hzero]
        exact .silent (silent_line none _)
      simp only [hsize, if_neg hzero]
      cases halign : parseAlign args with
      | error alignStr => exact .silent (silent_line none _)
      | ok align =>
        cases hlayout : Layout.fromSizeAlign size align with
        | none =>
          simp only [hlayout]
          exact .silent (silent_line none _)
        | some layout =>
          simp only [hlayout]
          split_ifs
          · exact .alloc (silent_line _ _)
          · exact .alloc (List.forall_mem_cons.mpr ⟨rfl, silent_line _ _⟩)

private theorem heapUse_deallocCmd : HeapUse k (deallocCmd args) := by
  unfold deallocCmd
  dsimp only
  split
  · -- One line each for a bad pointer, size, alignment and layout, and for a null pointer.
    repeat' split
    all_goals first | exact .silent (silent_line none _) | exact .dealloc (silent_line _ _)
  · exact .silent (silent_lines _ _)

/-- A line calls the heap once or not at all. -/
theorem heapUse_execute (k : Kernel) (text : Text) : HeapUse k (execute k text).1 := by
  unfold execute
  cases splitWhitespace text with
  | nil => exact .silent (List.forall_mem_nil _)
  | cons command parts =>
    dsimp only
    split
    case h_1 => exact .silent (List.forall_mem_map.mpr fun _ _ => rfl)
    case h_3 => exact .silent silent_echo
    case h_11 => exact .silent (silent_setColor fun _ => rfl)
    case h_12 => exact .silent (silent_setColor fun _ => rfl)
    case h_15 => exact heapUse_allocCmd
    case h_16 => exact heapUse_deallocCmd
    case h_17 => exact .silent silent_ls
    case h_18 => exact .silent silent_mkdir
    case h_19 => exact .silent silent_touch
    -- The rest print lines or do one thing that is no call.
    all_goals
      refine .silent ?_
      simp only [Silent, clearterm, info, sven, shutdown, toggleSerial, line, List.forall_mem_cons,
        List.not_mem_nil, false_imp_iff, implies_true, heapCall, and_self]

end Shell

/-! ## The kernel with its heap -/

/-- The text that a key hands to the shell. -/
def Session.command (s : Session) (key : Char) : Option Text :=
  if s.halted = false ∧ (key = '\n' ∨ key = '\r') then (s.console.enter key).2.bind fromUtf8
  else none

/-- It is the typed line. -/
theorem Session.command_eq {s : Session} (h : s.console.PlainInput) (key : Char) :
    s.command key = s.executedBy key := by
  unfold command executedBy
  split_ifs with hkey
  · rw [Console.enter_line h.inputLen_le hkey.2, Option.bind_some, fromUtf8_line h]
  · rfl

/-- The shell asks this heap; a pointer is a word. -/
def Env.withHeap (env : Env) (heap : BuddyState) : HeapEnv where
  toEnv := env
  alloc layout := (heap.alloc layout).1 % 2 ^ 64
  alloc_lt _ := Nat.mod_lt _ (by decide)

/-- The session, the heap, and what the lines of the session have been given by it. -/
structure System where
  session : Session
  heap : Machine
  /-- The blocks that lines have allocated and not freed. -/
  held : List (Nat × Layout)

namespace System

/-- A key arrives, or the rest of the kernel uses the heap: the strings and containers of a
command and of the file system are of the rest. -/
inductive Event where
  | key (env : Env) (key : Char)
  | call (a : Action)

/-- The effects of the line that a key hands to the shell. -/
def effects (x : System) (env : Env) (key : Char) : List Effect :=
  match x.session.command key with
  | some text =>
    (Shell.execute ((x.session.entered key).kernel (env.withHeap x.heap.heap)) text).1
  | none => []

/-- An effect of a line on the heap. -/
def perform (x : System) : Effect → Option System
  | .alloc layout ptr =>
    (x.heap.step (.alloc layout)).map fun heap =>
      { x with heap := heap, held := liveAfterAlloc x.held ptr layout }
  | .dealloc ptr layout =>
    (x.heap.step (.dealloc ptr layout)).map fun heap =>
      { x with heap := heap, held := x.held.erase (ptr, layout) }
  | _ => some x

/-- One event; there is no successor where the heap is used against its contract, or does not
return. -/
def step (x : System) : Event → Option System
  | .key env key =>
    (Transition.run perform x (x.effects env key)).map fun y =>
      { y with session := x.session.step (env.withHeap x.heap.heap, key) }
  | .call a => (x.heap.step a).map fun heap => { x with heap := heap }

/-- The events of a run. -/
def run (x : System) (events : List Event) : Option System := Transition.run step x events

/-- A session with a fresh heap. -/
def start (session : Session) (heap : Machine) : System := ⟨session, heap, []⟩

/-! ## The contract -/

/-- Lines free what they hold, and the rest of the kernel uses live blocks that are not held. -/
def InContract (x : System) : Event → Prop
  | .key env key => ∀ ptr layout, .dealloc ptr layout ∈ x.effects env key → (ptr, layout) ∈ x.held
  | .call (.alloc _) => True
  | .call (.dealloc ptr layout) => (ptr, layout) ∈ x.heap.live ∧ (ptr, layout) ∉ x.held
  | .call (.write addr _) => ∃ b ∈ x.heap.live, b ∉ x.held ∧ addr ∈ liveSpan b

/-- An effect frees what is held, if it frees. -/
def FreesHeld (x : System) : Effect → Prop
  | .dealloc ptr layout => (ptr, layout) ∈ x.held
  | _ => True

instance (x : System) : DecidablePred x.FreesHeld
  | .dealloc ptr layout => inferInstanceAs (Decidable ((ptr, layout) ∈ x.held))
  | .print _ | .println _ _ | .clear | .present | .setBackground _ | .setForeground _ =>
    isTrue trivial
  | .setSerialMirror _ | .alloc _ _ | .memAnalyze | .breakpoint | .panic | .reboot | .exitQemu _ =>
    isTrue trivial

instance (x : System) : DecidablePred x.InContract
  | .key env key => decidable_of_iff (∀ e ∈ x.effects env key, x.FreesHeld e)
      ⟨fun h ptr layout hmem => h (.dealloc ptr layout) hmem,
        fun h e he => match e with
          | .dealloc ptr layout => h ptr layout he
          | .print _ | .println _ _ | .clear | .present | .setBackground _ => trivial
          | .setForeground _ | .setSerialMirror _ | .alloc _ _ | .memAnalyze => trivial
          | .breakpoint | .panic | .reboot | .exitQemu _ => trivial⟩
  | .call (.alloc _) => isTrue trivial
  | .call (.dealloc ptr layout) =>
    inferInstanceAs (Decidable ((ptr, layout) ∈ x.heap.live ∧ (ptr, layout) ∉ x.held))
  | .call (.write addr _) =>
    inferInstanceAs (Decidable (∃ b ∈ x.heap.live, b ∉ x.held ∧ addr ∈ liveSpan b))

/-- A line frees this block. -/
def Frees (x : System) (b : Nat × Layout) : Event → Prop
  | .key env key => .dealloc b.1 b.2 ∈ x.effects env key
  | .call _ => False

/-- What is held is live, each block once. -/
structure Sound (R : HeapRange) (x : System) : Prop where
  reachable : R.Reachable x.heap
  live : ∀ b ∈ x.held, b ∈ x.heap.live
  nodup : x.held.Nodup

variable {R : HeapRange} {x y : System}

/-- Held blocks stay as they are, one of them aside. -/
structure Leaves (P : Nat × Layout → Prop) (x y : System) : Prop where
  held : ∀ b ∈ x.held, P b → b ∈ y.held
  bytes : ∀ b ∈ x.held, b ∈ y.held → ∀ a, a ∈ liveSpan b → y.heap.heap.mem a = x.heap.heap.mem a

/-! ## One call -/

/-- Two live blocks that are not the same share no byte. -/
theorem disjoint_of_ne {c : Machine} (h : R.Reachable c) {b b' : Nat × Layout} (hb : b ∈ c.live)
    (hb' : b' ∈ c.live) (hne : b ≠ b') : (liveSpan b).Disjoint (liveSpan b') :=
  h.pairwise.forall hb hb' hne

/-- The pointer of a live block is a word, and not null. -/
theorem live_word {c : Machine} (h : R.Reachable c) {b : Nat × Layout} (hb : b ∈ c.live) :
    b.1 ≠ 0 ∧ b.1 < 2 ^ 64 := by
  obtain ⟨acts, m, _, href⟩ := h.refines
  have hspan : liveSpan b ∈ freeSpans m.heap.lists ++ c.live.map liveSpan :=
    List.mem_append_right _ (List.mem_map_of_mem hb)
  have hin := (href.partition.2 b.1).mp ⟨liveSpan b, hspan, Parts.start_mem _ _⟩
  have hstart := R.start_pos
  have hstop := R.stop_le
  omega

/-- A block that the heap hands out meets no live block. -/
theorem alloc_fresh {c : Machine} (h : R.Reachable c) {layout : Layout}
    (hptr : (c.heap.alloc layout).1 ≠ 0) : (c.heap.alloc layout).1 < 2 ^ 64 ∧
      ∀ b ∈ c.live, (liveSpan ((c.heap.alloc layout).1, layout)).Disjoint (liveSpan b) := by
  obtain ⟨hreach, -⟩ := h.alloc layout
  rw [liveAfterAlloc, if_neg hptr] at hreach
  exact ⟨(live_word hreach List.mem_cons_self).2, (List.pairwise_cons.mp hreach.pairwise).1⟩

/-- Doing nothing leaves what is held. -/
theorem Leaves.refl (P : Nat × Layout → Prop) (x : System) : x.Leaves P x :=
  ⟨fun _ hb _ => hb, fun _ _ _ _ _ => rfl⟩

/-- `alloc` leaves what is held. -/
theorem heap_alloc (h : x.Sound R) (layout : Layout) :
    ∃ c, x.heap.step (.alloc layout) = some c ∧ R.Reachable c ∧
      c.live = liveAfterAlloc x.heap.live (x.heap.heap.alloc layout).1 layout ∧
      ∀ b ∈ x.held, b ∈ c.live ∧ ∀ a, a ∈ liveSpan b → c.heap.mem a = x.heap.heap.mem a := by
  obtain ⟨hreach, hframe⟩ := h.reachable.alloc layout
  refine ⟨_, if_pos trivial, hreach, rfl, fun b hb => ⟨?_, hframe b (h.live b hb)⟩⟩
  change b ∈ liveAfterAlloc _ _ _
  unfold liveAfterAlloc
  split_ifs
  · exact h.live b hb
  · exact List.mem_cons_of_mem _ (h.live b hb)

/-- `alloc` adds its block to what is held, if it has one. -/
theorem perform_alloc (h : x.Sound R) (layout : Layout) :
    ∃ y, x.perform (.alloc layout (x.heap.heap.alloc layout).1) = some y ∧ y.Sound R ∧
      x.Leaves (fun _ => True) y ∧
      y.held = liveAfterAlloc x.held (x.heap.heap.alloc layout).1 layout := by
  obtain ⟨c, hstep, hreach, hlive, hothers⟩ := heap_alloc h layout
  have hfresh : (x.heap.heap.alloc layout).1 ≠ 0 →
      ((x.heap.heap.alloc layout).1, layout) ∉ x.heap.live := fun hptr hmem =>
    (alloc_fresh h.reachable hptr).2 _ hmem _ (Parts.start_mem _ _) (Parts.start_mem _ _)
  rw [perform, hstep]
  generalize (x.heap.heap.alloc layout).1 = ptr at hlive hfresh
  refine ⟨_, rfl, ?_, ⟨?_, fun b hb _ => (hothers b hb).2⟩, rfl⟩
  · by_cases hptr : ptr = 0
    · rw [liveAfterAlloc, if_pos hptr]
      exact ⟨hreach, fun b hb => (hothers b hb).1, h.nodup⟩
    · rw [liveAfterAlloc, if_neg hptr] at hlive ⊢
      refine ⟨hreach, List.forall_mem_cons.mpr ⟨?_, fun b hb => (hothers b hb).1⟩, ?_⟩
      · exact hlive ▸ List.mem_cons_self
      · exact List.nodup_cons.mpr ⟨fun hmem => hfresh hptr (h.live _ hmem), h.nodup⟩
  · intro b hb _
    dsimp only [liveAfterAlloc]
    split_ifs
    · exact hb
    · exact List.mem_cons_of_mem _ hb

/-- `dealloc` of a live block leaves the other blocks. -/
theorem heap_dealloc (h : x.Sound R) {ptr : Nat} {layout : Layout}
    (hlive : (ptr, layout) ∈ x.heap.live) :
    ∃ c, x.heap.step (.dealloc ptr layout) = some c ∧ R.Reachable c ∧
      ∀ b ∈ x.held, b ≠ (ptr, layout) →
        b ∈ c.live ∧ ∀ a, a ∈ liveSpan b → c.heap.mem a = x.heap.heap.mem a := by
  obtain ⟨c, hact, hreach, hframe⟩ := h.reachable.call (a := .dealloc ptr layout) hlive trivial
  obtain ⟨heap, -, rfl⟩ := Option.map_eq_some_iff.mp hact
  refine ⟨_, Machine.step_eq_some.mpr ⟨hlive, hact⟩, hreach, fun b hb hne => ?_⟩
  have hkeep := (List.mem_erase_of_ne hne).mpr (h.live b hb)
  exact ⟨hkeep, hframe b (h.live b hb) hkeep⟩

/-- `dealloc` of a held block takes this block out and leaves the others. -/
theorem perform_dealloc (h : x.Sound R) {ptr : Nat} {layout : Layout}
    (hheld : (ptr, layout) ∈ x.held) :
    ∃ y, x.perform (.dealloc ptr layout) = some y ∧ y.Sound R ∧
      x.Leaves (· ≠ (ptr, layout)) y := by
  obtain ⟨c, hstep, hreach, hothers⟩ := heap_dealloc h (h.live _ hheld)
  rw [perform, hstep]
  refine ⟨_, rfl, ⟨hreach, fun b hb => ?_, h.nodup.erase _⟩, ?_, fun b hb hb' => ?_⟩
  · obtain ⟨hne, hb⟩ := h.nodup.mem_erase_iff.mp hb
    exact (hothers b hb hne).1
  · exact fun b hb hne => (List.mem_erase_of_ne hne).mpr hb
  · exact (hothers b hb (h.nodup.mem_erase_iff.mp hb').1).2

/-- The rest of the kernel calls the heap, and writes, without touching what is held. -/
theorem step_call (h : x.Sound R) {a : Action} (hok : x.InContract (.call a)) :
    ∃ y, x.step (.call a) = some y ∧ y.Sound R ∧ x.Leaves (fun _ => True) y := by
  cases a with
  | alloc layout =>
    obtain ⟨c, hstep, hreach, -, hothers⟩ := heap_alloc h layout
    rw [step, hstep]
    exact ⟨_, rfl, ⟨hreach, fun b hb => (hothers b hb).1, h.nodup⟩, fun b hb _ => hb,
      fun b hb _ => (hothers b hb).2⟩
  | dealloc ptr layout =>
    obtain ⟨hlive, hfree⟩ := hok
    obtain ⟨c, hstep, hreach, hothers⟩ := heap_dealloc h hlive
    have hne : ∀ b ∈ x.held, b ≠ (ptr, layout) := by
      rintro b hb rfl
      exact hfree hb
    rw [step, hstep]
    exact ⟨_, rfl, ⟨hreach, fun b hb => (hothers b hb (hne b hb)).1, h.nodup⟩, fun b hb _ => hb,
      fun b hb _ => (hothers b hb (hne b hb)).2⟩
  | write addr byte =>
    obtain ⟨b', hb', hfree, haddr⟩ := hok
    have hstep : x.heap.step (.write addr byte) =
        some ⟨{ x.heap.heap with mem := ByteMemory.storeByte x.heap.heap.mem addr byte },
          x.heap.live⟩ := if_pos ⟨b', hb', haddr⟩
    have hreach := h.reachable.step hstep
    rw [step, hstep]
    refine ⟨_, rfl, ⟨hreach, h.live, h.nodup⟩, fun b hb _ => hb, fun b hb _ a ha => if_neg ?_⟩
    rintro rfl
    have hne : b ≠ b' := by
      rintro rfl
      exact hfree hb
    exact disjoint_of_ne h.reachable (h.live b hb) hb' hne a ha haddr

/-! ## One key -/

/-- Printing does not use the heap. -/
theorem run_silent {effects : List Effect} (h : Silent effects) :
    Transition.run perform x effects = some x := by
  induction effects with
  | nil => rfl
  | cons e effects ih =>
    obtain ⟨he, hrest⟩ := List.forall_mem_cons.mp h
    have hperform : x.perform e = some x := by
      cases e with
      | alloc | dealloc => cases he
      | _ => rfl
    rw [Transition.run_cons, hperform]
    exact ih hrest

/-- The line of a key uses the heap as it is. -/
theorem heapUse_effects (h : x.Sound R) (env : Env) (key : Char) :
    Silent (x.effects env key) ∨
    (∃ layout rest, x.effects env key = .alloc layout (x.heap.heap.alloc layout).1 :: rest ∧
      Silent rest) ∨
    ∃ ptr layout rest, x.effects env key = .dealloc ptr layout :: rest ∧ Silent rest := by
  unfold effects
  cases x.session.command key with
  | none => exact Or.inl (List.forall_mem_nil _)
  | some text =>
    have halloc : ∀ layout,
        ((x.session.entered key).kernel (env.withHeap x.heap.heap)).alloc layout =
          (x.heap.heap.alloc layout).1 := by
      intro layout
      refine Nat.mod_eq_of_lt ?_
      by_cases hptr : (x.heap.heap.alloc layout).1 = 0
      · rw [hptr]
        decide
      · exact (alloc_fresh h.reachable hptr).1
    dsimp only
    generalize (x.session.entered key).kernel (env.withHeap x.heap.heap) = k at halloc
    generalize hrun : (Shell.execute k text).1 = effects
    cases hrun ▸ heapUse_execute k text with
    | silent hsilent => exact Or.inl hsilent
    | alloc hrest => exact Or.inr (Or.inl ⟨_, _, by rw [halloc], hrest⟩)
    | dealloc hrest => exact Or.inr (Or.inr ⟨_, _, _, rfl, hrest⟩)

/-- A key in contract: the call of its line returns, and only a block that it frees is no
longer held. -/
theorem step_key (h : x.Sound R) {env : Env} {key : Char} (hok : x.InContract (.key env key)) :
    ∃ y, x.step (.key env key) = some y ∧ y.Sound R ∧
      x.Leaves (fun b => ¬x.Frees b (.key env key)) y := by
  have hcalls : ∃ y, Transition.run perform x (x.effects env key) = some y ∧ y.Sound R ∧
      x.Leaves (fun b => ¬x.Frees b (.key env key)) y := by
    obtain hsilent | ⟨layout, rest, heq, hrest⟩ | ⟨ptr, layout, rest, heq, hrest⟩ :=
      heapUse_effects h env key
    · exact ⟨x, run_silent hsilent, h, Leaves.refl _ x⟩
    · obtain ⟨y, hy, hsound, hleaves, -⟩ := perform_alloc h layout
      rw [heq]
      exact ⟨y, Transition.run_cons_eq_some.mpr ⟨y, hy, run_silent hrest⟩, hsound,
        fun b hb _ => hleaves.held b hb trivial, hleaves.bytes⟩
    · have hmem : .dealloc ptr layout ∈ x.effects env key := heq ▸ List.mem_cons_self
      obtain ⟨y, hy, hsound, hleaves⟩ := perform_dealloc h (hok ptr layout hmem)
      refine ⟨y, ?_, hsound, fun b hb hfree => hleaves.held b hb ?_, hleaves.bytes⟩
      · rw [heq]
        exact Transition.run_cons_eq_some.mpr ⟨y, hy, run_silent hrest⟩
      · rintro rfl
        exact hfree hmem
  obtain ⟨y, hy, hsound, hleaves⟩ := hcalls
  rw [step, hy]
  exact ⟨_, rfl, ⟨hsound.reachable, hsound.live, hsound.nodup⟩, hleaves.held, hleaves.bytes⟩

/-- Every event in contract. -/
theorem step_sound (h : x.Sound R) {e : Event} (hok : x.InContract e) :
    ∃ y, x.step e = some y ∧ y.Sound R ∧ x.Leaves (fun b => ¬x.Frees b e) y := by
  cases e with
  | key env key => exact step_key h hok
  | call a =>
    obtain ⟨y, hy, hsound, hleaves⟩ := step_call h hok
    exact ⟨y, hy, hsound, fun b hb _ => hleaves.held b hb trivial, hleaves.bytes⟩

/-! ## Runs -/

/-- A run in contract that does not free a held block leaves it as it is. -/
theorem run_leaves (h : x.Sound R) {events : List Event}
    (hok : Transition.Obeys step InContract x events) {b : Nat × Layout} (hb : b ∈ x.held)
    (hkept : Transition.Obeys step (fun y e => ¬y.Frees b e) x events) :
    ∃ y, x.run events = some y ∧ y.Sound R ∧ b ∈ y.held ∧
      ∀ a, a ∈ liveSpan b → y.heap.heap.mem a = x.heap.heap.mem a := by
  refine (hok.and hkept).exists_run (P := fun y => y.Sound R ∧ b ∈ y.held ∧
    ∀ a, a ∈ liveSpan b → y.heap.heap.mem a = x.heap.heap.mem a) ?_ ⟨h, hb, fun _ _ => rfl⟩
  rintro y e ⟨hsound, hmem, hbytes⟩ ⟨hcontract, hfree⟩
  obtain ⟨z, hz, hsound', hleaves⟩ := step_sound hsound hcontract
  have hmem' := hleaves.held b hmem hfree
  exact ⟨z, hz, hsound', hmem', fun a ha => (hleaves.bytes b hmem hmem' a ha).trans (hbytes a ha)⟩

/-- A run in contract goes on and stays sound. -/
theorem run_sound (h : x.Sound R) {events : List Event}
    (hok : Transition.Obeys step InContract x events) : ∃ y, x.run events = some y ∧ y.Sound R :=
  hok.exists_run (fun _ _ hsound hcontract =>
    have ⟨z, hz, hsound', _⟩ := step_sound hsound hcontract
    ⟨z, hz, hsound'⟩) h

/-- What a line prints as allocated, it holds from then on. -/
theorem step_allocates (h : x.Sound R) {env : Env} {key : Char} {ptr : Nat} {layout : Layout}
    (halloc : .alloc layout ptr ∈ x.effects env key) (hptr : ptr ≠ 0) :
    x.effects env key = allocated ptr layout ∧
      (∀ b ∈ x.heap.live, (liveSpan (ptr, layout)).Disjoint (liveSpan b)) ∧
      ∃ y, x.step (.key env key) = some y ∧ (ptr, layout) ∈ y.held := by
  have hprinted : x.effects env key = allocated ptr layout := by
    unfold effects at halloc ⊢
    cases hline : x.session.command key with
    | none =>
      rw [hline] at halloc
      cases halloc
    | some text =>
      rw [hline] at halloc
      exact (execute_allocates halloc hptr).1
  have hanswer : ptr = (x.heap.heap.alloc layout).1 := by
    obtain hsilent | ⟨layout', rest, heq, -⟩ | ⟨ptr', layout', rest, heq, -⟩ :=
      heapUse_effects h env key
    · cases hsilent _ halloc
    · obtain ⟨rfl, rfl⟩ := Effect.alloc.inj (List.cons.inj (hprinted.symm.trans heq)).1
      rfl
    · cases (List.cons.inj (hprinted.symm.trans heq)).1
  subst hanswer
  obtain ⟨y, hy, -, -, hheld⟩ := perform_alloc h layout
  have hrun : Transition.run perform x (x.effects env key) = some y := by
    rw [hprinted]
    exact Transition.run_cons_eq_some.mpr
      ⟨y, hy, run_silent (List.forall_mem_cons.mpr ⟨rfl, silent_line _ _⟩)⟩
  refine ⟨hprinted, (alloc_fresh h.reachable hptr).2, ?_⟩
  rw [step, hrun]
  refine ⟨_, rfl, ?_⟩
  change _ ∈ y.held
  rw [hheld, liveAfterAlloc, if_neg hptr]
  exact List.mem_cons_self

/-- Lines and the rest of the kernel use the heap in any order, from a fresh heap over
arbitrary memory. As long as each line frees only what is held, and the rest of the kernel
keeps to live blocks that are not: every call returns; what is held is live, once, and
apart from all other live blocks; a line that prints a pointer holds a block that was free;
a held block has the bytes that it had at any earlier time since it is held; and its line
under the name of the command frees it. -/
theorem held_blocks_kept (R : HeapRange) (mem : ByteMemory) (session : Session) :
    ∃ m₀, R.boot mem = some m₀ ∧ ∀ pre post,
      Transition.Obeys step InContract (start session m₀) (pre ++ post) →
      ∃ x y, (start session m₀).run pre = some x ∧ x.run post = some y ∧
        y.held.Nodup ∧
        (∀ b ∈ y.held, b ∈ y.heap.live ∧
          (∀ b' ∈ y.heap.live, b ≠ b' → (liveSpan b).Disjoint (liveSpan b')) ∧
          ∀ k, Shell.Frees k (freeLine "dealloc!" b.1 b.2) b.1 b.2) ∧
        (∀ env key layout ptr, .alloc layout ptr ∈ y.effects env key → ptr ≠ 0 →
          y.effects env key = allocated ptr layout ∧
          (∀ b ∈ y.heap.live, (liveSpan (ptr, layout)).Disjoint (liveSpan b)) ∧
          ∃ z, y.step (.key env key) = some z ∧ (ptr, layout) ∈ z.held) ∧
        ∀ b ∈ x.held, Transition.Obeys step (fun z e => ¬z.Frees b e) x post →
          b ∈ y.held ∧ ∀ a, a ∈ liveSpan b → y.heap.heap.mem a = x.heap.heap.mem a := by
  obtain ⟨m₀, hboot, -⟩ := Refines.boot R mem
  refine ⟨m₀, hboot, fun pre post hobeys => ?_⟩
  have hstart : (start session m₀).Sound R :=
    ⟨⟨mem, m₀, [], hboot, rfl⟩, List.forall_mem_nil _, List.nodup_nil⟩
  obtain ⟨hpre, hpost⟩ := hobeys.of_append
  obtain ⟨x, hx, hsound⟩ := run_sound hstart hpre
  obtain ⟨y, hy, hsound'⟩ := run_sound hsound (hpost x hx)
  refine ⟨x, y, hx, hy, hsound'.nodup, fun b hb => ?_, fun env key layout ptr => ?_,
    fun b hb hkept => ?_⟩
  · have hlive := hsound'.live b hb
    obtain ⟨hptr, hlt⟩ := live_word hsound'.reachable hlive
    exact ⟨hlive, fun b' hb' => disjoint_of_ne hsound'.reachable hlive hb',
      fun k => frees_freeLine k b.2 hptr hlt⟩
  · exact step_allocates hsound'
  · obtain ⟨z, hz, -, hmem, hbytes⟩ := run_leaves hsound (hpost x hx) hb hkept
    obtain rfl : y = z := Option.some.inj (hy.symm.trans hz)
    exact ⟨hmem, hbytes⟩

/-- A session on one line of the screen in which `alloc! 8 8` has been typed. -/
def typedSession : Session where
  console := { Console.lineConsole with
    input := fun i => ("alloc! 8 8".toList.map fun c => UInt8.ofNat c.toNat).getD i 0
    inputLen := 10 }
  fs := Fs.TmpFs.new
  serialMirror := false
  mirrored := []
  halted := false

/-- The keys of a text. -/
def typing (text : Text) : List Event := text.map (.key .quiet)

/-- The rest of the kernel allocates a word and writes to it. -/
def otherCalls : List Event := [.call (.alloc .word), .call (.write 0x44444a800048 7)]

/-- Enter allocates a word of the kernel heap, which keeps its bytes while the rest of the
kernel allocates and writes, until its line under the name of the command frees it. -/
theorem held_blocks_kept_typed :
    let b : Nat × Layout := (0x44444a800000, .word)
    ∃ m₀ x y z, kernelHeap.boot (fun _ => 0) = some m₀ ∧
      (start typedSession m₀).run (typing ['\n']) = some x ∧ b ∈ x.held ∧
      x.run otherCalls = some y ∧ b ∈ y.held ∧
      (∀ a, a ∈ liveSpan b → y.heap.heap.mem a = x.heap.heap.mem a) ∧
      y.run (typing (freeLine "dealloc!" b.1 b.2 ++ ['\n'])) = some z ∧ b ∉ z.held := by
  intro b
  let free := typing (freeLine "dealloc!" b.1 b.2 ++ ['\n'])
  have hobeys : ∀ m₀ ∈ kernelHeap.boot fun _ => 0, Transition.Obeys step InContract
      (start typedSession m₀) ((typing ['\n'] ++ otherCalls) ++ free) := by decide +kernel
  have hheld : ∀ m₀ ∈ kernelHeap.boot fun _ => 0,
      ∀ x ∈ (start typedSession m₀).run (typing ['\n']), b ∈ x.held := by decide +kernel
  have hfreed : ∀ m₀ ∈ kernelHeap.boot fun _ => 0,
      ∀ z ∈ (start typedSession m₀).run ((typing ['\n'] ++ otherCalls) ++ free), b ∉ z.held := by
    decide +kernel
  obtain ⟨m₀, hboot, hkept⟩ := held_blocks_kept kernelHeap (fun _ => 0) typedSession
  obtain ⟨x, y, hx, hy, -, -, -, hleft⟩ :=
    hkept (typing ['\n']) otherCalls (hobeys m₀ hboot).of_append.1
  obtain ⟨y', z, hy', hz, -⟩ := hkept _ free (hobeys m₀ hboot)
  have hrun : (start typedSession m₀).run (typing ['\n'] ++ otherCalls) = some y := by
    rw [run, Transition.run_append]
    exact Option.bind_eq_some_iff.mpr ⟨x, hx, hy⟩
  obtain rfl : y = y' := Option.some.inj (hrun.symm.trans hy')
  have hx' := hheld m₀ hboot x hx
  obtain ⟨hmem, hbytes⟩ := hleft b hx' ⟨not_false, fun _ _ => ⟨not_false, fun _ _ => trivial⟩⟩
  refine ⟨m₀, x, y, z, hboot, hx, hx', hy, hmem, hbytes, hz, hfreed m₀ hboot z ?_⟩
  rw [run, Transition.run_append]
  exact Option.bind_eq_some_iff.mpr ⟨y, hrun, hz⟩

end System

end SillOS

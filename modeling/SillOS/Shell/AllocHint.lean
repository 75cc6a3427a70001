import SillOS.Shell.Commands

/-!
# The command that `alloc!` prints

After an allocation the shell prints a line that is meant to free it. Its numbers
read back as they were printed, but its first word is no command.
-/

namespace SillOS.Shell

open Fb Numerals Words

variable {k k' : Kernel} {text : Text} {layout : Layout} {ptr : Nat}

/-- The text behind `To free: ` in a printed line. -/
def freeHint : Effect → Option Text
  | .println _ text => "To free: ".toList.isPrefixOf? text
  | _ => none

/-- The arguments of a call of `dealloc`. -/
def deallocCall : Effect → Option (Nat × Layout)
  | .dealloc ptr layout => some (ptr, layout)
  | _ => none

/-- Executing the text calls `dealloc` exactly once, with this pointer and this layout. -/
def Frees (k : Kernel) (text : Text) (ptr : Nat) (layout : Layout) : Prop :=
  (execute k text).1.filterMap deallocCall = [(ptr, layout)]

/-- A command line that passes an allocation to the command. -/
def freeLine (command : String) (ptr : Nat) (layout : Layout) : Text :=
  command.toList ++ " ".toList ++ hexadecimal ptr ++ " ".toList ++ decimal layout.size ++
    " ".toList ++ decimal layout.align

/-! ## Printed numbers as words -/

private theorem isWhitespace_digit {c : Char} {d : Nat} (h : digitValue c = some d) :
    isWhitespace c = false := by
  have hc := toNat_of_digitValue h
  simp only [isWhitespace, Bool.or_eq_false_iff, Bool.and_eq_false_iff, decide_eq_false_iff_not,
    beq_eq_false_iff_ne]
  omega

private theorem not_whitespace_of_all {l : Text} (h : l.all (fun c => !isWhitespace c) = true) :
    ∀ c ∈ l, isWhitespace c = false := by
  simpa using h

private theorem parseUsize_decimal {n : Nat} (h : n < 2 ^ 64) :
    parseUsize 10 (decimal n) = some n :=
  parse_toDigits (by decide) (by decide) h

/-- Printed in hexadecimal, a pointer reads back after its prefix. -/
theorem parseUsize_hexadecimal (h : ptr < 2 ^ 64) :
    parseUsize 16
      (trimStartMatches "0X".toList (trimStartMatches "0x".toList (hexadecimal ptr))) =
        some ptr := by
  have hletter : ∀ c : Char, ∀ d, 16 ≤ d → digitValue c = some d → c ∉ Nat.toDigits 16 ptr := by
    intro c d hd hc hmem
    obtain ⟨e, he, hc'⟩ := digitValue_of_mem_toDigits (by decide) (by decide) hmem
    rw [hc] at hc'
    cases hc'
    omega
  rw [hexadecimal, trimStartMatches_append (by decide),
    trimStartMatches_of_not_mem (x := 'x') (by decide) (hletter 'x' 33 (by decide) rfl),
    trimStartMatches_of_not_mem (x := 'X') (by decide) (hletter 'X' 33 (by decide) rfl)]
  exact parse_toDigits (by decide) (by decide) h

private theorem decimal_word (n : Nat) :
    decimal n ≠ [] ∧ ∀ c ∈ decimal n, isWhitespace c = false := by
  refine ⟨Nat.toDigits_ne_nil, fun c hc => ?_⟩
  obtain ⟨d, -, hd⟩ := digitValue_of_mem_toDigits (by decide) (by decide) hc
  exact isWhitespace_digit hd

private theorem hexadecimal_word (n : Nat) :
    hexadecimal n ≠ [] ∧ ∀ c ∈ hexadecimal n, isWhitespace c = false := by
  refine ⟨by simp [hexadecimal], fun c hc => ?_⟩
  rcases List.mem_append.mp hc with hc | hc
  · exact not_whitespace_of_all rfl c hc
  · obtain ⟨d, -, hd⟩ := digitValue_of_mem_toDigits (by decide) (by decide) hc
    exact isWhitespace_digit hd

/-- The words of such a line. -/
theorem splitWhitespace_freeLine {command : String} (hne : command.toList ≠ [])
    (hcommand : command.toList.all (fun c => !isWhitespace c) = true) (ptr : Nat)
    (layout : Layout) :
    splitWhitespace (freeLine command ptr layout) =
      [command.toList, hexadecimal ptr, decimal layout.size, decimal layout.align] := by
  have hjoin : freeLine command ptr layout = List.intercalate [' ']
      [command.toList, hexadecimal ptr, decimal layout.size, decimal layout.align] := by
    simp [freeLine, List.intercalate, List.intersperse]
  rw [splitWhitespace, hjoin, words_intercalate rfl]
  simp only [List.forall_mem_cons]
  exact ⟨⟨hne, not_whitespace_of_all hcommand⟩, hexadecimal_word ptr, decimal_word _,
    decimal_word _, List.forall_mem_nil _⟩

/-! ## Executing the line -/

/-- No command is named `dealloc`. -/
theorem execute_dealloc (k : Kernel) (ptr : Nat) (layout : Layout) :
    execute k (freeLine "dealloc" ptr layout) =
      ([line "Unknown command: dealloc".toList,
        line "Type 'help' for a list of commands.".toList], k) := by
  rw [execute, splitWhitespace_freeLine (by decide) rfl]
  simp

/-- The alignment of a layout is read back. -/
theorem parseAlign_decimal (layout : Layout) :
    parseAlign [decimal layout.align] = .ok layout.align := by
  have hle := layout.size_le
  rw [parseAlign, parseUsize_decimal (by omega)]
  exact if_pos layout.align_pow

/-- With the name of the command in front, the line frees the allocation. -/
theorem frees_freeLine (k : Kernel) (layout : Layout) (hptr : ptr ≠ 0) (hlt : ptr < 2 ^ 64) :
    Frees k (freeLine "dealloc!" ptr layout) ptr layout := by
  have hle := layout.size_le
  have hexec : execute k (freeLine "dealloc!" ptr layout) =
      (deallocCmd [hexadecimal ptr, decimal layout.size, decimal layout.align], k) := by
    rw [execute, splitWhitespace_freeLine (by decide) rfl]
    simp
  rw [Frees, hexec, deallocCmd, parseUsize_hexadecimal hlt]
  simp only [parseUsize_decimal (show layout.size < 2 ^ 64 by omega), parseAlign_decimal,
    layout.fromSizeAlign_self, if_neg hptr]
  rfl

/-! ## Lines that allocate -/

/-- What `alloc!` does when it gets memory. -/
def allocated (ptr : Nat) (layout : Layout) : List Effect :=
  [.alloc layout ptr,
    .println (some Color.GREEN) ("Allocated ".toList ++ decimal layout.size ++
      " bytes (align ".toList ++ decimal layout.align ++ ") at ".toList ++ hexadecimal ptr),
    line ("To free: ".toList ++ freeLine "dealloc" ptr layout)]

/-- One of its lines has a hint. -/
theorem freeHint_allocated (ptr : Nat) (layout : Layout) :
    (allocated ptr layout).filterMap freeHint = [freeLine "dealloc" ptr layout] := by
  have hhint : freeHint (line ("To free: ".toList ++ freeLine "dealloc" ptr layout)) =
      some (freeLine "dealloc" ptr layout) :=
    List.isPrefixOf?_eq_some_iff_append_eq.mpr rfl
  rw [allocated, List.filterMap_cons_none rfl, List.filterMap_cons_none rfl,
    List.filterMap_cons_some hhint, List.filterMap_nil]

/-- Printing is not allocating. -/
theorem alloc_ne_line (text : Text) : Effect.alloc layout ptr ≠ line text := nofun

private theorem not_mem_line (text : Text) : Effect.alloc layout ptr ∉ [line text] := by
  simp only [List.mem_singleton, alloc_ne_line, not_false_eq_true]

private theorem not_mem_lines (text text' : Text) :
    Effect.alloc layout ptr ∉ [line text, line text'] := by
  simp only [List.mem_cons, alloc_ne_line, List.not_mem_nil, or_self, not_false_eq_true]

private theorem allocCmd_allocates {args : List Text} (h : .alloc layout ptr ∈ allocCmd k args)
    (hptr : ptr ≠ 0) : allocCmd k args = allocated ptr layout ∧ ptr = k.alloc layout := by
  cases args with
  | nil => exact absurd h (not_mem_lines _ _)
  | cons sizeStr args =>
    unfold allocCmd at h ⊢
    cases hsize : parseUsize 10 sizeStr with
    | none =>
      simp only [hsize] at h
      exact absurd h (not_mem_line _)
    | some size =>
      by_cases hzero : size = 0
      · simp only [hsize, if_pos hzero] at h
        exact absurd h (not_mem_line _)
      simp only [hsize, if_neg hzero] at h ⊢
      cases halign : parseAlign args with
      | error alignStr =>
        simp only [halign] at h
        exact absurd h (not_mem_line _)
      | ok align =>
        simp only [halign] at h ⊢
        cases hlayout : Layout.fromSizeAlign size align with
        | none =>
          simp only [hlayout] at h
          exact absurd h (not_mem_line _)
        | some layout' =>
          obtain ⟨rfl, rfl⟩ := Layout.fromSizeAlign_eq_some.mp hlayout
          simp only [hlayout] at h ⊢
          by_cases hnull : k.alloc layout' = 0
          · simp only [if_pos hnull, List.mem_cons, Effect.alloc.injEq, reduceCtorEq,
              List.not_mem_nil, or_false] at h
            exact absurd (h.2.trans hnull) hptr
          · simp only [if_neg hnull, List.mem_cons, Effect.alloc.injEq, reduceCtorEq,
              alloc_ne_line, List.not_mem_nil, or_false] at h
            obtain ⟨rfl, rfl⟩ := h
            rw [if_neg hnull]
            exact ⟨by simp [allocated, freeLine, line], rfl⟩

section OtherCommands

variable {args : List Text}

private theorem alloc_not_mem_help : .alloc layout ptr ∉ help := by
  intro h
  obtain ⟨text, -, heq⟩ := List.mem_map.mp h
  cases heq

private theorem alloc_not_mem_ls : .alloc layout ptr ∉ ls k args := by
  unfold ls
  dsimp only
  cases k.fs.listEntries (args.head?.getD "/".toList) with
  | error _ => exact not_mem_line _
  | ok entries =>
    intro h
    obtain ⟨entry, -, heq⟩ := List.mem_map.mp h
    cases entry <;> cases heq

private theorem alloc_not_mem_mkdir : .alloc layout ptr ∉ (mkdir k args).1 := by
  unfold mkdir
  split
  · exact not_mem_line _
  · split
    · exact List.not_mem_nil
    · exact not_mem_line _

private theorem alloc_not_mem_touch : .alloc layout ptr ∉ (touch k args).1 := by
  unfold touch
  split
  · exact not_mem_line _
  · split
    · exact List.not_mem_nil
    · exact not_mem_line _

private theorem alloc_not_mem_echo : .alloc layout ptr ∉ echo args := by
  have hwords : ∀ ws : List Text,
      .alloc layout ptr ∉ (ws.map Effect.print).intersperse (.print " ".toList) := by
    intro ws
    induction ws with
    | nil => simp
    | cons w ws ih =>
      cases ws with
      | nil => simp
      | cons v ws => simpa using ih
  simpa [echo, line] using hwords args

private theorem alloc_not_mem_setColor {name : Text} {set : Color → Effect}
    (hset : ∀ color, set color ≠ .alloc layout ptr) :
    .alloc layout ptr ∉ setColor name set args := by
  unfold setColor
  split
  · exact not_mem_lines _ _
  · split
    · exact not_mem_line _
    · simp [Ne.symm (hset _)]

private theorem alloc_not_mem_deallocCmd : .alloc layout ptr ∉ deallocCmd args := by
  unfold deallocCmd
  dsimp only
  split
  · -- One line each for a bad pointer, size, alignment and layout, and for a null pointer.
    repeat' split
    all_goals first | exact not_mem_line _ | simp
  · exact not_mem_lines _ _

end OtherCommands

/-- Only `alloc!` allocates. -/
theorem execute_allocates (h : .alloc layout ptr ∈ (execute k text).1) (hptr : ptr ≠ 0) :
    (execute k text).1 = allocated ptr layout ∧ ptr = k.alloc layout := by
  unfold execute at h ⊢
  cases hwords : splitWhitespace text with
  | nil =>
    rw [hwords] at h
    cases h
  | cons command parts =>
    rw [hwords] at h
    dsimp only at h ⊢
    split at h
    -- The fifteenth command is `alloc!`.
    case h_15 => exact allocCmd_allocates h hptr
    all_goals simp only [alloc_not_mem_help, alloc_not_mem_echo, alloc_not_mem_ls,
      alloc_not_mem_mkdir, alloc_not_mem_touch, alloc_not_mem_setColor, alloc_not_mem_deallocCmd,
      clearterm, info, sven, shutdown, setbg, setfg, toggleSerial, line, ne_eq, reduceCtorEq,
      List.mem_cons, List.not_mem_nil, not_false_eq_true, implies_true, or_self] at h

/-- Whatever has been allocated, executing the printed text does not free it: it is no command. -/
theorem hint_frees_nothing (k' : Kernel) (h : .alloc layout ptr ∈ (execute k text).1)
    (hptr : ptr ≠ 0) :
    ∃ hint, (execute k text).1.filterMap freeHint = [hint] ∧ ¬Frees k' hint ptr layout ∧
      (execute k' hint).1 = [line "Unknown command: dealloc".toList,
        line "Type 'help' for a list of commands.".toList] := by
  have hexec := execute_dealloc k' ptr layout
  refine ⟨freeLine "dealloc" ptr layout, ?_, ?_, congrArg Prod.fst hexec⟩
  · rw [(execute_allocates h hptr).1]
    exact freeHint_allocated ptr layout
  · rw [Frees, hexec]
    exact (List.cons_ne_nil _ _).symm

/-- Under the name of the command that frees, the same line does. -/
theorem freeLine_frees (k' : Kernel) (h : .alloc layout ptr ∈ (execute k text).1) (hptr : ptr ≠ 0) :
    Frees k' (freeLine "dealloc!" ptr layout) ptr layout := by
  have hlt : ptr < 2 ^ 64 := (execute_allocates h hptr).2 ▸ k.alloc_lt layout
  exact frees_freeLine k' layout hptr hlt

/-- A kernel whose heap answers every request with the same address. -/
def sampleKernel : Kernel where
  fs := Fs.TmpFs.new
  serialMirror := false
  width := 1024
  height := 768
  alloc := fun _ => 0x444444440000
  alloc_lt _ := by decide

/-- The line that `alloc! 16 16` prints on this kernel. -/
theorem hint_frees_nothing_sample :
    ∃ hint, (execute sampleKernel "alloc! 16 16".toList).1.filterMap freeHint = [hint] ∧
      ¬Frees sampleKernel hint 0x444444440000 (.block 4) ∧
      (execute sampleKernel hint).1 = [line "Unknown command: dealloc".toList,
        line "Type 'help' for a list of commands.".toList] := by
  have halloc : .alloc (.block 4) 0x444444440000 ∈
      (execute sampleKernel "alloc! 16 16".toList).1 := by decide +kernel
  exact hint_frees_nothing sampleKernel halloc (by decide)

/-- The block of `alloc! 16 16` is not freed by the line that is printed for it. -/
theorem hint_fails_sample :
    .alloc (.block 4) 0x444444440000 ∈ (execute sampleKernel "alloc! 16 16".toList).1 ∧
      (execute sampleKernel "alloc! 16 16".toList).1.filterMap freeHint =
        ["dealloc 0x444444440000 16 16".toList] ∧
      ¬Frees sampleKernel "dealloc 0x444444440000 16 16".toList 0x444444440000 (.block 4) := by
  refine ⟨?_, ?_, ?_⟩
  · decide +kernel
  · decide +kernel
  · unfold Frees
    decide +kernel

end SillOS.Shell

import SillOS.Fs.History
import SillOS.Fs.Tree
import SillOS.Kernel.Launch

/-!
# The files of a session

The shell is the only one to change the file system, and only by `mkdir` and `touch`.
The file system of a session is therefore that of the calls its lines have made: a
tree that only grows, of empty files, under paths that are words.
-/

namespace SillOS

open Fb Shell

/-! ## Calls that create -/

namespace Fs.TmpFs

/-- A call that creates an entry. -/
def Op.Creates : Op → Prop
  | .mkdir _ | .touch _ => True
  | _ => False

/-- All files are empty. -/
def Empty (fs : TmpFs) : Prop :=
  ∀ (p : Path) (data : List UInt8), fs.files[p]? = some data → data = []

/-- A tree of empty files, all its paths of one kind. -/
structure Planted (P : Path → Prop) (fs : TmpFs) : Prop where
  isTree : fs.IsTree
  exclusive : fs.Exclusive
  empty : fs.Empty
  paths : ∀ p, fs.Stored p → P p

/-- All entries are still there. -/
structure Grows (fs fs' : TmpFs) : Prop where
  dirs : ∀ p, p ∈ fs.dirs → p ∈ fs'.dirs
  files : ∀ p, p ∈ fs.files → p ∈ fs'.files

variable {P : Path → Prop} {fs fs' fs'' : TmpFs}

/-- A file system keeps what it has. -/
theorem Grows.refl (fs : TmpFs) : fs.Grows fs := ⟨fun _ => id, fun _ => id⟩

/-- What is kept twice is kept. -/
theorem Grows.trans (h : fs.Grows fs') (h' : fs'.Grows fs'') : fs.Grows fs'' :=
  ⟨fun p hp => h'.dirs p (h.dirs p hp), fun p hp => h'.files p (h.files p hp)⟩

private theorem planted_new : new.Planted P where
  isTree := isTree_new
  exclusive := exclusive_new
  empty _ _ h := by cases h
  paths p h := by
    obtain h | h := h
    · exact absurd h Std.TreeSet.not_mem_emptyc
    · exact absurd h Std.TreeMap.not_mem_emptyc

private theorem empty_apply (h : fs.Empty) {op : Op} (hop : op.Creates) :
    (fs.apply op).1.Empty := by
  obtain ⟨hsame, -⟩ | ⟨path, rfl, -, -, -, happly⟩ | ⟨path, rfl, -, -, happly⟩ |
    ⟨path, data, rfl, -⟩ | ⟨path, rfl, -⟩ := fs.apply_cases op
  · rwa [hsame]
  · rw [happly]
    exact h
  · rw [happly]
    intro p data hp
    rw [getElem?_insertIfNew_file] at hp
    split_ifs at hp with heq
    · cases hold : fs.files[p]? with
      | none => simpa [hold] using hp.symm
      | some old => exact h p data (by simpa [hold] using hp)
    · exact h p data hp
  · exact hop.elim
  · exact hop.elim

private theorem paths_apply (h : ∀ p, fs.Stored p → P p) {op : Op} (hop : op.Creates)
    (hpath : P op.path) :
    ∀ p, (fs.apply op).1.Stored p → P p := by
  intro p hp
  obtain ⟨hsame, -⟩ | ⟨path, rfl, -, -, -, happly⟩ | ⟨path, rfl, -, -, happly⟩ |
    ⟨path, data, rfl, -⟩ | ⟨path, rfl, -⟩ := fs.apply_cases op
  · exact h p (hsame ▸ hp)
  · rw [happly, Stored, mem_insert_dir] at hp
    obtain (rfl | hp) | hp := hp
    · exact hpath
    · exact h p (Or.inl hp)
    · exact h p (Or.inr hp)
  · rw [happly, Stored, mem_insertIfNew_file] at hp
    obtain hp | rfl | hp := hp
    · exact h p (Or.inl hp)
    · exact hpath
    · exact h p (Or.inr hp)
  · exact hop.elim
  · exact hop.elim

/-- A call that creates an entry plants its path. -/
theorem planted_apply (h : fs.Planted P) {op : Op} (hop : op.Creates) (hpath : P op.path) :
    (fs.apply op).1.Planted P where
  isTree := isTree_apply h.isTree fun _ _ heq => (heq ▸ hop : Op.Creates (.write _ _)).elim
  exclusive := exclusive_apply h.exclusive op
  empty := empty_apply h.empty hop
  paths := paths_apply h.paths hop hpath

private theorem grows_apply (fs : TmpFs) {op : Op} (hop : op.Creates) :
    fs.Grows (fs.apply op).1 := by
  obtain ⟨hsame, -⟩ | ⟨path, rfl, -, -, -, happly⟩ | ⟨path, rfl, -, -, happly⟩ |
    ⟨path, data, rfl, -⟩ | ⟨path, rfl, -⟩ := fs.apply_cases op
  · rw [hsame]
    exact Grows.refl fs
  · rw [happly]
    exact ⟨fun p hp => (mem_insert_dir ..).mpr (Or.inr hp), fun _ => id⟩
  · rw [happly]
    exact ⟨fun _ => id, fun p hp => (mem_insertIfNew_file ..).mpr (Or.inr hp)⟩
  · exact hop.elim
  · exact hop.elim

end Fs.TmpFs

/-! ## Sessions -/

namespace Shell

/-- A nonempty text of printable characters other than blanks. -/
def IsWord (word : Text) : Prop := word ≠ [] ∧ ∀ c ∈ word, Printable c ∧ isWhitespace c = false

private theorem isWord_of_mem {text word : Text} (h : Plain text)
    (hword : word ∈ splitWhitespace text) :
    IsWord word := by
  obtain ⟨hne, hmem⟩ := Words.mem_words hword
  exact ⟨hne, fun c hc => ⟨h c (hmem c hc).1, (hmem c hc).2⟩⟩

/-- The calls that lines make create entries under words of the line. -/
theorem fileOp_creates {text : Text} {op : Fs.TmpFs.Op} (h : fileOp text = some op) :
    op.Creates ∧ op.path ∈ splitWhitespace text := by
  unfold fileOp at h
  split at h
  · rename_i command path rest hwords
    rw [hwords]
    have hmem : path ∈ command :: path :: rest := List.mem_cons_of_mem _ List.mem_cons_self
    split_ifs at h <;> cases h
    · exact ⟨trivial, hmem⟩
    · exact ⟨trivial, hmem⟩
  · cases h

end Shell

namespace Session

open Console

variable {s : Session} {env : HeapEnv} {key : Char}

/-! ## What leaves the file system alone -/

/-- No output changes the file system. -/
@[simp] theorem mirror_fs (s : Session) (text : Text) : (s.mirror text).fs = s.fs := by
  unfold mirror
  split_ifs <;> rfl

@[simp] theorem print_fs (s : Session) (text : Text) : (s.print text).fs = s.fs := mirror_fs _ _

@[simp] theorem println_fs (s : Session) (color : Option Color) (text : Text) :
    (s.println color text).fs = s.fs := by
  cases color <;> exact mirror_fs _ _

@[simp] theorem printLines_fs (s : Session) (color : Color) (lines : List Text) :
    (s.printLines color lines).fs = s.fs :=
  List.foldlRecOn (motive := fun t : Session => t.fs = s.fs) lines _ rfl
    fun _ ht text _ => (println_fs _ (some color) text).trans ht

/-- No effect changes the file system. -/
theorem perform_fs (env : Env) (s : Session) (e : Effect) : (s.perform env e).fs = s.fs := by
  cases e with
  | print text => exact print_fs s text
  | println color text => exact println_fs s color text
  | memAnalyze => exact printLines_fs s _ _
  | breakpoint => exact printLines_fs s _ _
  | panic => exact println_fs s (some Color.RED) _
  | clear | present | setBackground | setForeground | setSerialMirror | alloc | dealloc | reboot
  | exitQemu => rfl

/-- So several do not. -/
theorem performAll_fs (env : Env) (s : Session) (effects : List Effect) :
    (s.performAll env effects).fs = s.fs := by
  refine List.foldlRecOn (motive := fun t : Session => t.fs = s.fs) effects _ rfl fun t ht e _ => ?_
  split_ifs
  · exact ht
  · exact (perform_fs env t e).trans ht

@[simp] theorem prompt_fs (s : Session) : s.prompt.fs = s.fs := by
  unfold prompt
  split_ifs <;> rfl

/-! ## Tidy sessions -/

/-- What a session has typed and stored is printable. -/
structure Tidy (s : Session) : Prop where
  input : s.console.PlainInput
  planted : s.fs.Planted IsWord

/-- The stored paths of a tidy session are printable. -/
theorem Tidy.paths (h : s.Tidy) : PlainPaths s.fs :=
  fun p hp c hc => ((h.planted.paths p hp).2 c hc).1

/-- The file system after a key: that of the call which the line of the key makes, unless the
heap has starved the line, which then has not returned. -/
theorem step_fs (hinput : s.console.PlainInput) (event : HeapEnv × Char) :
    (s.step event).fs = ((s.executedBy event.2).bind fileOp).elim s.fs
        (fun op => (s.fs.apply op).1) ∨
      (s.step event).fs = s.fs ∧ (s.step event).halted = true := by
  cases hline : s.executedBy event.2 with
  | none =>
    obtain heq | ⟨-, heq⟩ := step_of_executedBy_none hline
    · exact Or.inl (by rw [heq]; rfl)
    · exact Or.inl (by rw [heq]; rfl)
  | some text =>
    obtain ⟨-, -, heq⟩ := step_of_executedBy hinput hline
    rw [heq, prompt_fs]
    by_cases hstarved : event.1.starved ∧ allocates text
    · rw [execute_starved hstarved]
      exact Or.inr ⟨perform_fs _ _ _, rfl⟩
    · rw [execute_eq hstarved, performAll_fs, Shell.execute_fs]
      left
      cases hop : fileOp text with
      | none => simp only [Option.bind_some, hop, Option.elim_none]; rfl
      | some op => simp only [Option.bind_some, hop, Option.elim_some]; rfl

/-- One key: what is stored stays, and what is added is a word of the executed line. -/
theorem tidy_step (h : s.Tidy) (event : HeapEnv × Char) :
    (s.step event).Tidy ∧ s.fs.Grows (s.step event).fs := by
  have hinput := plainInput_step h.input event
  have hsame : (s.step event).fs = s.fs →
      (s.step event).Tidy ∧ s.fs.Grows (s.step event).fs := by
    intro hfs
    exact ⟨⟨hinput, hfs ▸ h.planted⟩, hfs ▸ Fs.TmpFs.Grows.refl _⟩
  obtain hfs | ⟨hfs, -⟩ := step_fs h.input event
  · cases hop : (s.executedBy event.2).bind fileOp with
    | none => exact hsame (by rw [hfs, hop, Option.elim_none])
    | some op =>
      obtain ⟨text, hline, hcall⟩ := Option.bind_eq_some_iff.mp hop
      obtain ⟨hcreates, hmem⟩ := fileOp_creates hcall
      have hword := isWord_of_mem (executedBy_plain h.input hline) hmem
      rw [hop, Option.elim_some] at hfs
      refine ⟨⟨hinput, ?_⟩, ?_⟩
      · rw [hfs]
        exact Fs.TmpFs.planted_apply h.planted hcreates hword
      · rw [hfs]
        exact Fs.TmpFs.grows_apply _ hcreates
  · exact hsame hfs

/-- A session stays tidy, and what is stored stays. -/
theorem tidy_after (h : s.Tidy) (events : List (HeapEnv × Char)) :
    (s.after events).Tidy ∧ s.fs.Grows (s.after events).fs := by
  induction events generalizing s with
  | nil => exact ⟨h, Fs.TmpFs.Grows.refl _⟩
  | cons event events ih =>
    obtain ⟨htidy, hgrows⟩ := tidy_step h event
    obtain ⟨htidy', hgrows'⟩ := ih htidy
    exact ⟨htidy', hgrows.trans hgrows'⟩

/-- The kernel starts tidy. -/
theorem tidy_boot (env : Env) (font : Font) (info : Info) (back : Nat → UInt32)
    (front : ByteMemory) : (boot env font info back front).Tidy where
  input := by
    refine frame_performAll plainInput_rule.toOutputRule env _
      (fun _ _ _ h => ⟨h.inputLen_le, h.printable⟩) ?_
    exact plainInput_empty (((keeps_putChar _ 0x3e).trans (keeps_putChar _ 0x20)).inputLen)
  planted := by
    rw [boot, performAll_fs]
    exact Fs.TmpFs.planted_new

/-- While a session runs, its file system is that of the calls which its lines have made. -/
theorem after_fs (h : s.Tidy) {events : List (HeapEnv × Char)}
    (hrunning : (s.after events).halted = false) : (s.after events).fs =
      ((s.executed events).filterMap fileOp).foldl (fun fs op => (fs.apply op).1) s.fs := by
  induction events generalizing s with
  | nil => rfl
  | cons event events ih =>
    have hstep := ih (tidy_step h event).1 hrunning
    obtain hfs | ⟨-, hhalted⟩ := step_fs h.input event
    · rw [hfs] at hstep
      rw [executed, List.filterMap_append, List.foldl_append]
      refine hstep.trans (congrArg (List.foldl _ · _) ?_)
      cases hline : s.executedBy event.2 with
      | none => rfl
      | some text =>
        cases hop : fileOp text with
        | none => simp [hop]
        | some op => simp [hop]
    · have hstopped : (s.after (event :: events)).halted = true := by
        change ((s.step event).after events).halted = true
        rw [after_of_halted hhalted]
        exact hhalted
      rw [hstopped] at hrunning
      cases hrunning

end Session

/-- In every run in contract, whenever the kernel waits for a key: the file system is that of
the calls which the executed lines have made, it is a tree of empty files, stored under
words, and it has what it had whenever the kernel waited before. A line that the heap starves of
a string or a container stops the kernel. -/
theorem Launch.files_follow_lines (l : Launch) (pre post : List System.Event)
    (hok : l.InContract (pre ++ post)) :
    ∃ x y, l.after pre = some x ∧ l.after (pre ++ post) = some y ∧
      (x.session.halted = false →
        x.session.fs = Fs.TmpFs.after ((l.executed pre).filterMap fileOp) ∧
        x.session.fs.IsTree ∧ (∀ p data, x.session.fs.read p = .ok data → data = []) ∧
        ∀ p, x.session.fs.Stored p → IsWord p) ∧
      (y.session.halted = false → ∀ p, (p ∈ x.session.fs.dirs → p ∈ y.session.fs.dirs) ∧
        (p ∈ x.session.fs.files → p ∈ y.session.fs.files)) := by
  obtain ⟨x, hx, -, hsession⟩ := exists_after hok.of_append
  obtain ⟨y, hy, hsession'⟩ := exists_later hok hx
  have hstart : l.session.Tidy := Session.tidy_boot _ _ _ _ _
  have htidy : x.session.Tidy := hsession ▸ (Session.tidy_after hstart _).1
  have hgrows := (Session.tidy_after htidy (x.keys post)).2
  rw [← hsession'] at hgrows
  refine ⟨x, y, hx, hy, fun hrunning => ⟨?_, htidy.planted.isTree, fun p data hdata => ?_,
    htidy.planted.paths⟩, fun _ p => ⟨hgrows.dirs p, hgrows.files p⟩⟩
  · have hnew : l.session.fs = Fs.TmpFs.new := Session.performAll_fs _ _ _
    rw [hsession] at hrunning
    rw [hsession, Fs.TmpFs.after, ← hnew, executed]
    exact Session.after_fs hstart hrunning
  · exact htidy.planted.empty p data (Fs.TmpFs.read_eq_ok_iff.mp hdata)

/-- A run stores a directory. -/
theorem Launch.files_follow_lines_row : ∃ x, row.after (rowFirst ++ rowRest) = some x ∧
    x.session.fs = Fs.TmpFs.after [.mkdir "a".toList] ∧ x.session.fs.IsTree ∧
    ∀ p, x.session.fs.Stored p → IsWord p := by
  obtain ⟨x, -, hx, -, hfiles, -⟩ :=
    files_follow_lines row (rowFirst ++ rowRest) [] (by rw [List.append_nil]; exact row_run.1)
  obtain ⟨x', hx', hrunning, -⟩ := row_waits
  obtain rfl := Option.some.inj (hx.symm.trans hx')
  have hlines : (row.executed (rowFirst ++ rowRest)).filterMap fileOp = [.mkdir "a".toList] := by
    rw [row_run.2.1]
    decide
  obtain ⟨hfs, htree, -, hwords⟩ := hfiles hrunning
  exact ⟨x, hx, hlines ▸ hfs, htree, hwords⟩

end SillOS
